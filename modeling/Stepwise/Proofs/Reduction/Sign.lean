import Stepwise.Proofs.Phrase.RoundTrip
import Stepwise.Proofs.Reduction.Likewise
import Stepwise.Proofs.Reduction.Rational
import Stepwise.Proofs.Tree.Exponent

/-! A sign behind an operator. Main statement: a minus in front of a product or a quotient is
evaluated as the sign of all of it, whatever operator stands before it; so only behind a `*` could
it be the sign of the first factor as well. -/
namespace Stepwise

def IsUnsigned (text : String) : Prop := text.toList ≠ [] ∧ ∀ c ∈ text.toList, c.isDigit

namespace IsUnsigned
variable {text : String}

theorem numeral (unsigned : IsUnsigned text) : Token.IsNumeral text.toList := .whole unsigned.1 unsigned.2

theorem isLiteral (unsigned : IsUnsigned text) : IsLiteral text := ⟨_, unsigned.1, unsigned.2, .inl rfl⟩

theorem negative (unsigned : IsUnsigned text) : IsLiteral ("-" ++ text) :=
  ⟨_, unsigned.1, unsigned.2, .inr String.toList_append⟩

/-- A minus sign in front of the digits negates the number. -/
theorem literal_neg (unsigned : IsUnsigned text) : literal ("-" ++ text) = -literal text := by
  have signed : ("-" ++ text).toList = '-' :: text.toList := String.toList_append
  have plain : literal text = Decimal.digitsValue text.toList := by
    unfold literal
    split
    · next digits minus =>
      have := unsigned.2 '-' (by simp [minus])
      simp at this
    · rfl
  rw [plain, literal, signed]
  rfl

end IsUnsigned

namespace Tree

/-- The tree of `a outer -(b inner c)`. -/
def signed {ν : Type} (outer minus inner a b c : Token) : Tree (Label ν) :=
  fork { token := outer } (leaf { token := a })
    (fork { token := minus, unary := true } (leaf { token := .inserted .number "0" })
      (fork { token := inner } (leaf { token := b }) (leaf { token := c })))

/-- The tree of `(a outer (-b)) inner c`. -/
def grouped {ν : Type} (outer inner a b c : Token) : Tree (Label ν) :=
  fork { token := inner } (fork { token := outer } (leaf { token := a }) (leaf { token := b }))
    (leaf { token := c })

theorem placed_resembles (kind : Token.Kind) (text : String) (unary : Bool) (i j : Nat) :
    ({ token := ⟨kind, text, some i⟩, unary } : Mark).Resembles { token := ⟨kind, text, some j⟩, unary } :=
  ⟨rfl, rfl, rfl, rfl, rfl, rfl⟩

/-- Where the tokens stand does not matter. -/
theorem signed_resembles (outer inner : Token.Kind) (a b c : String) (i j k l m n i' j' k' l' m' n' : Nat) :
    (signed (.symbol outer i) (.symbol .minus j) (.symbol inner k) ⟨.number, a, some l⟩ ⟨.number, b, some m⟩
      ⟨.number, c, some n⟩ : Tree Mark).Resembles
    (signed (.symbol outer i') (.symbol .minus j') (.symbol inner k') ⟨.number, a, some l'⟩
    ⟨.number, b, some m'⟩
      ⟨.number, c, some n'⟩) := by
  have number (text : String) (i j : Nat) :
      (leaf { token := ⟨.number, text, some i⟩ } : Tree Mark).Resembles
      (leaf { token := ⟨.number, text, some j⟩ }) :=
    .leaf (placed_resembles .number text false i j)
  have product := Resembles.fork (placed_resembles inner inner.symbol.toString false k k')
    (fun _ => .inl rfl) (number b m m') (number c n n')
  have zero : (leaf { token := .inserted .number "0" } : Tree Mark).Resembles
      (leaf { token := .inserted .number "0" }) :=
    .leaf (.refl _)
  have negative := Resembles.fork (placed_resembles .minus "-" true j j') (fun _ => .inl rfl) zero product
  exact .fork (placed_resembles outer outer.symbol.toString false i i') (fun _ => .inl rfl)
    (number a l l') negative

/-- An arithmetic tree whose numbers are represented without loss has its rational number as its value. -/
theorem Arithmetic.value {x : Tree Mark} (arithmetic : x.Arithmetic) (fits : x.Fits) :
    x.trace.value = match x.rational? with
      | some q => .ok (Decimal.ofInt q.num / Decimal.ofInt q.den)
      | none => .error (.computation .zeroDenominator) := by
  rcases arithmetic.trace fits with ⟨ended, undefined⟩ | ⟨ended, q, defined, num, den, last⟩
  · simp [Result.value, ended, undefined, bind, Except.bind, Except.mapError]
  · simp [Result.value, ended, last, defined, Formula.valueOfLine_toString num den, bind,
      Except.bind, Except.mapError]

section
variable {ν : Type} {outer minus inner a b c : Token}

/-- The product with its sign in front is that with the sign on its first factor. -/
theorem rational_signed {negative : Token} (times : outer.kind = .times) (sign : minus.kind = .minus)
    (product : inner.kind = .times ∨ inner.kind = .divide) (unsigned : IsUnsigned b.text)
    (negated : negative.text = "-" ++ b.text) :
    (signed outer minus inner a b c : Tree (Label ν)).rational? =
    (grouped outer inner a negative c : Tree (Label ν)).rational? := by
  have zero : literal "0" = 0 := by decide
  have value : literal negative.text = -literal b.text := by rw [negated, unsigned.literal_neg]
  rcases product with kind | kind
  · simp only [signed, grouped, rational?, times, sign, kind, Operation.ofKind?,
      Operation.rational?, Option.bind_some, Token.inserted, zero, value, Rat.intCast_neg,
      Rat.intCast_zero]
    rw [Rat.sub_eq_add_neg, Rat.zero_add, Rat.mul_neg, Rat.mul_neg, Rat.neg_mul, Rat.mul_assoc]
  · simp only [signed, grouped, rational?, times, sign, kind, Operation.ofKind?,
      Operation.rational?, Option.bind_some, Token.inserted, zero, value, Rat.intCast_neg,
      Rat.intCast_zero]
    by_cases none : (literal c.text : Rat) = 0
    · rw [if_pos none, if_pos none]
      rfl
    · rw [if_neg none, if_neg none, Option.bind_some, Option.bind_some, Rat.sub_eq_add_neg,
        Rat.zero_add, Rat.div_def, Rat.div_def, Rat.mul_neg, Rat.mul_neg, Rat.neg_mul,
        Rat.mul_assoc]

end

end Tree

namespace Phrase

variable {ν : Type} {outer inner : Token.Kind} {a b c text : String}

/-- The phrase `a outer -b inner c`. Its product is not in brackets. -/
def signed (outer inner : Token.Kind) (a b c : String) : Phrase :=
  operator outer (number a) (sign .minus (operator inner (number b) (number c)))

/-- The phrase `a outer (-(b inner c))`. -/
def bracketed (outer inner : Token.Kind) (a b c : String) : Phrase :=
  operator outer (number a) (bracket (sign .minus (bracket (operator inner (number b) (number c)))))

/-- The phrase `(a outer (-b)) inner c`. -/
def grouped (outer inner : Token.Kind) (a b c : String) : Phrase :=
  operator inner (bracket (operator outer (number a) (bracket (sign .minus (number b))))) (number c)

theorem shallow_of_plain {p : Phrase} (written : p.Spelled) (chars : text.toList = p.chars)
    (plain : ∀ token ∈ p.tokens 0, token.IsPlain)
    (nested : Token.nesting 0 (p.tokens 0 ++ [⟨.finish, "", some p.width⟩]) ≤ Expression.maxNesting) :
    Token.Shallow text := by
  intro tokens read
  have scanned : Token.scan text = .ok (p.tokens 0 ++ [⟨.finish, "", some p.width⟩]) := by
    rw [← String.ofList_toList (s := text), chars, scan_chars written]
  rw [Token.ofText, scanned] at read
  obtain rfl := Except.ok.inj read
  rwa [Token.groupProducts_plain]
  intro token member
  rcases List.mem_append.mp member with member | finish
  · exact plain token member
  · obtain rfl := List.mem_singleton.mp finish
    exact ⟨by simp, by simp [Token.Kind.IsCall]⟩

/-- A product leaves the sign before it where it is. -/
theorem stays_behind_minus (product : inner = .times ∨ inner = .divide)
    {above : Label ν} (minus : above.token.kind = .minus) {left x : Tree (Label ν)}
    {outside : List (Waiting (Label ν))} {position : Nat} :
    Waiting.closeWhile (Draft.yields (.symbol inner position)) ((above, left) :: outside) x =
      ((above, left) :: outside, x) := by
  refine Waiting.closeWhile_stop (fun w first => ?_) x
  obtain rfl := Option.some.inj first
  rcases product with rfl | rfl <;>
    simp [Draft.yields, Expression.Builder.climbsOver, minus, Token.symbol, Token.Kind.rank?]

/-- Behind the operator the minus is a sign, and the product behind it binds tighter than it does. -/
theorem run_signed (rank : outer = .times ∨ outer = .divide ∨ outer = .power)
    (product : inner = .times ∨ inner = .divide) (finish : Token) (ends : finish.kind = .finish) :
    Run [] [] (.gap none none) ((signed outer inner a b c).tokens 0 ++ [finish])
      ((signed outer inner a b c).tree 0 : Tree (Label ν)) := by
  have operator : (outer.rank?.isSome ∧ gap outer = []) ∧ inner.rank?.isSome ∧ gap inner = [] := by
    rcases rank with rfl | rfl | rfl <;> rcases product with rfl | rfl <;> simp [Token.Kind.rank?, gap]
  obtain ⟨⟨rank, plain⟩, rank', plain'⟩ := operator
  simp only [signed, tokens, List.cons_append, List.nil_append, tree, negated?]
  refine .number rfl (.operator rank rfl ?_)
  refine .sign (.inr rfl) (fun _ alone => ?_) (.number rfl (.operator rank' rfl (.number rfl ?_)))
  · rcases product with rfl | rfl
    · exact alone.2.2.1 rfl
    · exact alone.2.2.2.1 rfl
  · rw [stays_behind_minus product rfl]
    exact .finish ends

section
variable (unsignedA : IsUnsigned a) (unsignedB : IsUnsigned b) (unsignedC : IsUnsigned c)
  (rank : outer = .times ∨ outer = .divide ∨ outer = .power) (product : inner = .times ∨ inner = .divide)
include unsignedA unsignedB unsignedC rank product

theorem spelled_signed : (signed outer inner a b c).Spelled := by
  have known : outer.rank?.isSome ∧ inner.rank?.isSome := by
    rcases rank with rfl | rfl | rfl <;> rcases product with rfl | rfl <;> exact ⟨rfl, rfl⟩
  exact ⟨known.1, unsignedA.numeral, .inr rfl, known.2, unsignedB.numeral, unsignedC.numeral⟩

theorem valid_bracketed : (bracketed outer inner a b c).Valid := by
  rcases rank with rfl | rfl | rfl <;> rcases product with rfl | rfl <;>
    simp [bracketed, Valid, Ends, tier, unsignedA.numeral, unsignedB.numeral, unsignedC.numeral,
      Token.Kind.rank?, Token.Kind.leftTier, Token.Kind.rightTier]

theorem valid_grouped : (grouped outer inner a b c).Valid := by
  rcases rank with rfl | rfl | rfl <;> rcases product with rfl | rfl <;>
    simp [grouped, Valid, Ends, tier, unsignedA.numeral, unsignedB.numeral, unsignedC.numeral,
      Token.Kind.rank?, Token.Kind.leftTier, Token.Kind.rightTier]

theorem ofText_signed (written : text.toList = (signed outer inner a b c).chars) :
    Tree.ofText text = .ok ((signed outer inner a b c).tree 0 : Tree (Label ν)) := by
  have spelled := spelled_signed unsignedA unsignedB unsignedC rank product
  have scanned : Token.scan text =
      .ok ((signed outer inner a b c).tokens 0 ++
      [⟨.finish, "", some (signed outer inner a b c).width⟩]) := by
    rw [← String.ofList_toList (s := text), written, scan_chars spelled]
  refine (run_signed rank product _ rfl).ofText scanned (shallow_of_plain spelled written ?_ ?_)
  · rcases rank with rfl | rfl | rfl <;> rcases product with rfl | rfl <;>
      simp [signed, tokens, Token.IsPlain, Token.Kind.IsCall, Token.symbol]
  · rcases rank with rfl | rfl | rfl <;> rcases product with rfl | rfl <;>
      simp [signed, tokens, Token.nesting, Token.symbol, Expression.maxNesting]

theorem ofText_bracketed (written : text.toList = (bracketed outer inner a b c).chars) :
    Tree.ofText text = .ok ((bracketed outer inner a b c).tree 0 : Tree (Label ν)) := by
  have valid := valid_bracketed unsignedA unsignedB unsignedC rank product
  refine ofText_chars valid written (shallow_of_plain valid.spelled written ?_ ?_)
  · rcases rank with rfl | rfl | rfl <;> rcases product with rfl | rfl <;>
      simp [bracketed, tokens, Token.IsPlain, Token.Kind.IsCall, Token.symbol]
  · rcases rank with rfl | rfl | rfl <;> rcases product with rfl | rfl <;>
      simp [bracketed, tokens, Token.nesting, Token.symbol, Expression.maxNesting]

theorem ofText_grouped (written : text.toList = (grouped outer inner a b c).chars) :
    Tree.ofText text = .ok ((grouped outer inner a b c).tree 0 : Tree (Label ν)) := by
  have valid := valid_grouped unsignedA unsignedB unsignedC rank product
  refine ofText_chars valid written (shallow_of_plain valid.spelled written ?_ ?_)
  · rcases rank with rfl | rfl | rfl <;> rcases product with rfl | rfl <;>
      simp [grouped, tokens, Token.IsPlain, Token.Kind.IsCall, Token.symbol]
  · rcases rank with rfl | rfl | rfl <;> rcases product with rfl | rfl <;>
      simp [grouped, tokens, Token.nesting, Token.symbol, Expression.maxNesting]

end

/-! The operator in front is a product. -/

section
variable (unsignedA : IsUnsigned a) (unsignedB : IsUnsigned b) (unsignedC : IsUnsigned c)
  (product : inner = .times ∨ inner = .divide)

include product in
theorem operation_product : ∃ operation, Operation.ofKind? inner = some operation ∧ operation ≠ .power := by
  rcases product with rfl | rfl
  · exact ⟨.multiply, rfl, by decide⟩
  · exact ⟨.divide, rfl, by decide⟩

include unsignedA unsignedB unsignedC product

theorem arithmetic_signed : ((signed .times inner a b c).tree 0 : Tree (Label ν)).Arithmetic := by
  obtain ⟨operation, kind, ordinary⟩ := operation_product product
  have zero : IsLiteral "0" := ⟨['0'], by simp, by simp, .inl rfl⟩
  exact ⟨rfl, ⟨.multiply, rfl, by decide⟩, ⟨rfl, rfl, unsignedA.isLiteral⟩,
    rfl, ⟨.subtract, rfl, by decide⟩, ⟨rfl, rfl, zero⟩, rfl, ⟨operation, kind, ordinary⟩,
    ⟨rfl, rfl, unsignedB.isLiteral⟩, ⟨rfl, rfl, unsignedC.isLiteral⟩⟩

theorem arithmetic_grouped : ((grouped .times inner a b c).tree 0 : Tree (Label ν)).Arithmetic := by
  obtain ⟨operation, kind, ordinary⟩ := operation_product product
  exact ⟨rfl, ⟨operation, kind, ordinary⟩, ⟨rfl, ⟨.multiply, rfl, by decide⟩,
    ⟨rfl, rfl, unsignedA.isLiteral⟩, rfl, rfl, unsignedB.negative⟩, rfl, rfl, unsignedC.isLiteral⟩

end

theorem rational_signed (unsignedB : IsUnsigned b) (product : inner = .times ∨ inner = .divide) :
    ((signed .times inner a b c).tree 0 : Tree (Label ν)).rational? =
    ((grouped .times inner a b c).tree 0 : Tree (Label ν)).rational? :=
  Tree.rational_signed rfl rfl product unsignedB rfl

end Phrase

namespace Formula

open Expression

theorem evaluated_of_tree {text : String} {x : Tree Mark} (built : Tree.ofText text = .ok x) :
    ∃ e : Formula, Expression.ofText text = .ok e ∧ e.Displays x ∧ (evaluate e).steps.toList = x.trace.lines ∧
      (evaluate e).value = x.trace.value := by
  obtain ⟨e, parsed, displays⟩ := ofText_of_tree built
  have evaluated := evaluate_eq displays (Tree.ofText_formed built)
  exact ⟨e, parsed, displays, evaluated.2.1, evaluated.2.2⟩

/-- A sign in front of a product or a quotient is the sign of all of it. Behind a `*` this is the
value that the text has with the sign on the first factor alone, as long as all numbers are
represented without loss. -/
theorem evaluate_sign {a b c : String}
    {outer inner : Token.Kind} (unsignedA : IsUnsigned a) (unsignedB : IsUnsigned b)
    (unsignedC : IsUnsigned c) (rank : outer = .times ∨ outer = .divide ∨ outer = .power)
    (product : inner = .times ∨ inner = .divide) :
    ∃ e f g : Formula,
      Expression.ofText (a ++ outer.symbol.toString ++ "-" ++ b ++ inner.symbol.toString ++ c) = .ok e ∧
      Expression.ofText
      (a ++ outer.symbol.toString ++ "(-(" ++ b ++ inner.symbol.toString ++ c ++ "))") = .ok f ∧
      Expression.ofText ("(" ++ a ++ outer.symbol.toString ++ "(-" ++ b ++ "))" ++
      inner.symbol.toString ++ c) = .ok g ∧
      (evaluate e).steps = (evaluate f).steps ∧ (evaluate e).value = (evaluate f).value ∧
      (outer = .times → (∀ x, e.Displays x → x.Fits) → (∀ x, g.Displays x → x.Fits) →
        (evaluate e).value = (evaluate g).value) := by
  have plain : Phrase.gap outer = [] ∧ Phrase.gap inner = [] := by
    rcases rank with rfl | rfl | rfl <;> rcases product with rfl | rfl <;> exact ⟨rfl, rfl⟩
  have first : Tree.ofText (a ++ outer.symbol.toString ++ "-" ++ b ++ inner.symbol.toString ++ c) =
      .ok ((Phrase.signed outer inner a b c).tree 0 : Tree Mark) :=
    Phrase.ofText_signed unsignedA unsignedB unsignedC rank product
      (by simp [Phrase.signed, Phrase.chars, plain, Token.Kind.symbol])
  have second : Tree.ofText (a ++ outer.symbol.toString ++ "(-(" ++ b ++ inner.symbol.toString ++ c ++ "))") =
      .ok ((Phrase.bracketed outer inner a b c).tree 0 : Tree Mark) :=
    Phrase.ofText_bracketed unsignedA unsignedB unsignedC rank product
      (by simp [Phrase.bracketed, Phrase.chars, plain, Token.Kind.symbol])
  have third : Tree.ofText
      ("(" ++ a ++ outer.symbol.toString ++ "(-" ++ b ++ "))" ++ inner.symbol.toString ++ c) =
      .ok ((Phrase.grouped outer inner a b c).tree 0 : Tree Mark) :=
    Phrase.ofText_grouped unsignedA unsignedB unsignedC rank product
      (by simp [Phrase.grouped, Phrase.chars, plain, Token.Kind.symbol])
  obtain ⟨e, parsed, displays, steps, value⟩ := evaluated_of_tree first
  obtain ⟨f, parsed', -, steps', value'⟩ := evaluated_of_tree second
  obtain ⟨g, parsed'', displays'', -, value''⟩ := evaluated_of_tree third
  have resembles : ((Phrase.signed outer inner a b c).tree 0 : Tree Mark).Resembles
      ((Phrase.bracketed outer inner a b c).tree 0) := Tree.signed_resembles outer inner a b c ..
  refine ⟨e, f, g, parsed, parsed', parsed'', ?_, ?_, ?_⟩
  · rw [← Array.toList_inj, steps, steps', resembles.trace.1]
  · rw [value, value', resembles.value]
  · rintro rfl fits fits''
    rw [value, value'', (Phrase.arithmetic_signed unsignedA unsignedB unsignedC product).value
      (fits _ displays), (Phrase.arithmetic_grouped unsignedA unsignedB unsignedC product).value
      (fits'' _ displays''), Phrase.rational_signed unsignedB product]

theorem fits_of_text {text : String} {e : Formula} (parsed : Expression.ofText text = .ok e)
    (small : (Tree.ofText text : Except GrammarError (Tree Mark)).toOption.all fun x =>
      decide x.Fits) {x : Tree Mark} (displays : e.Displays x) : x.Fits := by
  obtain ⟨y, built, displays', -⟩ := displays_of_parsed parsed
  obtain rfl := displays.unique displays'
  simpa [built, Except.toOption] using small

/-- The sign in `2*-3/4` is that of the quotient, and could be that of the number. -/
theorem evaluate_sign_quotient : ∃ e f g : Formula,
    IsUnsigned "2" ∧ IsUnsigned "3" ∧ IsUnsigned "4" ∧
      Expression.ofText "2*-3/4" = .ok e ∧ Expression.ofText "2*(-(3/4))" = .ok f ∧
      Expression.ofText "(2*(-3))/4" = .ok g ∧
      (∀ x, e.Displays x → x.Fits) ∧ (∀ x, g.Displays x → x.Fits) ∧ (evaluate e).steps = (evaluate f).steps ∧
      (evaluate e).value = (evaluate f).value ∧ (evaluate e).value = (evaluate g).value := by
  have digit (c : Char) (digit : c.isDigit) : IsUnsigned c.toString := ⟨by simp, by simpa using digit⟩
  have two := digit '2' rfl
  have three := digit '3' rfl
  have four := digit '4' rfl
  obtain ⟨e, f, g, parsed, parsed', parsed'', steps, value, same⟩ :=
    evaluate_sign two three four (show Token.Kind.times = .times ∨ _ from .inl rfl)
      (show Token.Kind.divide = _ ∨ _ from .inr rfl)
  have fits (x : Tree Mark) (displays : e.Displays x) : x.Fits :=
    fits_of_text parsed (by decide +kernel) displays
  have fits' (x : Tree Mark) (displays : g.Displays x) : x.Fits :=
    fits_of_text parsed'' (by decide +kernel) displays
  exact ⟨e, f, g, two, three, four, parsed, parsed', parsed'', fits, fits', steps, value, same rfl fits fits'⟩

theorem value_of_text {text : String} {q : Rat} (characters : ∀ c ∈ text.toList, Text.IsArithmetic c)
    (small : (Tree.ofText text : Except GrammarError (Tree Mark)).toOption.any fun x =>
      decide x.Fits && decide (x.rational? = some q)) :
    ∃ e : Formula, Expression.ofText text = .ok e ∧
      (evaluate e).value = .ok (Decimal.ofInt q.num / Decimal.ofInt q.den) := by
  cases built : (Tree.ofText text : Except GrammarError (Tree Mark)) with
  | error error => simp [built, Except.toOption] at small
  | ok x =>
    obtain ⟨fits, rational⟩ : x.Fits ∧ x.rational? = some q := by simpa [built, Except.toOption] using small
    obtain ⟨e, parsed, -, -, value⟩ := evaluated_of_tree built
    exact ⟨e, parsed, by rw [value, (Tree.ofText_arithmetic characters built).value fits, rational]⟩

/-- In `6 / -2 * 3` the sign takes the product away from the quotient. -/
theorem evaluate_sign_taken : ∃ e g : Formula,
    Expression.ofText "6/-2*3" = .ok e ∧ Expression.ofText "(6/(-2))*3" = .ok g ∧
      (evaluate e).value = .ok (Decimal.ofInt (-1) / Decimal.ofInt 1) ∧
      (evaluate g).value = .ok (Decimal.ofInt (-9) / Decimal.ofInt 1) ∧
      (evaluate e).value ≠ (evaluate g).value := by
  have characters : ∀ c ∈ "6/-2*3".toList, Text.IsArithmetic c := by simp [Text.IsArithmetic]
  have characters' : ∀ c ∈ "(6/(-2))*3".toList, Text.IsArithmetic c := by simp [Text.IsArithmetic]
  have small : (Tree.ofText "6/-2*3" : Except GrammarError (Tree Mark)).toOption.any fun x =>
      decide x.Fits && decide (x.rational? = some (-1)) := by decide +kernel
  have small' : (Tree.ofText "(6/(-2))*3" : Except GrammarError (Tree Mark)).toOption.any fun x =>
      decide x.Fits && decide (x.rational? = some (-9)) := by decide +kernel
  obtain ⟨e, parsed, value⟩ := value_of_text characters small
  obtain ⟨g, parsed', value'⟩ := value_of_text characters' small'
  refine ⟨e, g, parsed, parsed', value, value', ?_⟩
  rw [value, value']
  intro same
  have same := Except.ok.inj same
  revert same
  decide +kernel

end Formula

end Stepwise
