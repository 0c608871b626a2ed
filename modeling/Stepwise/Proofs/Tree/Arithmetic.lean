import Stepwise.Proofs.Quantity.Rational
import Stepwise.Proofs.Tree.Numeric

/-! Arithmetic on whole numbers. A text of digits, the four operators and round brackets denotes a tree of
whole numbers and operators, and such a tree stands for a rational number unless it divides by zero. -/
namespace Stepwise

namespace Text

def IsArithmetic (c : Char) : Prop := c.isDigit ∨ c ∈ ['+', '-', '*', '/', '(', ')'] ∨ isBlank c

theorem IsArithmetic.isNumeric {c : Char} (arithmetic : IsArithmetic c) : IsNumeric c := by
  rcases arithmetic with digit | operator | blank
  · exact .inl digit
  · exact .inr
      (.inl ((by decide : ['+', '-', '*', '/', '(', ')'] ⊆ ['.', '+', '-', '*', '/', '^', '(', ')'])
      operator))
  · exact .inr (.inr blank)

end Text

open Text (IsArithmetic)

def literal (text : String) : Int :=
  match text.toList with
  | '-' :: digits => -(Decimal.digitsValue digits : Int)
  | digits => Decimal.digitsValue digits

def IsLiteral (text : String) : Prop :=
  ∃ digits : List Char, digits ≠ [] ∧ (∀ c ∈ digits, c.isDigit) ∧
    (text.toList = digits ∨ text.toList = '-' :: digits)

/-- A literal is read as the whole number that it spells. -/
theorem IsLiteral.read {text : String} (isLiteral : IsLiteral text) (small : Exact (literal text)) :
    ∃ x, Decimal.read? text = some x ∧ Decimal.IsWhole x (literal text) := by
  obtain ⟨digits, nonempty, all, plain | minus⟩ := isLiteral
  · have value : literal text = Decimal.digitsValue digits := by
      unfold literal
      rw [plain]
      split
      · have := all '-' (List.mem_cons_self ..)
        simp at this
      · rfl
    rw [value] at small ⊢
    subst plain
    exact ⟨_, Decimal.read_whole nonempty all rfl small, Decimal.isWhole_whole small⟩
  · have value : literal text = -(Decimal.digitsValue digits : Int) := by
      simp only [literal, minus]
    rw [value, Exact, Int.natAbs_neg] at small
    rw [value]
    exact ⟨_, Decimal.read_negative minus nonempty all rfl small, (Decimal.isWhole_whole small).neg⟩

namespace Token

def IsArithmetic (token : Token) : Prop :=
  match token.kind with
  | .number => IsLiteral token.text ∧ token.text.toList.head? ≠ some '-'
  | .plus | .minus | .times | .divide | .opening | .closing | .finish => True
  | _ => False

theorem IsNumeral.digits {text : List Char} (numeral : IsNumeral text)
    (characters : ∀ c ∈ text, Text.IsArithmetic c) :
    text ≠ [] ∧ ∀ c ∈ text, c.isDigit := by
  cases numeral with
  | whole nonempty all => exact ⟨nonempty, all⟩
  | point all nonempty allBehind =>
    have := characters '.' (List.mem_append_right _ (List.mem_cons_self ..))
    simp [Text.IsArithmetic, Text.isBlank] at this

theorem From.isArithmetic {source : List Char} {token : Token} (origin : token.From source)
    (characters : ∀ c ∈ source, Text.IsArithmetic c) : token.IsArithmetic := by
  have inside (c : Char) (member : c ∈ token.text.toList) : Text.IsArithmetic c :=
    characters c (origin.characters c member)
  have spelled := origin.spelled
  have numeric := (origin.isNumeric fun c member => (characters c member).isNumeric).kind
  unfold Spelled at spelled
  unfold IsArithmetic
  cases kind : token.kind <;> simp only [kind] at spelled numeric ⊢
  case number =>
    obtain ⟨nonempty, digits⟩ := spelled.digits inside
    refine ⟨⟨_, nonempty, digits, .inl rfl⟩, fun minus => ?_⟩
    have := digits '-' (List.mem_of_mem_head? minus)
    simp at this
  case power =>
    have := inside '^' (by rw [spelled]; decide)
    simp [Text.IsArithmetic, Text.isBlank] at this
  all_goals simp [Operation.ofKind?] at numeric

theorem IsArithmetic.isPlain {token : Token} (arithmetic : token.IsArithmetic) : token.IsPlain := by
  unfold IsArithmetic at arithmetic
  unfold IsPlain Kind.IsCall
  cases kind : token.kind <;> simp [kind] at arithmetic ⊢

/-- The tokens of an arithmetic text take part in no implicit product. -/
theorem ofText_isArithmetic {text : String} (characters : ∀ c ∈ text.toList, Text.IsArithmetic c)
    {tokens : List Token} (read : Token.ofText text = .ok tokens) :
    ∀ token ∈ tokens, token.IsArithmetic :=
  ofText_plain (fun _ origin => origin.isArithmetic characters) (fun _ arithmetic => arithmetic.isPlain) read

end Token

namespace Tree

variable {ν : Type}

/-- Whole numbers under the four operators, as they are written. -/
def Arithmetic : Tree (Label ν) → Prop
  | leaf a => a = { token := a.token } ∧ a.token.kind = .number ∧ IsLiteral a.token.text
  | group _ _ => False
  | fork a left right =>
    a = { token := a.token, unary := a.unary } ∧
      (∃ operation, Operation.ofKind? a.token.kind = some operation ∧ operation ≠ .power) ∧
      left.Arithmetic ∧ right.Arithmetic

theorem arithmetic_builds : Builds (ν := ν) Token.IsArithmetic Arithmetic where
  operand token arithmetic kind := by
    unfold Token.IsArithmetic at arithmetic
    rcases kind with h | h <;> simp only [h] at arithmetic
    exact ⟨rfl, h, arithmetic.1⟩
  negative number position arithmetic kind := by
    simp only [Token.IsArithmetic, kind] at arithmetic
    obtain ⟨⟨digits, nonempty, all, plain | minus⟩, unsigned⟩ := arithmetic
    · exact ⟨rfl, rfl, digits, nonempty, all, .inr (by rw [String.toList_append, plain]; rfl)⟩
    · simp [minus] at unsigned
  factorial token arithmetic kind := by simp [Token.IsArithmetic, kind] at arithmetic
  power letter _ _ arithmetic kind _ _ _ := by simp [Token.IsArithmetic, kind] at arithmetic
  operator token left right arithmetic rank l r _ := by
    refine ⟨rfl, ?_, l, r⟩
    unfold Token.IsArithmetic at arithmetic
    cases kind : token.kind <;> simp [kind, Token.Kind.rank?] at arithmetic rank <;> exact ⟨_, rfl, by simp⟩
  sign token right _ sign r := by
    refine ⟨rfl, ?_, ⟨rfl, rfl, ['0'], by simp, by simp, .inl (by simp [Token.inserted])⟩, r⟩
    rcases sign with h | h <;> rw [h] <;> exact ⟨_, rfl, by simp⟩
  call keyword x arithmetic call _ := absurd call arithmetic.isPlain.2

/-- An arithmetic text denotes an arithmetic tree. -/
theorem ofText_arithmetic {text : String} (characters : ∀ c ∈ text.toList, IsArithmetic c)
    {x : Tree (Label ν)} (parsed : Tree.ofText text = .ok x) : x.Arithmetic :=
  ofText_keeps arithmetic_builds (fun _ read => Token.ofText_isArithmetic characters read) parsed

/-- The rational number that a tree stands for. There is none if it divides by zero. -/
def rational? : Tree (Label ν) → Option Rat
  | leaf a => some (literal a.token.text)
  | group _ inner => inner.rational?
  | fork a left right =>
    (Operation.ofKind? a.token.kind).bind fun operation =>
      left.rational?.bind fun p => right.rational?.bind fun q => operation.rational? p q

def DividesByZero : Tree (Label ν) → Prop
  | leaf _ => False
  | group _ inner => inner.DividesByZero
  | fork a left right =>
    left.DividesByZero ∨ right.DividesByZero ∨ (a.token.kind = .divide ∧ right.rational? = some 0)

def Fits : Tree (Label ν) → Prop
  | leaf a => Exact (literal a.token.text)
  | group _ inner => inner.Fits
  | fork a left right =>
    left.Fits ∧ right.Fits ∧
      ∀ operation ∈ Operation.ofKind? a.token.kind, ∀ p ∈ left.rational?, ∀ q ∈ right.rational?,
      operation.Fits p q

instance decidableFits : (x : Tree (Label ν)) → Decidable x.Fits
  | leaf _ => inferInstanceAs (Decidable (Exact _))
  | group _ inner => decidableFits inner
  | fork _ left right =>
    have := decidableFits left
    have := decidableFits right
    inferInstanceAs (Decidable (_ ∧ _ ∧ _))

theorem rational_eq_none {x : Tree (Label ν)} (arithmetic : x.Arithmetic) :
    x.rational? = none ↔ x.DividesByZero := by
  induction x with
  | leaf a => simp [rational?, DividesByZero]
  | group a inner ih => exact arithmetic.elim
  | fork a left right ihl ihr =>
    obtain ⟨_, ⟨operation, kind, ordinary⟩, l, r⟩ := arithmetic
    simp only [rational?, DividesByZero, kind, Option.bind_some, ← ihl l, ← ihr r]
    cases left.rational? with
    | none => simp
    | some p =>
      cases right.rational? with
      | none => simp
      | some q =>
        have divides : operation = .divide ↔ a.token.kind = .divide := by
          cases kind' : a.token.kind <;> simp [kind', Operation.ofKind?] at kind <;> simp [← kind]
        simp only [Option.bind_some, reduceCtorEq, Option.some.injEq, false_or, ← divides]
        cases operation <;> simp [Operation.rational?] at ordinary ⊢

end Tree

end Stepwise
