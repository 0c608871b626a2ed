import Stepwise.Proofs.Phrase.Sum
import Stepwise.Proofs.Quantity.Negation
import Stepwise.Proofs.Reduction.Lagging

/-! Reading the text of a half reduced tree. -/
namespace Stepwise

open Quantity (constant fraction Same)
open Decimal (IsRational)

namespace Tree

variable {w left right l r : Tree Mark} {token u : Token} {digits : String}

theorem core_sign (written : token.isInserted = false) (right : Tree Mark) :
    (fork { token, unary := true } (leaf { token := .inserted .number "0" }) right : Tree Mark).core =
      fork { token := token.unplaced, unary := true } (leaf { token := .inserted .number "0" })
      right.core := by
  have zero : (leaf { token := .inserted .number "0" } : Tree Mark).core =
      leaf { token := .inserted .number "0" } :=
    core_numeral (.whole (by simp) (by simp)) none
  rw [core_fork (not_unit written _), zero]
  rfl

theorem core_operation (written : token.isInserted = false) (left right : Tree Mark) :
    (fork { token } left right : Tree Mark).core = fork { token := token.unplaced } left.core right.core := by
  rw [core_fork (not_unit written _)]
  rfl

namespace Numeric

/-- Only a number keeps a number. -/
theorem of_core_number (numeric : w.Numeric) (same : w.core = leaf { token := .inserted .number digits }) :
    ∃ token, w = leaf { token } ∧ token.kind = .number ∧ token.text = digits := by
  cases numeric with
  | @number token kind numeral =>
    obtain ⟨_, text, position⟩ := token
    obtain rfl : _ = Token.Kind.number := kind
    rw [core_numeral numeral] at same
    exact ⟨_, rfl, rfl, by simpa [Token.inserted] using same⟩
  | negative => rw [core_minus] at same; cases same
  | sign kind spelled written operand => rw [core_sign written] at same; cases same
  | operator kind spelled written => rw [core_operation written] at same; cases same

/-- A sign in front of an operand, or a number with its sign on it. -/
theorem of_core_sign (numeric : w.Numeric)
    (same : w.core = fork { token := u, unary := true } (leaf { token := .inserted .number "0" }) r) :
    (∃ token right, w = fork { token, unary := true } (leaf { token := .inserted .number "0" })
    right ∧ token.unplaced = u ∧
      (token.kind = .plus ∨ token.kind = .minus) ∧ token.Spelled ∧ token.isInserted = false ∧
      right.Numeric ∧ right.core = r) ∨
    (∃ digits position, w = leaf { token := ⟨.number, "-" ++ digits, position⟩ } ∧
    Token.IsNumeral digits.toList ∧
      u = .inserted .minus "-" ∧ r = leaf { token := .inserted .number digits }) := by
  cases numeric with
  | @number token kind numeral =>
    obtain ⟨_, text, position⟩ := token
    obtain rfl : _ = Token.Kind.number := kind
    rw [core_numeral numeral] at same
    cases same
  | @negative digits numeral position =>
    rw [core_minus] at same
    cases same
    exact .inr ⟨_, _, rfl, numeral, rfl, rfl⟩
  | sign kind spelled written operand =>
    rw [core_sign written] at same
    cases same
    exact .inl ⟨_, _, rfl, rfl, kind, spelled, written, operand, rfl⟩
  | operator kind spelled written =>
    rw [core_operation written] at same
    cases same

theorem of_core_operator (numeric : w.Numeric) (same : w.core = fork { token := u } l r) :
    ∃ token left right operation,
    w = fork { token } left right ∧ token.unplaced = u ∧
      Operation.ofKind? token.kind = some operation ∧ token.Spelled ∧
      token.isInserted = false ∧ left.Numeric ∧ right.Numeric ∧ left.core = l ∧ right.core = r := by
  cases numeric with
  | @number token kind numeral =>
    obtain ⟨_, text, position⟩ := token
    obtain rfl : _ = Token.Kind.number := kind
    rw [core_numeral numeral] at same
    cases same
  | negative => rw [core_minus] at same; cases same
  | sign kind spelled written operand => rw [core_sign written] at same; cases same
  | operator kind spelled written first second =>
    rw [core_operation written] at same
    cases same
    exact ⟨_, _, _, _, rfl, rfl, kind, spelled, written, first, second, rfl, rfl⟩

end Numeric

end Tree

namespace Token

theorem IsNumeral.head_ne_minus {text : List Char} (numeral : IsNumeral text) :
    text.head? ≠ some '-' :=
  fun minus => by
  obtain ⟨first, rest, rfl, starts⟩ := numeral.first
  obtain rfl := Option.some.inj minus
  exact absurd starts (by decide)

theorem nesting_flat {tokens : List Token} (flat : ∀ token ∈ tokens, token.kind ≠ .opening) (depth : Nat) :
    nesting depth tokens = depth := by
  induction tokens generalizing depth with
  | nil => rfl
  | cons token rest ih =>
    have later := ih fun other member => flat other (List.mem_cons_of_mem _ member)
    rw [nesting, if_neg (flat token (List.mem_cons_self ..)), later]
    split <;> omega

/-- A numeric text without a bracket opens none. -/
theorem shallow_of_flat {text : String} (characters : ∀ c ∈ text.toList, Text.IsNumeric c)
    (flat : '(' ∉ text.toList) :
    Shallow text := by
  intro tokens read
  have closed (token : Token) (origin : token.From text.toList) : token.kind ≠ .opening := by
    intro opening
    have spelled := origin.spelled
    unfold Spelled at spelled
    simp only [opening] at spelled
    exact flat (origin.characters '(' (by rw [spelled]; decide))
  have all := ofText_plain (fun token origin => And.intro (origin.isNumeric characters) (closed token origin))
    (fun _ known => known.1.isPlain) read
  rw [nesting_flat fun token member => (all token member).2]
  exact Nat.zero_le _

end Token

/-- What is printed for the quantity is read and evaluated to an equal one. -/
def Quantity.IsFaithful (q : Quantity) : Prop :=
  ∃ f : Formula, Expression.ofText q.text = .ok f ∧
    ∃ r, ((Formula.evaluate f).formula.node (Formula.evaluate f).formula.root).value = some r ∧ q.agrees r

instance : DecidablePred Quantity.IsFaithful := fun q =>
  decidable_of_iff ((Expression.ofText q.text).toOption.any fun f : Formula =>
      ((Formula.evaluate f).formula.node (Formula.evaluate f).formula.root).value.any q.agrees) (by
    cases parsed : (Expression.ofText q.text : Except GrammarError Formula) <;>
      simp [Quantity.IsFaithful, parsed, Except.toOption, Option.any_eq_true])

/-- What a tree of the printed text, up to the signs on its numbers, comes to. -/
theorem Quantity.IsFaithful.amount {q : Quantity} (faithful : q.IsFaithful) {t : Tree Mark}
    (numeric : t.Numeric) (text : t.text = q.text) (flat : '(' ∉ q.text.toList) :
    ∃ w : Tree Mark, w.Numeric ∧ w.core = t.core ∧ ∃ r, w.attachQuantities.amount? = some r ∧ q.agrees r := by
  obtain ⟨f, parsed, r, value, agrees⟩ := faithful
  obtain ⟨x, built, displays, formed⟩ := Formula.displays_of_parsed parsed
  obtain ⟨w, built', numeric', -, core⟩ :=
    numeric.again (Token.shallow_of_flat numeric.characters (text ▸ flat))
  obtain rfl : x = w := Except.ok.inj (built.symm.trans (text ▸ built'))
  obtain ⟨⟨t, spans, root, view⟩, -⟩ := Formula.evaluate_eq displays formed
  have last := numeric'.trace_eq.1
  have top : x.attachQuantities.reduct.top.value = some r := by
    rw [← last, ← view]
    simp only [Expression.view, Tree.top_map, root]
    exact value
  exact ⟨x, numeric', core, r, numeric'.reckoned.amount_of_reduct top, agrees⟩

theorem Token.unreadable {text : String} (refused : (Token.ofText text).isOk = false) (f : Formula) :
    Expression.ofText text ≠ .ok f := by
  intro parsed
  unfold Expression.ofText at parsed
  cases tokens : Token.ofText text with
  | error error => simp [tokens] at parsed
  | ok tokens' => simp [tokens, Except.isOk, Except.toBool] at refused

/-- Neither an infinity nor NaN is read back. -/
theorem Quantity.IsFaithful.isFinite {x : Float} (faithful : (constant x).IsFaithful) :
    Decimal.isFinite x := by
  by_contra infinite
  obtain ⟨f, parsed, -⟩ := faithful
  have text : (constant x).text = Decimal.sixPlaces x := rfl
  rw [text] at parsed
  rcases Decimal.sixPlaces_of_infinite infinite with same | same | same <;> rw [same] at parsed
  · exact Token.unreadable (by decide +kernel) f parsed
  · exact Token.unreadable (by decide +kernel) f parsed
  · exact Token.unreadable (by decide +kernel) f parsed

theorem Decimal.not_opening {x : Float} (finite : Decimal.isFinite x) :
    '(' ∉ (sixPlaces x).toList := fun opening =>
  absurd ((sixPlaces_decimal finite).2 _ opening) (by unfold IsDecimal; decide)

/-- The number of which the text is written, with a sign or without one. A negative number can be
written 0. -/
theorem Decimal.IsRational.written {x : Float} {p : ℚ} (value : IsRational x p) :
    ∃ (digits : String) (n : Float) (m : ℚ),
    Token.IsNumeral digits.toList ∧ readMagnitude? digits.toList = some n ∧ IsRational n m ∧
      ((sixPlaces x = "-" ++ digits ∧ p < 0 ∧ sixPlaces x ≠ "0") ∨
      (sixPlaces x = digits ∧ (p < 0 → m = 0))) := by
  obtain ⟨b, binary, -, written⟩ := sixPlaces_eq value
  obtain ⟨n, read, finite⟩ := readMagnitude_written binary
  obtain ⟨m, value'⟩ := isRational_of_isFinite finite
  refine ⟨_, n, m, (millionthsText_spec _).1, read, value', ?_⟩
  by_cases signed : p < 0 ∧ b.magnitudeTimes (tenTo 6) .even ≠ 0
  · rw [if_pos signed] at written
    refine .inl ⟨written, signed.1, fun zero => ?_⟩
    have head := congrArg String.toList (written.symm.trans zero)
    simp at head
  · rw [if_neg signed] at written
    refine .inr ⟨written, fun negative => ?_⟩
    have none : b.magnitudeTimes (tenTo 6) .even = 0 := by_contra fun nonzero => signed ⟨negative, nonzero⟩
    rw [none] at read
    have zero : readMagnitude? (millionthsText 0).toList = some 0.0 := by decide +kernel
    rw [zero] at read
    exact value'.unique (Option.some.inj read ▸ .zero)

namespace Tree

variable {w left right : Tree Mark} {digits : String} {n : Float}

/-- A number, prepared. -/
theorem attach_of_core (numeric : w.Numeric)
    (same : w.core = leaf { token := .inserted .number digits })
    (read : Decimal.read? digits = some n) :
    ∃ b : Mark, w.attachQuantities = leaf b ∧ b.call = none ∧ b.value = some (constant n) := by
  obtain ⟨token, rfl, kind, rfl⟩ := numeric.of_core_number same
  exact ⟨_, attach_read kind read, rfl, rfl⟩

/-- A sign over an operand, prepared. -/
theorem attach_sign (token : Token) (right : Tree Mark) : ∃ b : Mark,
    (fork ({ token, unary := true } : Mark) (leaf { token := .inserted .number "0" })
    right).attachQuantities =
      fork { token, unary := true } (leaf b) right.attachQuantities ∧ b.call = none ∧
      b.value = some (constant 0.0) := by
  refine ⟨_, by rw [attach_fork, attach_zero], rfl, rfl⟩

/-- A negative number, prepared: the sign is a part of it, or it stands over the number without it. -/
theorem attach_of_core_minus (numeric : w.Numeric) (numeral : Token.IsNumeral digits.toList)
    (same : w.core = (leaf { token := ⟨.number, "-" ++ digits, none⟩ } : Tree Mark).core)
    (magnitude : Decimal.readMagnitude? digits.toList = some n) :
    (∃ b : Mark, w.attachQuantities = leaf b ∧ b.call = none ∧ b.value = some (constant (-n))) ∨
      ∃ a b c : Mark, w.attachQuantities = fork a (leaf b) (leaf c) ∧ a.Operates .subtract ∧
      a.unary = true ∧ a.token.text = "-" ∧
        b.call = none ∧ b.value = some (constant 0.0) ∧ c.call = none ∧ c.value = some (constant n) := by
  rw [core_minus] at same
  rcases numeric.of_core_sign same with ⟨token, right, rfl, sign, kind, spelled, written, operand, core⟩ |
    ⟨digits', position, rfl, -, -, equal⟩
  · have minus : token.kind = .minus ∧ token.text = "-" :=
      ⟨congrArg Token.kind sign, congrArg Token.text sign⟩
    obtain ⟨c, attached, callc, valuec⟩ := attach_of_core operand core (Decimal.read_plain numeral magnitude)
    obtain ⟨b, whole, callb, valueb⟩ := attach_sign token right
    rw [attached] at whole
    exact .inr ⟨_, b, c, whole, operates_fresh (by rw [minus.1]; rfl) spelled written, rfl, minus.2,
      callb, valueb, callc, valuec⟩
  · obtain rfl : digits = digits' := by simpa [Token.inserted] using equal
    exact .inl ⟨_, attach_read rfl (Decimal.read_negated magnitude), rfl, rfl⟩

/-- The tree is written like the quantity, and what is read of that text is reduced to the quantity
without showing it. -/
structure Rereads (t : Tree Mark) (q : Quantity) : Prop where
  numeric : t.Numeric
  rendered : t.rendered = q.rendered
  lags : ∀ w : Tree Mark, w.Numeric → w.core = t.core → ∃ v, Same q v ∧
    ∀ b : Mark, b.call = none → b.value = some v → w.attachQuantities.Lags (leaf b)

def numberLeaf (digits : String) : Tree Mark := leaf { token := ⟨.number, digits, none⟩ }

theorem core_unsigned (numeral : Token.IsNumeral digits.toList) :
    (numberLeaf digits).core = leaf { token := .inserted .number digits } :=
  core_numeral numeral none

theorem rendered_unsigned (numeral : Token.IsNumeral digits.toList) :
    (numberLeaf digits).rendered = ⟨digits, .atom⟩ := by
  simp [numberLeaf, rendered_leaf, Expression.renderToken, numeral.head_ne_minus]

theorem rendered_signed (digits : String) :
    (numberLeaf ("-" ++ digits)).rendered = ⟨"-" ++ digits, .sum⟩ := by
  simp [numberLeaf, rendered_leaf, Expression.renderToken]

/-- What a negative number comes to, and that it comes to it without showing it. -/
theorem lags_of_core_minus {m : ℚ} (numeric : w.Numeric)
    (numeral : Token.IsNumeral digits.toList) (same : w.core = (numberLeaf ("-" ++ digits)).core)
    (magnitude : Decimal.readMagnitude? digits.toList = some n) (value : IsRational n m) :
    ∃ z, IsRational z (-m) ∧ w.attachQuantities.amount? = some (constant z) ∧
      (0 < m → Decimal.sixPlaces n ≠ "0" → ∀ b : Mark, b.call = none → b.value = some (constant z) →
        w.attachQuantities.Lags (leaf b)) := by
  rcases attach_of_core_minus numeric numeral same magnitude with
    ⟨b, attached, call, held⟩ | ⟨a, b, c, attached, operates, unary, minus, callb, valueb, callc, valuec⟩
  · rw [attached]
    exact ⟨-n, value.neg, held, fun _ _ d call' held' =>
      .number call call' held held' (.number value.neg.isFinite) (.refl _)⟩
  · obtain ⟨z, difference, valuez⟩ := Quantity.zero_sub_constant .zero value
    rw [attached]
    refine ⟨z, valuez, ?_, fun positive shown d call held => ?_⟩
    · simp [amount?, operates.known, valueb, valuec, difference, Except.toOption]
    · refine .reduced operates (fun power => by cases power)
        (.number callb callb valueb valueb (.number IsRational.zero.isFinite) (.refl _))
        (.number callc callc valuec valuec (.number value.isFinite) (.refl _)) valueb valuec
        difference call held ?_
      rw [rendered_sign operates.call unary, minus, rendered_value callc valuec,
        Quantity.rendered_zero_sub value valuez positive shown]

def quotient (top bottom : String) : Tree Mark :=
  fork { token := ⟨.divide, "/", some 0⟩ } (numberLeaf top) (numberLeaf bottom)

theorem quotient_numeric {top bottom : String} (above : Token.IsNumeral top.toList)
    (below : Token.IsNumeral bottom.toList) :
    (quotient top bottom).Numeric :=
  .operator (show Operation.ofKind? .divide = some .divide from rfl) rfl rfl (.number rfl above)
    (.number rfl below)

theorem core_quotient {top bottom : String} (above : Token.IsNumeral top.toList)
    (below : Token.IsNumeral bottom.toList) :
    (quotient top bottom).core = fork { token := ⟨.divide, "/", none⟩ }
    (leaf { token := .inserted .number top })
      (leaf { token := .inserted .number bottom }) := by
  rw [quotient, core_operation rfl, core_unsigned above, core_unsigned below]
  rfl

theorem rendered_quotient {top bottom : String} (above : Token.IsNumeral top.toList)
    (below : Token.IsNumeral bottom.toList) :
    (quotient top bottom).rendered = ⟨top ++ "/" ++ bottom, .product⟩ := by
  rw [quotient, rendered_fork rfl rfl (not_unit rfl _) rfl (by decide), rendered_unsigned above,
    rendered_unsigned below]
  rfl

section Ratio

variable {x y u v : Float} {k : Int} {i d : Nat}

theorem rendered_positive (value : IsRational u i) : (constant u).rendered = ⟨toString i, .atom⟩ := by
  have above : ¬ u < 0.0 := fun less => by
    have negative := (value.lt .zero).mp less
    exact absurd negative (not_lt.mpr (Nat.cast_nonneg i))
  have value : IsRational u (i : Int) := by exact_mod_cast value
  rw [Quantity.rendered, if_neg above, value.sixPlaces_integral]
  rfl

/-- How a fraction of integers is written that is no integer. -/
theorem rendered_ratio (top : IsRational x k) (bottom : IsRational y d) (nonzero : k ≠ 0) (proper : d ≠ 1) :
    (fraction (constant x) (constant y)).rendered =
    ⟨toString k ++ "/" ++ toString d, if k < 0 then .sum else .product⟩ := by
  have order : x < 0.0 ↔ k < 0 := by rw [top.lt .zero, Int.cast_lt_zero]
  have above : (constant x).rendered.text = toString k := top.sixPlaces_integral
  have one : toString d ≠ "1" := fun same => proper (Nat.repr_inj.mp same)
  have none : toString k ≠ "0" := fun same => nonzero (by
    cases k with
    | ofNat n => exact congrArg Int.ofNat (Nat.repr_inj.mp same)
    | negSucc n =>
      have head := congrArg String.toList same
      rw [Decimal.toString_int, if_pos (Int.negSucc_lt_zero n)] at head
      simp at head)
  rw [Quantity.rendered, rendered_positive bottom, Quantity.fractionRendered, above]
  simp only [one, none, order, decide_false, Bool.or_false, Bool.false_eq_true, if_false, if_true,
    decide_eq_true_eq]
  rfl

/-- A quotient of two numbers is reduced without showing it if it is a fraction that is written like it. -/
theorem lags_of_core_quotient (numeric : w.Numeric)
    (same : w.core = (quotient (toString i) (toString d)).core)
    (read : Decimal.read? (toString i) = some u) (read' : Decimal.read? (toString d) = some v)
    (top : IsRational u i) (bottom : IsRational v d) (nonzero : i ≠ 0) (proper : d ≠ 1) :
    w.attachQuantities.amount? = ((constant u).div (constant v)).toOption.join ∧
      ∀ {s t : Float} {e : Mark},
      (constant u).div (constant v) = .ok (some (fraction (constant s) (constant t))) →
        IsRational s i → IsRational t d → e.call = none →
        e.value = some (fraction (constant s) (constant t)) →
          w.attachQuantities.Lags (leaf e) := by
  have numeral := Token.isNumeral_nat i
  have numeral' := Token.isNumeral_nat d
  rw [core_quotient numeral numeral'] at same
  obtain ⟨token, left, right, operation, rfl, symbol, known, spelled, written, first, second, corel,
    corer⟩ := numeric.of_core_operator same
  obtain ⟨b, attached, callb, valueb⟩ := attach_of_core first corel read
  obtain ⟨c, attached', callc, valuec⟩ := attach_of_core second corer read'
  have kind : token.kind = .divide := congrArg Token.kind symbol
  have operates : ({ token } : Mark).Operates .divide := operates_fresh (by rw [kind]; rfl) spelled written
  rw [attach_fork, attached, attached']
  refine ⟨?_, fun {s t e} divided above below call held => ?_⟩
  · simp only [amount?, operates.known, valueb, valuec, Option.bind_some]
    rfl
  · refine .reduced operates (fun power => by cases power)
      (.number callb callb valueb valueb (.number top.isFinite) (.refl _))
      (.number callc callc valuec valuec (.number bottom.isFinite) (.refl _))
      valueb valuec divided call held ?_
    have above : IsRational s (i : Int) := by exact_mod_cast above
    have leftmost : (numberLeaf (toString i)).rendered = (leaf b).rendered := by
      rw [rendered_unsigned numeral, rendered_value callb valueb, rendered_positive top]
    have rightmost : (numberLeaf (toString d)).rendered = (leaf c).rendered := by
      rw [rendered_unsigned numeral', rendered_value callc valuec, rendered_positive bottom]
    have printed : ({ token := ⟨.divide, "/", some 0⟩ } : Mark).Operates .divide := operates_fresh rfl rfl rfl
    calc (fork { token } (leaf b) (leaf c)).rendered
      _ = (quotient (toString i) (toString d)).rendered :=
        (operates.rendered_congr printed rfl leftmost rightmost).symm
      _ = (fraction (constant s) (constant t)).rendered := by
        rw [rendered_quotient numeral numeral',
          rendered_ratio above below (by exact_mod_cast nonzero) proper, if_neg (by omega)]
        rfl

def opposite (top bottom : String) : Tree Mark :=
  fork { token := ⟨.minus, "-", some 0⟩, unary := true } (leaf { token := .inserted .number "0" })
    (quotient top bottom)

theorem rendered_opposite :
    (opposite (toString i) (toString d)).rendered =
      ⟨"-" ++ (toString i ++ "/" ++ toString d), .sum⟩ := by
  rw [opposite, rendered_sign rfl rfl, rendered_quotient (Token.isNumeral_nat i) (Token.isNumeral_nat d)]
  rfl

/-- The sign of a quotient stands over it. -/
theorem attach_of_core_opposite (numeric : w.Numeric)
    (same : w.core = (opposite (toString i) (toString d)).core) :
    ∃ (a b : Mark) (right : Tree Mark),
      w.attachQuantities = fork a (leaf b) right.attachQuantities ∧ a.Operates .subtract ∧
      a.unary = true ∧ a.token.text = "-" ∧ b.call = none ∧ b.value = some (constant 0.0) ∧ right.Numeric ∧
        right.core = (quotient (toString i) (toString d)).core := by
  rw [opposite, core_sign rfl] at same
  rcases numeric.of_core_sign same with ⟨token, right, rfl, sign, -, spelled, written, operand,
    core⟩ | ⟨_, _, -, -, -, coreLeaf⟩
  · obtain ⟨b, attached, call, value⟩ := attach_sign token right
    have minus : token.kind = .minus := congrArg Token.kind sign
    exact ⟨_, b, right, attached, operates_fresh (by rw [minus]; rfl) spelled written, rfl,
      congrArg Token.text sign, call, value, operand, core⟩
  · rw [core_quotient (Token.isNumeral_nat i) (Token.isNumeral_nat d)] at coreLeaf
    cases coreLeaf

end Ratio

section Faithful

variable {x y : Float} {p : ℚ}

/-- A number that is printed faithfully is read back. -/
theorem rereads_constant (faithful : (constant x).IsFaithful) : ∃ t : Tree Mark, t.Rereads (constant x) := by
  have finite := faithful.isFinite
  obtain ⟨p, value⟩ := Decimal.isRational_of_isFinite finite
  obtain ⟨digits, n, m, numeral, magnitude, value', text⟩ := value.written
  have flat : '(' ∉ (constant x).text.toList := Decimal.not_opening finite
  rcases text with ⟨text, negative, nonzero⟩ | ⟨text, unsigned⟩
  · -- the sign is a part of the number, or it stands over it
    have numeric : (numberLeaf ("-" ++ digits)).Numeric := .negative numeral none
    obtain ⟨w, numericw, core, r, reckoned, agrees⟩ := faithful.amount numeric text.symm flat
    obtain ⟨z, valuez, amountz, -⟩ := lags_of_core_minus numericw numeral core magnitude value'
    obtain rfl := Option.some.inj (reckoned.symm.trans amountz)
    have equal : p = -m := (value.beq_iff valuez).mp agrees
    have below : x < 0.0 := (value.lt .zero).mpr negative
    refine ⟨numberLeaf ("-" ++ digits), numeric, ?_, fun w numeric core => ?_⟩
    · rw [rendered_signed, Quantity.rendered, if_pos below, text]
    · obtain ⟨z, valuez, -, lags⟩ := lags_of_core_minus numeric numeral core magnitude value'
      refine ⟨constant z, .number value (equal ▸ valuez), lags (by linarith) ?_⟩
      rwa [Ne, value'.sixPlaces_eq_zero, ← abs_neg, ← equal, ← value.sixPlaces_eq_zero]
  · have numeric : (numberLeaf digits).Numeric := .number rfl numeral
    have read := Decimal.read_plain numeral magnitude
    have attach (w : Tree Mark) (numeric : w.Numeric) (same : w.core = (numberLeaf digits).core) :=
      attach_of_core numeric (same.trans (core_unsigned numeral)) read
    obtain ⟨w, numericw, core, r, reckoned, agrees⟩ := faithful.amount numeric text.symm flat
    obtain ⟨b, attached, -, held⟩ := attach w numericw core
    rw [attached] at reckoned
    obtain rfl := Option.some.inj (reckoned.symm.trans held)
    have equal : p = m := (value.beq_iff value').mp agrees
    have above : ¬ x < 0.0 := fun less => by
      have negative := (value.lt .zero).mp less
      exact negative.ne (equal.trans (unsigned negative))
    refine ⟨numberLeaf digits, numeric, ?_, fun w numeric core =>
      ⟨constant n, .number value (equal ▸ value'), fun d call held => ?_⟩⟩
    · rw [rendered_unsigned numeral, Quantity.rendered, if_neg above, text]
    · obtain ⟨b, attached, call', held'⟩ := attach w numeric core
      rw [attached]
      exact .number call' call held' held (.number value'.isFinite) (.refl _)

/-- What is written like a number and printed faithfully is one. -/
theorem agrees_constant {q : Quantity} (faithful : q.IsFaithful) (value : IsRational x p)
    (text : q.text = Decimal.sixPlaces x) :
    ∃ z, q.agrees (constant z) := by
  obtain ⟨digits, n, m, numeral, magnitude, value', written⟩ := value.written
  have flat : '(' ∉ q.text.toList := text ▸ Decimal.not_opening value.isFinite
  rcases written with ⟨written, -⟩ | ⟨written, -⟩
  · obtain ⟨w, numeric, core, r, reckoned, agrees⟩ :=
      faithful.amount (t := numberLeaf ("-" ++ digits)) (.negative numeral none)
        (written.symm.trans text.symm) flat
    obtain ⟨z, -, amount, -⟩ := lags_of_core_minus numeric numeral core magnitude value'
    exact ⟨z, Option.some.inj (reckoned.symm.trans amount) ▸ agrees⟩
  · obtain ⟨w, numeric, core, r, reckoned, agrees⟩ :=
      faithful.amount (t := numberLeaf digits) (.number rfl numeral) (written.symm.trans text.symm) flat
    obtain ⟨b, attached, -, held⟩ :=
      attach_of_core numeric (core.trans (core_unsigned numeral)) (Decimal.read_plain numeral magnitude)
    rw [attached] at reckoned
    exact ⟨n, Option.some.inj (reckoned.symm.trans held) ▸ agrees⟩

/-- A fraction that is printed faithfully is printed with both of its sides. -/
theorem proper_of_faithful {k : Int}
    {d : Nat} (faithful : (fraction (constant x) (constant y)).IsFaithful) (top : IsRational x k)
    (bottom : IsRational y d) : k ≠ 0 ∧ d ≠ 1 := by
  have plain (shown : (fraction (constant x) (constant y)).text = Decimal.sixPlaces x) : False := by
    obtain ⟨z, agrees⟩ := agrees_constant faithful top shown
    simp [Quantity.agrees] at agrees
  refine ⟨?_, ?_⟩
  · rintro rfl
    have zero : Decimal.sixPlaces x = "0" := top.sixPlaces_integral
    exact plain (by simp [Quantity.text, Quantity.rendered, Quantity.fractionRendered, zero])
  · rintro rfl
    have one : Decimal.sixPlaces y = "1" := congrArg Rendered.text (rendered_positive bottom)
    exact plain (by simp [Quantity.text, Quantity.rendered, Quantity.fractionRendered, one])

/-- The only quantity equal to a fraction of numbers other than zero is the fraction. -/
theorem eq_of_agrees {r : Quantity} {q : ℚ} (top : IsRational x p)
    (bottom : IsRational y q) (nonzero : p ≠ 0) (nonzero' : q ≠ 0) (settled : r.IsSettled)
    (agrees : (fraction (constant x) (constant y)).agrees r) :
    r = fraction (constant x) (constant y) := by
  cases settled with
  | number => simp [Quantity.agrees] at agrees
  | @ratio u v ratio =>
    obtain ⟨⟨s, value, -⟩, ⟨t, value', -⟩, -⟩ := ratio
    simp only [Quantity.agrees, Bool.and_eq_true] at agrees
    have equal := (top.beq_iff value).mp agrees.1
    have equal' := (bottom.beq_iff value').mp agrees.2
    rw [top.eq_of_ne_zero (equal ▸ value) nonzero, bottom.eq_of_ne_zero (equal' ▸ value') nonzero']

theorem not_opening_ratio {k : Int} {d : Nat} {precedence : Precedence} (top : IsRational x k)
    (bottom : IsRational y d)
    (text : (fraction (constant x) (constant y)).rendered =
      ⟨toString k ++ "/" ++ toString d, precedence⟩) :
    '(' ∉ (fraction (constant x) (constant y)).text.toList := by
  have left := Decimal.not_opening top.isFinite
  have right := Decimal.not_opening bottom.isFinite
  rw [top.sixPlaces_integral] at left
  rw [show Decimal.sixPlaces y = toString d from congrArg Rendered.text (rendered_positive bottom)] at right
  simp only [Quantity.text, text, String.toList_append, List.mem_append, not_or]
  exact ⟨⟨left, by decide⟩, right⟩

/-- What an operation on numbers gives is settled. -/
theorem settled_of_apply {a b r : Quantity} (operation : Operation) (left : a.value?.isSome)
    (right : b.value?.isSome) (combined : (a.apply operation b).toOption.join = some r) :
    a.apply operation b = .ok (some r) ∧ r.IsSettled := by
  have settles := Quantity.apply_settles operation left right
  cases outcome : a.apply operation b with
  | error error => simp [outcome, Except.toOption] at combined
  | ok result =>
    rw [outcome] at combined settles
    obtain ⟨r, rfl, settled⟩ := settles
    obtain rfl := Option.some.inj combined
    exact ⟨rfl, settled⟩

/-- A positive fraction that is printed faithfully is read back. -/
theorem rereads_positive {i d : Nat} (faithful : (fraction (constant x) (constant y)).IsFaithful)
    (top : IsRational x i) (bottom : IsRational y d) (nonzero : i ≠ 0) (nonzero' : d ≠ 0)
    (proper : d ≠ 1) :
    ∃ t : Tree Mark, t.Rereads (fraction (constant x) (constant y)) := by
  have whole : IsRational x (i : Int) := by exact_mod_cast top
  have text := rendered_ratio whole bottom (by exact_mod_cast nonzero) proper
  obtain ⟨u, readu, valueu⟩ := top.read_integral
  obtain ⟨v, readv, valuev⟩ := bottom.read_integral
  have numeric := quotient_numeric (Token.isNumeral_nat i) (Token.isNumeral_nat d)
  have written : (quotient (toString i) (toString d)).rendered =
      (fraction (constant x) (constant y)).rendered := by
    rw [text, rendered_quotient (Token.isNumeral_nat i) (Token.isNumeral_nat d), if_neg (by omega)]
    rfl
  have lags {w : Tree Mark} (numeric : w.Numeric)
      (core : w.core = (quotient (toString i) (toString d)).core) :=
    lags_of_core_quotient numeric core readu readv valueu valuev nonzero proper
  obtain ⟨w, numericw, core, r, reckoned, agrees⟩ :=
    faithful.amount numeric (congrArg Rendered.text written) (not_opening_ratio whole bottom text)
  obtain ⟨divided, settled⟩ := settled_of_apply (a := constant u) (b := constant v) .divide rfl rfl
    ((lags numericw core).1.symm.trans reckoned)
  obtain rfl :=
    eq_of_agrees top bottom (by exact_mod_cast nonzero) (by exact_mod_cast nonzero') settled agrees
  exact ⟨_, numeric, written, fun w numeric core =>
    ⟨_, .refl _, fun e call held => (lags numeric core).2 divided top bottom call held⟩⟩

/-- A negative fraction that is printed faithfully is read back. Its sign is read as a sign over it. -/
theorem rereads_negative {i d : Nat} (faithful : (fraction (constant x) (constant y)).IsFaithful)
    (top : IsRational x (-i : Int)) (bottom : IsRational y d) (nonzero : i ≠ 0) (nonzero' : d ≠ 0)
    (proper : d ≠ 1) :
    ∃ t : Tree Mark, t.Rereads (fraction (constant x) (constant y)) := by
  have below : (-i : Int) < 0 := by omega
  have text := rendered_ratio top bottom below.ne proper
  have magnitude : IsRational (-x) i := by simpa using top.neg
  obtain ⟨u, readu, valueu⟩ := magnitude.read_integral
  obtain ⟨v, readv, valuev⟩ := bottom.read_integral
  have numeric : (opposite (toString i) (toString d)).Numeric :=
    .sign (.inr rfl) rfl rfl (quotient_numeric (Token.isNumeral_nat i) (Token.isNumeral_nat d))
  have written : (opposite (toString i) (toString d)).rendered =
      (fraction (constant x) (constant y)).rendered := by
    rw [text, rendered_opposite, if_pos below, Decimal.toString_int, if_pos below, Int.natAbs_neg,
      Int.natAbs_natCast]
    simp only [String.append_assoc]
  have lags {w : Tree Mark} (numeric : w.Numeric)
      (core : w.core = (quotient (toString i) (toString d)).core) :=
    lags_of_core_quotient numeric core readu readv valueu valuev nonzero proper
  -- zero less the quotient is the fraction
  obtain ⟨w, numericw, core, r, reckoned, agrees⟩ :=
    faithful.amount numeric (congrArg Rendered.text written) (not_opening_ratio top bottom text)
  obtain ⟨a, b, right, attached, operates, -, -, -, valueb, numericr, corer⟩ :=
    attach_of_core_opposite numericw core
  simp only [attached, amount?, operates.known, valueb, Option.bind_some] at reckoned
  obtain ⟨q, reckonedQuotient, negated⟩ := Option.bind_eq_some_iff.mp reckoned
  obtain ⟨divided, settled⟩ := settled_of_apply (a := constant u) (b := constant v) .divide rfl rfl
    ((lags numericr corer).1.symm.trans reckonedQuotient)
  obtain ⟨_, held, -⟩ := settled.value
  obtain ⟨negated, settled'⟩ := settled_of_apply (a := constant 0.0) .subtract rfl (by rw [held]; rfl) negated
  obtain rfl := eq_of_agrees top bottom (by exact_mod_cast below.ne) (by exact_mod_cast nonzero')
    settled' agrees
  -- so the quotient is the fraction without its sign
  obtain ⟨s, t, rfl, top', bottom'⟩ :=
    Quantity.fraction_of_zero_sub .zero (i := i) (m := d) (by exact_mod_cast valueu)
    (by exact_mod_cast valuev) (by omega) divided settled negated top (by exact_mod_cast bottom)
  refine ⟨_, numeric, written, fun w numeric core => ⟨_, .refl _, fun e call held => ?_⟩⟩
  obtain ⟨a, b, right, attached, operates, unary, minus, callb, valueb, numericr, corer⟩ :=
    attach_of_core_opposite numeric core
  have inner : right.attachQuantities.Lags (leaf (a.collapse (fraction (constant s) (constant t)))) :=
    (lags numericr corer).2 divided (by exact_mod_cast top') (by exact_mod_cast bottom') operates.call rfl
  have shown : (leaf (a.collapse (fraction (constant s) (constant t)))).rendered =
      (fraction (constant s) (constant t)).rendered :=
    rendered_value operates.call rfl
  rw [attached]
  refine .reduced operates (fun power => by cases power) (.number callb callb valueb valueb
    (.number IsRational.zero.isFinite) (.refl _)) inner valueb rfl negated call held ?_
  rw [rendered_sign operates.call unary, minus, shown, ← written, rendered_opposite,
    rendered_ratio top' (by exact_mod_cast bottom') (by omega) proper, if_neg (by omega)]
  rfl

/-- A number or a fraction that is printed faithfully is read back. -/
theorem rereads_number {q : Quantity} (faithful : q.IsFaithful) (number : IsNumber q) :
    ∃ t : Tree Mark, t.Rereads q := by
  rcases number with ⟨x, rfl⟩ | ⟨x, y, rfl, -, ⟨q, value, least, -⟩, k, m, top, bottom⟩
  · exact rereads_constant faithful
  · obtain rfl := value.unique bottom
    have positive : 0 < m := by
      have : (0 : ℚ) < m := by linarith
      exact_mod_cast this
    obtain ⟨d, rfl⟩ := Int.eq_ofNat_of_zero_le positive.le
    have bottom : IsRational y d := by exact_mod_cast bottom
    obtain ⟨nonzero, proper⟩ := proper_of_faithful faithful top bottom
    rcases Int.lt_or_gt_of_ne nonzero with negative | positive'
    · obtain ⟨i, rfl⟩ : ∃ i : Nat, k = -i := ⟨k.natAbs, by omega⟩
      exact rereads_negative faithful top bottom (by omega) (by omega) proper
    · obtain ⟨i, rfl⟩ := Int.eq_ofNat_of_zero_le positive'.le
      exact rereads_positive faithful (by exact_mod_cast top) bottom (by omega) (by omega) proper

end Faithful

end Tree

end Stepwise
