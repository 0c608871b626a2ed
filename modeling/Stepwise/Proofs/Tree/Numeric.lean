import Stepwise.Proofs.Phrase.RoundTrip
import Stepwise.Proofs.Token.Grouping
import Stepwise.Quantity.Arithmetic

/-! Arithmetic on decimal numbers. A text of digits, points, the five operators and round brackets
denotes a tree of numbers and operators. Main statement: the text of such a tree is made of the same
characters, so what it denotes is such a tree again. -/
namespace Stepwise

namespace Text

def IsNumeric (c : Char) : Prop := c.isDigit ∨ c ∈ ['.', '+', '-', '*', '/', '^', '(', ')'] ∨ isBlank c

theorem not_numeric_of_small {c : Char} (low : 'a' ≤ c) (high : c ≤ 'z') : ¬ IsNumeric c := by
  have low : 97 ≤ c.toNat := low
  have high : c.toNat ≤ 122 := high
  rintro (digit | operator | blank)
  · simp [Char.isDigit, UInt32.le_iff_toNat_le] at digit
    have : c.toNat ≤ 57 := digit.2
    omega
  · simp only [List.mem_cons, List.not_mem_nil, or_false] at operator
    rcases operator with rfl | rfl | rfl | rfl | rfl | rfl | rfl | rfl <;> simp at low
  · simp [isBlank] at blank
    omega

end Text

open Text (IsNumeric)

namespace Token

structure IsNumeric (token : Token) : Prop where
  spelled : token.Spelled
  written : token.isInserted = false
  kind : token.kind = .number ∨ (Operation.ofKind? token.kind).isSome ∨ token.kind = .opening ∨
    token.kind = .closing ∨
    token.kind = .finish

theorem From.isNumeric {source : List Char} {token : Token} (origin : token.From source)
    (characters : ∀ c ∈ source, Text.IsNumeric c) : token.IsNumeric := by
  obtain ⟨spelled, part, mark, written⟩ := origin
  have inside (c : Char) (member : c ∈ token.text.toList) : Text.IsNumeric c := characters c (part c member)
  have small {c : Char} {text : String} (here : c ∈ text.toList) (low : 'a' ≤ c) (high : c ≤ 'z') :
      token.text ≠ text :=
    fun same => Text.not_numeric_of_small low high (inside c (same ▸ here))
  have foreign {c : Char} (other : c = '!' ∨ c = '=') : ¬ Text.IsNumeric c := by
    rcases other with rfl | rfl <;> simp [Text.IsNumeric, Text.isBlank]
  refine ⟨spelled, written, ?_⟩
  unfold Spelled at spelled
  cases kind : token.kind <;> simp only [kind] at spelled <;>
    simp only [Operation.ofKind?, reduceCtorEq, Option.isSome_some, Option.isSome_none,
    Bool.false_eq_true, or_true, or_false, or_self]
  case factorial => exact foreign (.inl rfl) (characters '!' (mark kind))
  case letter =>
    obtain ⟨c, low, high, single⟩ := spelled
    exact Text.not_numeric_of_small low high (inside c (single ▸ List.mem_cons_self ..))
  case trig =>
    rcases spelled with h | h | h
    · exact small (c := 'i') (by decide) (by decide) (by decide) h
    · exact small (c := 'o') (by decide) (by decide) (by decide) h
    · exact small (c := 'a') (by decide) (by decide) (by decide) h
  case log => exact small (c := 'o') (by decide) (by decide) (by decide) spelled
  case sqrt => exact small (c := 'q') (by decide) (by decide) (by decide) spelled
  case diff => exact small (c := 'i') (by decide) (by decide) (by decide) spelled
  case equals => exact foreign (.inr rfl) (inside '=' (by rw [spelled]; decide))

theorem IsNumeric.isPlain {token : Token} (numeric : token.IsNumeric) : token.IsPlain := by
  rcases numeric.kind with kind | kind | kind | kind | kind
  · simp [IsPlain, Kind.IsCall, kind]
  · cases here : token.kind <;> simp [here, Operation.ofKind?] at kind <;> simp [IsPlain, Kind.IsCall, here]
  · simp [IsPlain, Kind.IsCall, kind]
  · simp [IsPlain, Kind.IsCall, kind]
  · simp [IsPlain, Kind.IsCall, kind]

/-- The tokens of a numeric text take part in no implicit product. -/
theorem ofText_isNumeric {text : String} (characters : ∀ c ∈ text.toList, Text.IsNumeric c)
    {tokens : List Token} (read : Token.ofText text = .ok tokens) :
    ∀ token ∈ tokens, token.IsNumeric :=
  ofText_plain (fun _ origin => origin.isNumeric characters) (fun _ numeric => numeric.isPlain) read

end Token

namespace Tree

variable {ν : Type} {x : Tree (Label ν)}

inductive Numeric : Tree (Label ν) → Prop
  | number {token : Token} (kind : token.kind = .number)
      (numeral : Token.IsNumeral token.text.toList) : Numeric (leaf { token })
  | negative {digits : String} (numeral : Token.IsNumeral digits.toList) (position : Option Nat) :
    Numeric (leaf { token := ⟨.number, "-" ++ digits, position⟩ })
  | sign {token : Token} {right : Tree (Label ν)} (kind : token.kind = .plus ∨ token.kind = .minus)
      (spelled : token.Spelled)
    (written : token.isInserted = false) (operand : Numeric right) :
    Numeric (fork { token, unary := true } (leaf { token := .inserted .number "0" }) right)
  | operator {token : Token} {left right : Tree (Label ν)} {operation : Operation}
    (kind : Operation.ofKind? token.kind = some operation) (spelled : token.Spelled)
    (written : token.isInserted = false)
    (first : Numeric left) (second : Numeric right) : Numeric (fork { token } left right)

theorem numeric_builds : Builds (ν := ν) Token.IsNumeric Numeric where
  operand token numeric kind := by
    have spelled := numeric.spelled
    unfold Token.Spelled at spelled
    rcases kind with kind | kind <;> simp only [kind] at spelled
    exact .number kind spelled
  negative number position numeric kind := by
    have spelled := numeric.spelled
    unfold Token.Spelled at spelled
    simp only [kind] at spelled
    exact .negative spelled position
  factorial token numeric kind := by
    have other := numeric.kind
    simp [kind, Operation.ofKind?] at other
  power letter _ _ numeric kind _ _ _ := by
    have other := numeric.kind
    simp [kind, Operation.ofKind?] at other
  operator token left right numeric rank first second _ := by
    obtain ⟨operation, known⟩ : ∃ operation, Operation.ofKind? token.kind = some operation := by
      rcases numeric.kind with kind | kind | kind | kind | kind
      · simp [kind, Token.Kind.rank?] at rank
      · exact Option.isSome_iff_exists.mp kind
      all_goals simp [kind, Token.Kind.rank?] at rank
    exact .operator known numeric.spelled numeric.written first second
  sign token right numeric kind operand := .sign kind numeric.spelled numeric.written operand
  call keyword x numeric call _ := absurd call numeric.isPlain.2

/-- A numeric text denotes a numeric tree. -/
theorem ofText_numeric {text : String} (characters : ∀ c ∈ text.toList, IsNumeric c)
    (parsed : Tree.ofText text = .ok x) :
    x.Numeric :=
  ofText_keeps numeric_builds (fun _ read => Token.ofText_isNumeric characters read) parsed

theorem rank_of_operation {token : Token} {operation : Operation}
    (known : Operation.ofKind? token.kind = some operation) :
    token.kind.rank?.isSome ∧ token.kind ≠ .equals := by
  cases kind : token.kind <;> simp [kind, Operation.ofKind?] at known <;> simp [Token.Kind.rank?]

theorem operation_of_sign {token : Token} (kind : token.kind = .plus ∨ token.kind = .minus) :
    ∃ operation, Operation.ofKind? token.kind = some operation := by
  rcases kind with kind | kind <;> exact ⟨_, by rw [kind]; rfl⟩

/-- A written operator hides nothing. -/
theorem not_unit {a : Label ν} (written : a.token.isInserted = false) (left : Tree (Label ν)) :
    ¬ isUnit a left := by
  simp [isUnit, written]

namespace Numeric

theorem grammatical (numeric : x.Numeric) : x.Grammatical := by
  induction numeric with
  | number kind numeral =>
    refine .number kind ?_
    simp only [Token.Spelled, kind]
    exact numeral
  | negative numeral position => exact .negative numeral position
  | sign kind spelled written operand ih => exact .sign kind spelled ih
  | operator kind spelled written first second ihl ihr =>
    refine .operator (rank_of_operation kind).1 spelled ihl ihr fun product => ?_
    rw [product.2] at written
    cases written

/-- Every node is a number or an operator. -/
theorem kinds (numeric : x.Numeric) :
    ∀ a ∈ x.flatten, a.token.kind = .number ∨ (Operation.ofKind? a.token.kind).isSome := by
  induction numeric with
  | number kind numeral => simp [flatten, kind]
  | negative numeral position => simp [flatten]
  | sign kind spelled written operand ih =>
    obtain ⟨operation, known⟩ := operation_of_sign kind
    intro a member
    rcases List.mem_cons.mp member with rfl | member
    · exact .inr (by simp [known])
    · rcases List.mem_append.mp member with zero | member
      · exact .inl (by rw [List.mem_singleton.mp zero]; rfl)
      · exact ih a member
  | operator kind spelled written first second ihl ihr =>
    intro a member
    rcases List.mem_cons.mp member with rfl | member
    · exact .inr (by simp [kind])
    · rcases List.mem_append.mp member with member | member
      · exact ihl a member
      · exact ihr a member

theorem bareFactorials (numeric : x.Numeric) : x.BareFactorials := fun a member factorial => by
  have kinds := numeric.kinds a member
  simp [factorial, Operation.ofKind?] at kinds

theorem unchained (numeric : x.Numeric) : x.Unchained := by
  induction numeric with
  | number | negative => trivial
  | sign kind spelled written operand ih =>
    obtain ⟨operation, known⟩ := operation_of_sign kind
    exact ⟨fun equation => absurd equation (rank_of_operation known).2, trivial, ih⟩
  | operator kind spelled written first second ihl ihr =>
    exact ⟨fun equation => absurd equation (rank_of_operation kind).2, ihl, ihr⟩

variable [Content ν]

theorem keepsExponents (numeric : x.Numeric) : x.KeepsExponents := by
  have other {x : Tree (Label ν)} (numeric : x.Numeric) : x.top.token.kind ≠ .letter := fun letter => by
    have kinds := numeric.kinds _ x.top_mem
    simp [letter, Operation.ofKind?] at kinds
  induction numeric with
  | number | negative => trivial
  | sign kind spelled written operand ih => exact ⟨fun _ letter => (by cases letter), trivial, ih⟩
  | operator kind spelled written first second ihl ihr =>
    exact ⟨fun _ letter => absurd letter (other first), ihl, ihr⟩

/-- The text denotes a tree with the same text and the same core. -/
theorem ofText_text (numeric : x.Numeric) (shallow : Token.Shallow x.text) :
    ∃ y : Tree (Label ν), Tree.ofText x.text = .ok y ∧ y.text = x.text ∧ y.core = x.core :=
  numeric.grammatical.ofText_text numeric.bareFactorials numeric.unchained numeric.keepsExponents shallow

/-- The text is made of numeric characters. -/
theorem characters (numeric : x.Numeric) : ∀ c ∈ x.text.toList, IsNumeric c := by
  have digits {text : List Char} (numeral : Token.IsNumeral text) : ∀ c ∈ text, IsNumeric c := by
    intro c member
    cases numeral with
    | whole nonempty all => exact .inl (all c member)
    | point all nonempty allBehind =>
      rcases List.mem_append.mp member with here | here
      · exact .inl (all c here)
      · rcases List.mem_cons.mp here with rfl | here
        · exact .inr (.inl (by decide))
        · exact .inl (allBehind c here)
  have symbol {token : Token} {operation : Operation}
      (kind : Operation.ofKind? token.kind = some operation) (spelled : token.Spelled) :
      ∀ c ∈ token.text.toList, IsNumeric c := by
    intro c member
    rw [Token.spelled_symbol spelled (rank_of_operation kind).1] at member
    cases here : token.kind <;> simp [here, Operation.ofKind?] at kind <;>
      simp only [here, Token.Kind.symbol, Char.toString_eq_singleton, String.toList_singleton,
        List.mem_singleton] at member <;>
      exact member ▸ .inr (.inl (by decide))
  have within {r : Rendered} (inside : ∀ c ∈ r.text.toList, IsNumeric c) (required : Precedence) :
      ∀ c ∈ (r.within required).toList, IsNumeric c := by
    intro c member
    unfold Rendered.within at member
    split at member
    · simp only [String.toList_append, List.mem_append] at member
      rcases member with (opening | member) | closing
      · exact .inr (.inl (by revert opening; simp +contextual))
      · exact inside c member
      · exact .inr (.inl (by revert closing; simp +contextual))
    · exact inside c member
  induction numeric with
  | @number token kind numeral =>
    have text : (leaf { token } : Tree (Label ν)).text = token.text := by
      rw [Tree.text, rendered_leaf, Expression.renderToken, kind]
    rw [text]
    exact digits numeral
  | @negative number numeral position =>
    have text : (leaf { token := ⟨.number, "-" ++ number, position⟩ } : Tree (Label ν)).text =
      "-" ++ number := rfl
    intro c member
    rw [text, String.toList_append, List.mem_append] at member
    rcases member with minus | member
    · exact .inr (.inl (by revert minus; simp +contextual))
    · exact digits numeral c member
  | sign kind spelled written operand ih =>
    obtain ⟨operation, known⟩ := operation_of_sign kind
    intro c member
    rw [Tree.text, rendered_sign rfl rfl, String.toList_append, List.mem_append] at member
    exact member.elim (symbol known spelled c) (within ih _ c)
  | @operator token left right operation kind spelled written first second ihl ihr =>
    obtain ⟨rank, other⟩ := rank_of_operation kind
    obtain ⟨_, _, _, -, -, -, writtenInfix⟩ := infixed_eq rank other
    intro c member
    rw [Tree.text, rendered_fork rfl rfl (not_unit written left) rank other, writtenInfix _ _ _ rfl] at member
    simp only [String.toList_append, List.mem_append] at member
    rcases member with (member | member) | member
    · exact within ihl _ c member
    · exact symbol kind spelled c member
    · exact within ihr _ c member

/-- What the text denotes is a numeric tree with the same text and the same core. -/
theorem again (numeric : x.Numeric) (shallow : Token.Shallow x.text) :
    ∃ y : Tree (Label ν), Tree.ofText x.text = .ok y ∧ y.Numeric ∧ y.text = x.text ∧ y.core = x.core := by
  obtain ⟨y, read, text, core⟩ := numeric.ofText_text shallow
  exact ⟨y, read, ofText_numeric numeric.characters read, text, core⟩

end Numeric

end Tree

end Stepwise
