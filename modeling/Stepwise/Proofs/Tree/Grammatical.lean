import Stepwise.Proofs.Tree.Grammar
import Stepwise.Proofs.Tree.Render

/-! The trees that texts denote. A tree is grammatical when it is put together from numbers, factorials,
powers of letters, signs, operators and keywords. Main statement: every text denotes a grammatical tree. -/
namespace Stepwise

variable {ν : Type}

def Token.Kind.IsMark (kind : Token.Kind) : Prop := kind = .trig ∨ kind = .log ∨ kind = .diff

theorem Token.Kind.IsMark.isCall {kind : Token.Kind} (mark : kind.IsMark) : kind.IsCall ∧ kind ≠ .sqrt := by
  rcases mark with rfl | rfl | rfl <;> decide

namespace Tree

inductive Grammatical : Tree (Label ν) → Prop
  | number {token : Token} (kind : token.kind = .number) (spelled : token.Spelled) :
      Grammatical (leaf { token })
  | negative {digits : String} (numeral : Token.IsNumeral digits.toList) (position : Option Nat) :
    Grammatical (leaf { token := ⟨.number, "-" ++ digits, position⟩ })
  | factorial {token : Token} (kind : token.kind = .factorial) (spelled : token.Spelled)
    (large : Expression.Builder.smallWhole? token.text = none) : Grammatical (leaf { token })
  | power {letter caret : Token} {right : Tree (Label ν)} (isLetter : letter.kind = .letter)
      (named : letter.Spelled)
    (isCaret : caret.kind = .power) (spelled : caret.Spelled) (exponent : right.Grammatical) :
    Grammatical (fork { token := caret } (leaf { token := letter }) right)
  | sign {token : Token} {right : Tree (Label ν)} (kind : token.kind = .plus ∨ token.kind = .minus)
    (spelled : token.Spelled) (operand : right.Grammatical) :
    Grammatical (fork { token, unary := true } (leaf { token := .inserted .number "0" }) right)
  | operator {token : Token} {left right : Tree (Label ν)} (rank : token.kind.rank?.isSome)
      (spelled : token.Spelled)
    (first : left.Grammatical) (second : right.Grammatical) (factor : token.IsProduct → right.IsFactor) :
    Grammatical (fork { token } left right)
  | call {keyword : Token} {x : Tree (Label ν)} (mark : keyword.kind.IsMark) (spelled : keyword.Spelled)
    (argument : x.Grammatical) : Grammatical (x.applyCall (some keyword))

theorem spelled_number (n : Nat) : (Token.inserted .number (toString n)).Spelled := by
  refine .whole ?_ ?_
  · simp only [Token.inserted, Nat.toString_eq_repr, Nat.toList_repr]
    exact Nat.toDigits_ne_nil
  · intro c member
    simp only [Token.inserted, Nat.toString_eq_repr, Nat.toList_repr] at member
    exact Nat.isDigit_of_mem_toDigits (by omega) (by omega) member

theorem grammatical_factorialFrom {chain : Tree (Label ν)} (grammatical : chain.Grammatical)
    (factor : chain.IsFactor) (k count : Nat) : (factorialFrom chain k count).Grammatical := by
  induction count generalizing chain k with
  | zero => exact grammatical
  | succ count ih =>
    have product : (Token.inserted .times "*").Spelled := rfl
    refine ih (.operator rfl product (.number rfl (spelled_number k)) grammatical fun _ => factor) ?_ (k + 1)
    rintro (equation | factorial)
    · cases equation
    · cases factorial

theorem grammatical_builds : Builds (ν := ν) Token.Spelled Grammatical where
  operand token spelled kind := by
    rcases kind with number | polynomial
    · exact .number number spelled
    · simp [Token.Spelled, polynomial] at spelled
  negative number position spelled kind := .negative (by simpa [Token.Spelled, kind] using spelled) position
  factorial token spelled kind := by
    unfold ofFactorial
    split
    · refine grammatical_factorialFrom (.number rfl (spelled_number 1)) ?_ _ _
      rintro (equation | factorial)
      · cases equation
      · cases factorial
    · next large => exact .factorial kind spelled large
  power _ _ _ named isLetter spelled isCaret exponent := .power isLetter named isCaret spelled exponent
  operator _ _ _ spelled rank first second factor := .operator rank spelled first second factor
  sign _ _ spelled kind operand := .sign kind spelled operand
  call keyword x spelled call argument := by
    by_cases root : keyword.kind = .sqrt
    · have half : (fork ({ token := .inserted .divide "/" } : Label ν)
          (leaf { token := .inserted .number "1" })
          (leaf { token := .inserted .number "2" })).Grammatical := by
        refine .operator rfl rfl (.number rfl (spelled_number 1)) (.number rfl (spelled_number 2)) ?_
        rintro ⟨times, _⟩
        cases times
      simp only [applyCall, root, if_true]
      refine .operator rfl rfl argument half ?_
      rintro ⟨times, _⟩
      cases times
    · refine .call ?_ spelled argument
      rcases call with h | h | h | h
      · exact .inl h
      · exact .inr (.inl h)
      · exact absurd h root
      · exact .inr (.inr h)

/-- A text denotes a grammatical tree. -/
theorem ofText_grammatical {text : String} {x : Tree (Label ν)}
    (parsed : Tree.ofText text = .ok x) : x.Grammatical :=
  ofText_keeps grammatical_builds (fun _ read => (Token.ofText_spelled read).2) parsed

theorem applyCall_marked {x : Tree (Label ν)} {keyword : Token} (mark : keyword.kind.IsMark)
    (marked : x.top.call.isSome) :
    x.applyCall (some keyword) = group { token := .inserted .opening "(", call := some keyword } x := by
  rw [applyCall, if_neg mark.isCall.2, if_pos marked]

theorem applyCall_unmarked {x : Tree (Label ν)} {keyword : Token} (mark : keyword.kind.IsMark)
    (unmarked : x.top.call = none) :
    x.applyCall (some keyword) = x.mapTop fun a => { a with call := some keyword } := by
  rw [applyCall, if_neg mark.isCall.2, if_neg (by simp [unmarked])]

/-- No tree that a text denotes has values. -/
theorem Grammatical.value {x : Tree (Label ν)} (grammatical : x.Grammatical) : x.top.value = none := by
  induction grammatical with
  | @call keyword x mark _ _ ih =>
    cases call : x.top.call with
    | none => rw [applyCall_unmarked mark call, top_mapTop, ih]
    | some _ => rw [applyCall_marked mark (by simp [call])]; rfl
  | _ => rfl

/-- A call is written around its argument, but a factorial loses its mark there. -/
theorem rendered_applyCall [Content ν] {x : Tree (Label ν)} {keyword : Token} (mark : keyword.kind.IsMark)
    (value : x.top.value = none) (whole : x.top.call = none → x.top.token.kind ≠ .factorial) :
    (x.applyCall (some keyword)).rendered = ⟨keyword.text ++ "(" ++ x.rendered.text ++ ")", .atom⟩ := by
  have plain (a : Label ν) (value : a.value = none) (isLeaf : Bool) (argument : String) :
      callRendered a keyword isLeaf argument = ⟨keyword.text ++ "(" ++ argument ++ ")", .atom⟩ := by
    unfold callRendered
    rw [value]
    cases keyword.kind <;> rfl
  cases call : x.top.call with
  | some _ =>
    rw [applyCall_marked mark (by simp [call])]
    simp [rendered, innerRendered, plain, operatorRendered, isUnit, Token.inserted]
  | none =>
    rw [applyCall_unmarked mark call]
    cases x with
    | leaf a =>
      have kind := whole call
      simp only [top_leaf] at call value kind
      have text : (Expression.renderToken a.token).text = a.token.text := by
        unfold Expression.renderToken
        split
        · contradiction
        · rfl
        · rfl
      simp [mapTop, rendered, leafRendered, call, value, plain, text]
    | group a inner =>
      simp only [top_group] at call value
      simp [mapTop, rendered, innerRendered, call, value, plain, operatorRendered, isUnit]
    | fork a left right =>
      simp only [top_fork] at call value
      simp [mapTop, rendered, innerRendered, call, value, plain, operatorRendered, isUnit]

end Tree

end Stepwise
