import Stepwise.Proofs.Tree.Grammatical

/-! What the text of a tree keeps of it. It does not tell where a token stood or whether it was inserted, it
leaves the coefficient `1 *` of an implicit product out, and a minus sign in front of a number reads the
same whether it is a sign or a part of the number. -/
namespace Stepwise

variable {ν : Type}

def Token.unplaced (token : Token) : Token := { token with position := none }

def Token.negative? (token : Token) : Option String :=
  match token.kind, token.text.toList with
  | .number, '-' :: digits => some (String.ofList digits)
  | _, _ => none

def Label.unplaced (a : Label ν) : Label ν :=
  { a with token := a.token.unplaced, call := a.call.map Token.unplaced }

namespace Tree

/-- Puts a keyword on a tree. On a call it sits on a bracket of its own. -/
def marked (call : Option Token) (x : Tree (Label ν)) : Tree (Label ν) :=
  match call with
  | none => x
  | some keyword =>
    if x.top.call.isSome then group { token := .inserted .opening "(", call := some keyword } x
    else x.mapTop fun a => { a with call := some keyword }

/-- The tree without places and hidden coefficients, and with the sign of a negative number on its own. -/
def core : Tree (Label ν) → Tree (Label ν)
  | leaf a =>
    match a.token.negative? with
    | some digits =>
      fork { a.unplaced with token := .inserted .minus "-", unary := true }
        (leaf { token := .inserted .number "0" })
        (leaf { token := .inserted .number digits })
    | none => leaf a.unplaced
  | group a inner => group a.unplaced inner.core
  | fork a left right =>
    if isUnit a left then right.core.marked (a.call.map Token.unplaced)
      else fork a.unplaced left.core right.core

theorem core_unit {a : Label ν} {left right : Tree (Label ν)} (unit : isUnit a left) :
    (fork a left right).core = right.core.marked (a.call.map Token.unplaced) := by
  rw [core, if_pos unit]

theorem core_fork {a : Label ν} {left right : Tree (Label ν)} (unit : ¬ isUnit a left) :
    (fork a left right).core = fork a.unplaced left.core right.core := by
  rw [core, if_neg unit]

theorem core_number {a : Label ν} (plain : a.token.negative? = none) : (leaf a).core = leaf a.unplaced := by
  rw [core, plain]

theorem core_negative {a : Label ν} {digits : String} (negative : a.token.negative? = some digits) :
    (leaf a).core =
      fork { a.unplaced with token := .inserted .minus "-", unary := true }
      (leaf { token := .inserted .number "0" })
        (leaf { token := .inserted .number digits }) := by
  rw [core, negative]

theorem call_marked {x : Tree (Label ν)} {keyword : Token} : (x.marked (some keyword)).top.call.isSome := by
  rw [marked]
  split
  · rfl
  · rw [top_mapTop]
    rfl

theorem call_core {x : Tree (Label ν)} (call : x.top.call.isSome) : x.core.top.call.isSome := by
  obtain ⟨keyword, marked⟩ := Option.isSome_iff_exists.mp call
  cases x with
  | leaf a =>
    have marked : a.call = some keyword := marked
    rw [core]
    split <;> simp [Label.unplaced, marked]
  | group a inner =>
    have marked : a.call = some keyword := marked
    simp [core, Label.unplaced, marked]
  | fork a left right =>
    have marked : a.call = some keyword := marked
    rw [core]
    split
    · rw [marked]
      exact call_marked
    · simp [Label.unplaced, marked]

/-- A keyword on a tree is a keyword on what its text keeps. -/
theorem core_applyCall (x : Tree (Label ν)) {keyword : Token} (mark : keyword.kind.IsMark) :
    (x.applyCall (some keyword)).core = x.core.marked (some keyword.unplaced) := by
  cases call : x.top.call with
  | some _ =>
    have outer : x.top.call.isSome := by simp [call]
    rw [applyCall_marked mark outer, marked, if_pos (call_core outer)]
    rfl
  | none =>
    rw [applyCall_unmarked mark call]
    cases x with
    | leaf a =>
      have call : a.call = none := call
      cases negative : a.token.negative? with
      | none => simp [mapTop, core, negative, marked, Label.unplaced, call]
      | some digits => simp [mapTop, core, negative, marked, Label.unplaced, call]
    | group a inner =>
      have call : a.call = none := call
      simp [mapTop, core, marked, Label.unplaced, call]
    | fork a left right =>
      have call : a.call = none := call
      by_cases unit : isUnit a left
      · have unit' : isUnit { a with call := some keyword } left := unit
        rw [mapTop, core_unit unit', core_unit unit, call]
        rfl
      · have unit' : ¬ isUnit { a with call := some keyword } left := unit
        rw [mapTop, core_fork unit', core_fork unit]
        simp [marked, mapTop, Label.unplaced, call]

def EveryFork (P : Label ν → Tree (Label ν) → Tree (Label ν) → Prop) : Tree (Label ν) → Prop
  | leaf _ => True
  | group _ inner => inner.EveryFork P
  | fork a left right => P a left right ∧ left.EveryFork P ∧ right.EveryFork P

instance decidableEveryFork {P : Label ν → Tree (Label ν) → Tree (Label ν) → Prop}
    [∀ a left right, Decidable (P a left right)] :
    DecidablePred (EveryFork P)
  | leaf _ => isTrue trivial
  | group _ inner => decidableEveryFork inner
  | fork _ left right =>
    @instDecidableAnd _ _ inferInstance
      (@instDecidableAnd _ _ (decidableEveryFork left) (decidableEveryFork right))

def BareFactorials (x : Tree (Label ν)) : Prop := ∀ a ∈ x.flatten, a.token.kind = .factorial → a.call = none

instance : DecidablePred (BareFactorials : Tree (Label ν) → Prop) :=
  fun x => inferInstanceAs (Decidable (∀ a ∈ x.flatten, a.token.kind = .factorial → a.call = none))

def Unchained : Tree (Label ν) → Prop :=
  EveryFork fun a _ right => a.token.kind = .equals → right.top.token.kind = .equals → right.top.call.isSome

instance : DecidablePred (Unchained : Tree (Label ν) → Prop) :=
  inferInstanceAs (DecidablePred (EveryFork fun a _ right =>
    a.token.kind = .equals → right.top.token.kind = .equals → right.top.call.isSome))

/-- The exponent of a letter is a number, or it binds too loosely to be written without brackets. -/
def IsExponent [Content ν] (x : Tree (Label ν)) : Prop :=
  (x.isLeaf ∧ x.top.token.kind = .number ∧ x.top.call = none) ∨
    x.rendered.precedence.rank < Precedence.power.rank

/-- Every letter has an exponent that the text keeps on it. -/
def KeepsExponents [Content ν] : Tree (Label ν) → Prop :=
  EveryFork fun a left right => a.token.kind = .power → left.top.token.kind = .letter → right.IsExponent

theorem EveryFork.of_mapTop {P : Label ν → Tree (Label ν) → Tree (Label ν) → Prop}
    {x : Tree (Label ν)} {f : Label ν → Label ν} (every : (x.mapTop f).EveryFork P)
    (same : ∀ a left right, P (f a) left right → P a left right) :
    x.EveryFork P := by
  cases x with
  | leaf a => trivial
  | group a inner => exact every
  | fork a left right => exact ⟨same a left right every.1, every.2⟩

/-- What holds of every operator does so below a keyword. -/
theorem EveryFork.of_applyCall {P : Label ν → Tree (Label ν) → Tree (Label ν) → Prop}
    {x : Tree (Label ν)} {keyword : Token} (mark : keyword.kind.IsMark)
    (every : (x.applyCall (some keyword)).EveryFork P)
    (same : ∀ a left right, P { a with call := some keyword } left right → P a left right) :
    x.EveryFork P := by
  cases call : x.top.call with
  | some _ =>
    rw [applyCall_marked mark (by simp [call])] at every
    exact every
  | none =>
    rw [applyCall_unmarked mark call] at every
    exact every.of_mapTop same

end Tree

end Stepwise
