import Stepwise.Expression.OfText
import Stepwise.Proofs.Tree.Basic

/-! Building a tree from tokens. A level is a list of operators that wait for their right operand,
the innermost first, over the operand placed last; an operator climbs by closing the innermost ones
over that operand. This is what the building of an expression amounts to when the array is left out. -/
namespace Stepwise

open Expression.Builder (fail climbsOver isLoneNumber)

/-- An operator that waits for its right operand, and its left operand. -/
abbrev Waiting (α : Type) := α × Tree α

namespace Waiting

variable {α β : Type}

def close : List (Waiting α) → Tree α → Tree α
  | [], t => t
  | (a, left) :: outer, t => close outer (.fork a left t)

def closeWhile (closes : α → Bool) : List (Waiting α) → Tree α → List (Waiting α) × Tree α
  | [], t => ([], t)
  | (a, left) :: outer, t =>
    if closes a then closeWhile closes outer (.fork a left t) else ((a, left) :: outer, t)

def map (f : α → β) (w : Waiting α) : Waiting β := (f w.1, w.2.map f)

theorem map_close (f : α → β) (waiting : List (Waiting α)) (t : Tree α) :
    (close waiting t).map f = close (waiting.map (map f)) (t.map f) := by
  induction waiting generalizing t with
  | nil => rfl
  | cons w outer ih => exact ih (.fork w.1 w.2 t)

theorem closeWhile_true (waiting : List (Waiting α)) (t : Tree α) :
    closeWhile (fun _ => true) waiting t = ([], close waiting t) := by
  induction waiting generalizing t with
  | nil => rfl
  | cons w outer ih => exact ih (.fork w.1 w.2 t)

theorem map_closeWhile (f : α → β) (closes : β → Bool) (waiting : List (Waiting α)) (t : Tree α) :
    closeWhile closes (waiting.map (map f)) (t.map f) =
      ((closeWhile (closes ∘ f) waiting t).1.map (map f), (closeWhile (closes ∘ f) waiting t).2.map f) := by
  induction waiting generalizing t with
  | nil => rfl
  | cons w outer ih =>
    obtain ⟨a, left⟩ := w
    by_cases h : closes (f a)
    · simp only [List.map_cons, map, closeWhile, Function.comp_apply, h, if_true]
      exact ih (.fork a left t)
    · simp [closeWhile, map, h]

end Waiting

/-- One bracket level while it is being filled. -/
structure Spine (α : Type) where
  waiting : List (Waiting α) := []
  /-- The operand placed last, unless one has to come next. -/
  last : Option (Tree α) := none
  /-- The keyword whose argument comes next. -/
  call : Option Token := none

namespace Spine

variable {α β : Type}

def map (f : α → β) (s : Spine α) : Spine β :=
  ⟨s.waiting.map (Waiting.map f), s.last.map (Tree.map f), s.call⟩

def tree? (s : Spine α) : Option (Tree α) := s.last.map (Waiting.close s.waiting)

end Spine

namespace Tree

variable {ν : Type}

def applyCall (call : Option Token) (x : Tree (Label ν)) : Tree (Label ν) :=
  match call with
  | none => x
  | some keyword =>
    if keyword.kind = .sqrt then
      fork { token := .inserted .power "^" } x
        (fork { token := .inserted .divide "/" } (leaf { token := .inserted .number "1" })
          (leaf { token := .inserted .number "2" }))
    else if x.top.call.isSome then group { token := .inserted .opening "(", call := some keyword } x
    else x.mapTop fun a => { a with call := some keyword }

/-- `k * (… * chain)` with `count` factors. -/
def factorialFrom (chain : Tree (Label ν)) (k : Nat) : Nat → Tree (Label ν)
  | 0 => chain
  | count + 1 =>
    factorialFrom (fork { token := .inserted .times "*" }
      (leaf { token := .inserted .number (toString k) }) chain)
      (k + 1) count

def ofFactorial (token : Token) : Tree (Label ν) :=
  match Expression.Builder.smallWhole? token.text with
  | some n => factorialFrom (leaf { token := .inserted .number "1" }) 2 (n - 1)
  | none => leaf { token }

end Tree

/-- A tree in the making: the level being filled and those around it. -/
structure Draft (α : Type) where
  level : Spine α := {}
  outer : List (Spine α) := []

namespace Draft

variable {α β ν : Type}

abbrev Outcome (ν : Type) := Except GrammarError (Draft (Label ν))

def map (f : α → β) (d : Draft α) : Draft β := ⟨d.level.map f, d.outer.map (Spine.map f)⟩

def awaiting (d : Draft α) : Bool := d.level.last.isNone

def attach (d : Draft α) (x : Tree α) : Draft α :=
  { d with level := { waiting := d.level.waiting, last := some x } }

def placeSign (d : Draft (Label ν)) (token : Token) : Draft (Label ν) :=
  let sign : Waiting (Label ν) := ({ token, unary := true }, .leaf { token := .inserted .number "0" })
  { d with level := { waiting := sign :: d.level.waiting } }

/-- An operator takes what stands right of `above` with it. -/
def yields (token : Token) (above : Label ν) : Bool :=
  token.kind == .equals || (!token.isInserted && climbsOver token.kind above.token.kind)

def placeOperator (d : Draft (Label ν)) (token : Token) : Draft (Label ν) :=
  match d.level.last with
  | none => d
  | some x =>
    let (waiting, left) := Waiting.closeWhile (yields token) d.level.waiting x
    { d with level := { waiting := ({ token }, left) :: waiting } }

def openBracket (d : Draft (Label ν)) (token : Token) : Outcome ν :=
  if !d.awaiting then fail (.operatorExpectedBefore token.text) token
  else if d.outer.length + 1 > Expression.maxNesting then .error (.nestingTooDeep Expression.maxNesting)
  else .ok ⟨{}, d.level :: d.outer⟩

/-- `next` is the token behind the bracket. -/
def closeBracket (d : Draft (Label ν)) (token : Token) (next : Option Token) : Outcome ν :=
  match d.outer with
  | [] => fail .closingBracket token
  | level :: outer =>
    match d.level.tree? with
    | none => .error (.invalidExpression .operandExpected (next.bind Token.position))
    | some x => .ok (attach ⟨level, outer⟩ (x.applyCall level.call))

def openCall (d : Draft (Label ν)) (token : Token) (next : Option Token) : Outcome ν :=
  if !d.awaiting then fail (.operatorExpectedBefore token.text) token
  else if next.any (·.kind == .opening) then .ok { d with level := { d.level with call := some token } }
  else fail (.bracketExpectedAfter token.text) token

def operand (d : Draft (Label ν)) (token : Token) : Outcome ν :=
  if !d.awaiting then
    fail (.operatorExpectedBefore (if token.kind = .factorial then token.text ++ "!" else token.text)) token
  else if token.kind = .factorial then .ok (d.attach (.ofFactorial token))
  else .ok (d.attach (.leaf { token }))

def operator (d : Draft (Label ν)) (token : Token) (rest : List Token) :
    Except GrammarError (Draft (Label ν) × Nat) :=
  if !d.awaiting then .ok (d.placeOperator token, 0)
  else if token.kind = .minus ∧ isLoneNumber rest then
    let digits := (rest.head?.map Token.text).getD ""
    .ok (d.attach (.leaf { token := ⟨.number, "-" ++ digits, token.position⟩ }), 1)
  else if token.kind = .plus ∨ token.kind = .minus then .ok (d.placeSign token, 0)
  else fail (.operandExpectedBefore token.text) token

def place (d : Draft (Label ν)) (token : Token) (rest : List Token) :
    Except GrammarError (Draft (Label ν) × Nat) :=
  match token.kind with
  | .opening => (d.openBracket token).map (·, 0)
  | .closing => (d.closeBracket token rest.head?).map (·, 0)
  | .trig | .log | .sqrt | .diff => (d.openCall token rest.head?).map (·, 0)
  | .number | .letter | .polynomial | .factorial => (d.operand token).map (·, 0)
  | .equals | .plus | .minus | .times | .divide | .power => d.operator token rest
  | .finish => .ok (d, 0)

def complete (d : Draft (Label ν)) (position : Option Nat) : Except GrammarError (Tree (Label ν)) :=
  if d.outer ≠ [] then .error .unclosedBracket
  else match d.level.tree? with
    | some x => .ok x
    | none => .error (.invalidExpression .operandExpected position)

def build (d : Draft (Label ν)) (tokens : List Token) : Except GrammarError (Tree (Label ν)) :=
  match tokens with
  | [] => d.complete none
  | token :: rest =>
    if token.kind = .finish then d.complete token.position
    else match d.place token rest with
      | .ok (d, taken) => d.build (rest.drop taken)
      | .error error => .error error
termination_by tokens.length
decreasing_by simp only [List.length_drop, List.length_cons]; omega

end Draft

def Tree.ofTokens {ν : Type} (tokens : List Token) : Except GrammarError (Tree (Label ν)) :=
  ({} : Draft (Label ν)).build tokens

def Tree.ofText {ν : Type} (text : String) : Except GrammarError (Tree (Label ν)) :=
  match Token.ofText text with
  | .ok tokens => Tree.ofTokens tokens
  | .error error => .error (.lexical error)

end Stepwise
