import Stepwise.Decimal.Read
import Stepwise.Expression.Basic
import Stepwise.Number.Factorial
import Stepwise.Token.ImplicitProduct

/-! Building an expression from the tokens of a text. Tokens are placed one at a time. An operator
climbs from the operand placed last while it binds looser than the operator above, or as loosely
for the tiers that group left, and takes what it finds there as its left operand. Operators of an
implicit product do not climb, and `=` always takes all that stands before it in its group. Each
written or inserted bracket opens a level of its own, so nothing climbs out of a group. -/
namespace Stepwise.Expression

variable {ν : Type}

/-- Brackets may be nested this deep, those of implicit products included. -/
def maxNesting : Nat := 64

/-- One bracket level while it is being filled. -/
structure Level where
  /-- The root of what stands there so far, and the node placed last. -/
  spine : Option (NodeId × NodeId) := none
  /-- An operand has to come next. -/
  awaiting : Bool := true
  /-- The keyword whose argument comes next. -/
  call : Option Token := none

/-- The root of a level that is complete. -/
def Level.root? (level : Level) : Option NodeId :=
  if level.awaiting then none else level.spine.map Prod.fst

/-- An expression in the making: its nodes, the level being filled and those around it. -/
structure Builder (ν : Type) where
  nodes : Expression ν := ⟨#[], 0⟩
  level : Level := {}
  outer : List Level := []

namespace Builder

abbrev Outcome (ν : Type) := Except GrammarError (Builder ν)

def fail {α : Type} (fault : Misplacement) (token : Token) : Except GrammarError α :=
  .error (.invalidExpression fault token.position)

/-- Puts a subtree where the next operand belongs. -/
def attach (b : Builder ν) (id : NodeId) (awaiting : Bool) : Builder ν :=
  match b with
  | ⟨nodes, level, outer⟩ =>
    match level.spine with
    | some (root, last) =>
      let nodes := nodes.modify last fun node => { node with right := some id }
      ⟨nodes.setParent id last, { spine := some (root, id), awaiting }, outer⟩
    | none => ⟨nodes, { spine := some (id, id), awaiting }, outer⟩

def placeLeaf (b : Builder ν) (token : Token) : Builder ν :=
  match b with
  | ⟨nodes, level, outer⟩ =>
    let id := nodes.size
    attach ⟨nodes.push { token }, level, outer⟩ id false

/-- A sign without a left operand gets an inserted zero there. -/
def placeSign (b : Builder ν) (token : Token) : Builder ν :=
  match b with
  | ⟨nodes, level, outer⟩ =>
    let id := nodes.size + 1
    let nodes := nodes.push { token := .inserted .number "0", parent := some id }
    attach ⟨nodes.push { token, left := some (id - 1), unary := true }, level, outer⟩ id true

/-- An operator of rank `incoming` moves above one of rank `above`. -/
def climbsOver (incoming above : Token.Kind) : Bool :=
  match incoming.rank?, above.rank? with
  | some i, some a => above != .equals && (i < a || (i == a && incoming != .power))
  | _, _ => false

/-- Where an operator of the given kind ends when it climbs from `start`. No path up is longer than
the number of nodes. -/
def climb (nodes : Expression ν) (kind : Token.Kind) : Nat → NodeId → NodeId
  | 0, start => start
  | fuel + 1, start =>
    match (nodes.node start).parent with
    | some parent =>
      if climbsOver kind (nodes.node parent).token.kind then climb nodes kind fuel parent else start
    | none => start

/-- The subtree that becomes the left operand of an operator. -/
def anchor (nodes : Expression ν) (token : Token) (root last : NodeId) : NodeId :=
  if token.kind = .equals then root
  else if token.isInserted then last
  else climb nodes token.kind nodes.size last

def placeOperator (b : Builder ν) (token : Token) : Builder ν :=
  match b with
  | ⟨nodes, level, outer⟩ =>
    match level.spine with
    | none => ⟨nodes, level, outer⟩
    | some (root, last) =>
      let left := anchor nodes token root last
      let parent := (nodes.node left).parent
      let id := nodes.size
      let nodes := (nodes.push { token, left := some left, parent }).setParent left id
      match parent with
      | some above =>
        let nodes := nodes.modify above fun node => { node with right := some id }
        ⟨nodes, { spine := some (root, id) }, outer⟩
      | none => ⟨nodes, { spine := some (id, id) }, outer⟩

/-- `k * ((k-1) * (… * 1))` from the product below `k` on, which is at `chain`. -/
def expandFactorial (nodes : Expression ν) (chain : NodeId) (k : Nat) : Nat → Expression ν × NodeId
  | 0 => (nodes, chain)
  | count + 1 =>
    let factor := nodes.size
    let nodes := nodes.push { token := .inserted .number (toString k) }
    expandFactorial (nodes.pushBinary (.inserted .times "*") factor chain) (factor + 1) (k + 1) count

/-- A whole number that a product is formed for. -/
def smallWhole? (text : String) : Option Nat :=
  ((Decimal.read? text).bind Decimal.toWhole?).bind fun n =>
    if 0 ≤ n ∧ n ≤ factorialLimit then some n.toNat else none

/-- The factorial of a small whole number is placed as a product, any other as a leaf. -/
def placeFactorial (b : Builder ν) (token : Token) : Builder ν :=
  match smallWhole? token.text, b with
  | some n, ⟨nodes, level, outer⟩ =>
    let one := nodes.size
    let nodes := nodes.push { token := .inserted .number "1" }
    let (nodes, product) := expandFactorial nodes one 2 (n - 1)
    attach ⟨nodes, level, outer⟩ product false
  | none, b => b.placeLeaf token

/-- Applies a keyword to a complete group. A square root becomes the power `1/2`; around a group
that is a call itself the keyword sits on a node of its own. -/
def applyCall (nodes : Expression ν) (call : Option Token) (group : NodeId) : Expression ν × NodeId :=
  match call with
  | none => (nodes, group)
  | some keyword =>
    if keyword.kind = .sqrt then
      let one := nodes.size
      let nodes := nodes.push { token := .inserted .number "1" }
      let nodes := nodes.push { token := .inserted .number "2" }
      let nodes := nodes.pushBinary (.inserted .divide "/") one (one + 1)
      (nodes.pushBinary (.inserted .power "^") group (one + 2), one + 3)
    else if (nodes.node group).call.isSome then
      let outer := nodes.size
      let nodes := nodes.push
        { token := .inserted .opening "(", left := some group, call := some keyword }
      (nodes.setParent group outer, outer)
    else (nodes.modify group fun node => { node with call := some keyword }, group)

def openBracket (b : Builder ν) (token : Token) : Outcome ν :=
  if !b.level.awaiting then fail (.operatorExpectedBefore token.text) token
  else if b.outer.length + 1 > maxNesting then .error (.nestingTooDeep maxNesting)
  else .ok ⟨b.nodes, {}, b.level :: b.outer⟩

/-- `next` is the token behind the bracket. -/
def closeBracket (b : Builder ν) (token : Token) (next : Option Token) : Outcome ν :=
  match b with
  | ⟨_, _, []⟩ => fail .closingBracket token
  | ⟨nodes, inner, level :: outer⟩ =>
    match inner.root? with
    | none => .error (.invalidExpression .operandExpected (next.bind Token.position))
    | some group =>
      let (nodes, id) := applyCall nodes level.call group
      .ok (attach ⟨nodes, level, outer⟩ id false)

def openCall (b : Builder ν) (token : Token) (next : Option Token) : Outcome ν :=
  if !b.level.awaiting then fail (.operatorExpectedBefore token.text) token
  else if next.any (·.kind == .opening) then
    .ok ⟨b.nodes, { b.level with call := some token }, b.outer⟩
  else fail (.bracketExpectedAfter token.text) token

def operand (b : Builder ν) (token : Token) : Outcome ν :=
  if !b.level.awaiting then
    fail (.operatorExpectedBefore (if token.kind = .factorial then token.text ++ "!" else token.text)) token
  else if token.kind = .factorial then .ok (b.placeFactorial token)
  else .ok (b.placeLeaf token)

/-- A number that no product or power binds to. -/
def isLoneNumber : List Token → Bool
  | number :: after :: _ =>
    number.kind == .number && after.kind != .times && after.kind != .divide && after.kind != .power
  | [number] => number.kind == .number
  | [] => false

/-- An operator, a sign, or a minus that makes the lone number after it negative. The result tells
how many tokens of `rest` are taken. -/
def operator (b : Builder ν) (token : Token) (rest : List Token) : Except GrammarError (Builder ν × Nat) :=
  if !b.level.awaiting then .ok (b.placeOperator token, 0)
  else if token.kind = .minus ∧ isLoneNumber rest then
    let digits := (rest.head?.map Token.text).getD ""
    .ok (b.placeLeaf ⟨.number, "-" ++ digits, token.position⟩, 1)
  else if token.kind = .plus ∨ token.kind = .minus then .ok (b.placeSign token, 0)
  else fail (.operandExpectedBefore token.text) token

/-- Places one token, which is not the end of the text. -/
def place (b : Builder ν) (token : Token) (rest : List Token) : Except GrammarError (Builder ν × Nat) :=
  match token.kind with
  | .opening => (b.openBracket token).map (·, 0)
  | .closing => (b.closeBracket token rest.head?).map (·, 0)
  | .trig | .log | .sqrt | .diff => (b.openCall token rest.head?).map (·, 0)
  | .number | .letter | .polynomial | .factorial => (b.operand token).map (·, 0)
  | .equals | .plus | .minus | .times | .divide | .power => b.operator token rest
  | .finish => .ok (b, 0)

/-- The expression at the end of the text, which is at `position`. -/
def complete (b : Builder ν) (position : Option Nat) : Except GrammarError (Expression ν) :=
  if b.outer ≠ [] then .error .unclosedBracket
  else match b.level.root? with
    | some root => .ok { b.nodes with root }
    | none => .error (.invalidExpression .operandExpected position)

def build (b : Builder ν) (tokens : List Token) : Except GrammarError (Expression ν) :=
  match tokens with
  | [] => b.complete none
  | token :: rest =>
    if token.kind = .finish then b.complete token.position
    else match b.place token rest with
      | .ok (b, taken) => b.build (rest.drop taken)
      | .error error => .error error
termination_by tokens.length
decreasing_by simp only [List.length_drop, List.length_cons]; omega

end Builder

def ofTokens (tokens : List Token) : Except GrammarError (Expression ν) :=
  ({} : Builder ν).build tokens

/-- The expression that a text denotes. -/
def ofText (text : String) : Except GrammarError (Expression ν) :=
  match Token.ofText text with
  | .ok tokens => ofTokens tokens
  | .error error => .error (.lexical error)

end Stepwise.Expression
