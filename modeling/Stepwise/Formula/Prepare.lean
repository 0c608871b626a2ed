import Stepwise.Expression.OfText
import Stepwise.Quantity.Arithmetic

/-! A formula is an expression whose nodes carry quantities. Before it is reduced, factorials are
replaced by their values, variable terms `n * v ^ k` become polynomials, numbers become constants,
and each call gets the term it stands for around a copy of its argument. -/
namespace Stepwise

abbrev Formula := Expression Quantity

namespace Formula

open Loop (Progress)

/-- Replaces the factorials among the given nodes. A failure leaves those before it replaced. -/
def foldFactorials : List NodeId → Formula → Formula × Except ComputationError Unit
  | [], e => (e, .ok ())
  | id :: rest, e =>
    let token := (e.node id).token
    if token.kind = .factorial then
      match factorial ((Decimal.read? token.text).getD Decimal.nan) with
      | .ok value => foldFactorials rest (e.collapse id (.constant value))
      | .error error => (e, .error error)
    else foldFactorials rest e

/-- The number on a leaf that is not the argument of a call. -/
def numberLeaf? (e : Formula) (id : NodeId) : Option Float :=
  let node := e.node id
  if node.token.kind = .number ∧ node.isLeaf ∧ node.call.isNone then Decimal.read? node.token.text
  else none

/-- The letter on a leaf that is not the argument of a call. -/
def letterLeaf? (e : Formula) (id : NodeId) : Option Char :=
  let node := e.node id
  if node.token.kind = .letter ∧ node.isLeaf ∧ node.call.isNone then node.token.text.toList.head?
  else none

/-- The monomial that a product `n * v ^ k` stands for. -/
def monomialAt? (e : Formula) (id : NodeId) : Option Quantity := do
  let product := e.node id
  if product.token.kind ≠ .times ∨ product.value.isSome then none
  let coefficient ← numberLeaf? e (← product.left)
  let power := e.node (← product.right)
  if power.token.kind ≠ .power then none
  let letter ← letterLeaf? e (← power.left)
  let exponent ← polynomialPower? (← numberLeaf? e (← power.right))
  return (Quantity.polynomial (.monomial coefficient exponent letter)).normalized

/-- What a node is recognized as: a monomial, or the letter that it is itself. -/
def recognized? (e : Formula) (id : NodeId) : Option Quantity :=
  match monomialAt? e id with
  | some term => some term
  | none =>
    let node := e.node id
    if node.isLeaf ∧ node.token.kind = .letter then
      node.token.text.toList.head?.map fun letter => .polynomial (.monomial 1.0 1 letter)
    else none

def recognizeStep : List NodeId × Formula → Progress (List NodeId × Formula) Formula
  | ([], e) => .done e
  | (id :: stack, e) =>
    match recognized? e id with
    | some term => .more (stack, e.collapse id term)
    | none => .more (Expression.pushOperands (e.node id) stack, e)

/-- Turns variable terms into polynomial leaves, from the root down. -/
def recognizePolynomials (e : Formula) : Formula :=
  (Loop.run e.budget recognizeStep ([e.root], e)).getD e

def isTerm : Quantity → Bool
  | .trig _ | .log _ => true
  | _ => false

/-- The term that a call keyword makes of the node it sits on: around a number when the node is a
leaf with a value, around a copy of its shape otherwise. Coefficient and power are kept from the
term before. -/
def callTerm (e : Formula) (id : NodeId) (keyword : String) (before : Option Quantity) : Quantity :=
  let node := e.node id
  let argument := match node.isLeaf, node.value.bind Quantity.value? with
    | true, some x => Argument.numeric x
    | _, _ => Argument.symbolic (e.extract id)
  let (coef, power) := match before with
    | some q => if isTerm q then (q.coef, q.power) else (1.0, 1.0)
    | none => (1.0, 1.0)
  match TrigFunction.ofName? keyword with
  | some function => .trig { function, argument, coef, power }
  | none => .log { argument, coef, power }

def setValue (e : Formula) (id : NodeId) (value : Quantity) : Formula :=
  e.modify id fun node => { node with value := some value }

def attachNumber (e : Formula) (id : NodeId) : Formula :=
  let node := e.node id
  if node.isLeaf ∧ node.value.isNone ∧ node.token.kind = .number then
    match Decimal.read? node.token.text with
    | some x => e.collapse id (.constant x)
    | none => e
  else e

/-- The keyword of a node whose call is a term. -/
def termKeyword? (node : Node Quantity) : Option String :=
  match node.call with
  | some keyword =>
    if keyword.kind = .trig ∨ keyword.kind = .log then some keyword.text else none
  | none => none

def isDerivative (node : Node Quantity) : Bool := node.callKind? == some .diff

def attachCall (e : Formula) (id : NodeId) : Formula :=
  let node := e.node id
  match termKeyword? node with
  | some keyword =>
    if node.value.any isTerm then e
    else
      let term := callTerm e id keyword none
      e.modify id fun node => { node with value := some term, reduced := node.isLeaf }
  | none => if isDerivative node then e.modify id fun node => { node with reduced := false } else e

/-- Gives numbers and calls their quantities. Derivatives are taken later. -/
def attachQuantities (e : Formula) : Formula :=
  (e.preorder e.root).foldl (fun e id => attachCall (attachNumber e id) id) e

/-- The formula made ready for reduction, as far as its factorials allow. -/
def prepare (e : Formula) : Formula × Except ComputationError Unit :=
  match foldFactorials (e.preorder e.root) e with
  | (e, .ok ()) => (attachQuantities (recognizePolynomials e), .ok ())
  | failed => failed

end Formula

end Stepwise
