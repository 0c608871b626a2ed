import Stepwise.Formula.Prepare

/-! Isolating the letter of an equation, one move at a time. A right side that is no number is
moved over: `l = r` becomes `l - r = 0`. With a polynomial of degree one on the left,
`a*v + b = r` becomes `a*v = r - b`, and `a*v = r` becomes `v = r / a`. -/
namespace Stepwise.Formula

inductive Isolation where
  /-- The operands are new and may have to be reduced. -/
  | moved
  /-- Nothing is left to isolate. -/
  | settled
deriving DecidableEq, Repr

def settleEquation (e : Formula) (id : NodeId) : Formula :=
  e.modify id fun node => { node with reduced := true, deferred := false }

/-- The degree-one polynomial at a node. -/
def linear? (e : Formula) (id : NodeId) : Option Polynomial :=
  match (e.node id).value with
  | some (.polynomial p) => if p.degree = 1 then some p else none
  | _ => none

/-- `l = r` becomes `l - r = 0`. -/
def moveOver (e : Formula) (id left right : NodeId) : Formula :=
  let difference := e.size
  let e := e.pushBinary (.inserted .minus "-") left right
  let e := e.pushValue (.constant 0.0)
  e.replaceChildren id difference (difference + 1)

/-- `a*v + b = r` becomes `a*v = r - b`, or `r + b` with the sign of a negative `b` turned. -/
def moveOffset (e : Formula) (id right : NodeId) (p : Polynomial) : Formula :=
  let offset := p.coefficient 0
  let (operator, amount) : Token × Float :=
    if offset < 0.0 then (.inserted .plus "+", -offset) else (.inserted .minus "-", offset)
  let term := e.size
  let e := e.pushValue (.polynomial (.monomial (p.coefficient 1) 1 p.letter))
  let e := e.pushValue (.constant amount)
  let e := e.pushBinary operator right (term + 1)
  e.replaceChildren id term (term + 2)

/-- `a*v = r` becomes `v = r / a`. -/
def divideSlope (e : Formula) (id right : NodeId) (p : Polynomial) : Formula :=
  let bare := e.size
  let e := e.pushValue (.polynomial (.monomial 1.0 1 p.letter))
  let e := e.pushValue (.constant (p.coefficient 1))
  let e := e.pushBinary (.inserted .divide "/") right (bare + 1)
  e.replaceChildren id bare (bare + 2)

/-- One move in the equation at `id`, whose operands are settled. -/
def isolate (e : Formula) (id : NodeId) : Formula × Isolation :=
  match (e.node id).left, (e.node id).right with
  | some left, some right =>
    if !(e.node right).value.any Quantity.isConstant then (moveOver e id left right, .moved)
    else match linear? e left with
      | some p =>
        if p.coefficient 0 != 0.0 then (moveOffset e id right p, .moved)
        else if p.coefficient 1 != 1.0 then (divideSlope e id right p, .moved)
        else (settleEquation e id, .settled)
      | none => (settleEquation e id, .settled)
  | _, _ => (settleEquation e id, .settled)

end Stepwise.Formula
