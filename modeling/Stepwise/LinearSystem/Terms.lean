import Stepwise.Formula.Prepare

/-! The linear terms of a prepared equation. Terms on the right of `=` or of a minus count
negatively, and constants are moved to the right side. Products and quotients may have a constant
on one side; anything else that is neither a sum nor linear is refused. -/
namespace Stepwise.LinearSystem

open Loop (Progress)

/-- A column of the table of coefficients. -/
inductive Key where
  | letter (name : Char)
  | constant
deriving DecidableEq, Repr

/-- The coefficients of one equation, at most one for each key. -/
abbrev Terms := List (Key × Float)

/-- Adds to the coefficient of a key, which starts from zero. -/
def Terms.add (terms : Terms) (key : Key) (x : Float) : Terms :=
  match terms with
  | [] => [(key, 0.0 + x)]
  | (k, sum) :: rest => if k = key then (k, sum + x) :: rest else (k, sum) :: Terms.add rest key x

/-- Takes from the coefficient of a key, which starts from zero. -/
def Terms.sub (terms : Terms) (key : Key) (x : Float) : Terms :=
  match terms with
  | [] => [(key, 0.0 - x)]
  | (k, sum) :: rest => if k = key then (k, sum - x) :: rest else (k, sum) :: Terms.sub rest key x

/-- A part of the equation still to be collected, and the factor it counts with. -/
abbrev Part := NodeId × Float

/-- The number on a leaf that is not the argument of a call. -/
def constantAt? (e : Formula) (id : NodeId) : Option Float :=
  let node := e.node id
  if node.isLeaf ∧ node.call.isNone then node.value.bind Quantity.value? else none

/-- What a leaf adds to the terms. -/
def leafTerms? (node : Node Quantity) (factor : Float) (terms : Terms) : Option Terms :=
  match node.value with
  | some (.polynomial p) =>
    if p.degree ≤ 1 then
      some ((terms.add (.letter p.letter) (factor * p.coefficient 1)).sub .constant
        (factor * p.coefficient 0))
    else none
  | some q =>
    if q.isConstant ∧ node.call.isNone then
      some (terms.sub .constant (factor * q.value?.getD 0.0))
    else none
  | none => none

def nonLinearAt {α : Type} (e : Formula) (id : NodeId) : Except ComputationError α :=
  .error (.nonLinear (e.renderAt id).text)

/-- The parts that the operator at `id` splits into, the one to be collected next first. -/
def splitParts (e : Formula) (id left right : NodeId) (factor : Float) :
    Except ComputationError (List Part) :=
  match (e.node id).token.kind with
  | .equals | .minus => .ok [(right, -factor), (left, factor)]
  | .plus => .ok [(right, factor), (left, factor)]
  | .times =>
    match constantAt? e left, constantAt? e right with
    | some k, _ => .ok [(right, factor * k)]
    | none, some k => .ok [(left, factor * k)]
    | none, none => nonLinearAt e id
  | .divide =>
    match constantAt? e right with
    | some k => if k != 0.0 then .ok [(left, factor / k)] else .error .zeroDenominator
    | none => nonLinearAt e id
  | _ => nonLinearAt e id

/-- The parts of a node with operands. A group that is no argument of a call is what it holds. -/
def innerParts (e : Formula) (id : NodeId) (factor : Float) : Except ComputationError (List Part) :=
  let node := e.node id
  if node.token.kind = .opening ∧ node.call.isNone ∧ node.left.isSome then
    .ok (node.left.toList.map (·, factor))
  else match node.left, node.right with
    | some left, some right => splitParts e id left right factor
    | _, _ => nonLinearAt e id

def collectStep (e : Formula) :
    List Part × Terms → Progress (List Part × Terms) (Except ComputationError Terms)
  | ([], terms) => .done (.ok terms)
  | ((id, factor) :: rest, terms) =>
    let node := e.node id
    if node.isLeaf then
      match leafTerms? node factor terms with
      | some terms => .more (rest, terms)
      | none => .done (nonLinearAt e id)
    else match innerParts e id factor with
      | .ok parts => .more (parts ++ rest, terms)
      | .error error => .done (.error error)

def collectTerms (e : Formula) : Except ComputationError Terms :=
  (Loop.run e.budget (collectStep e) ([(e.root, 1.0)], [])).getD (.ok [])

end Stepwise.LinearSystem
