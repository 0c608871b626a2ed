import Stepwise.Formula.Isolate

/-! One reduction. A node is pending while it is an operator, or the argument of a derivative, that
is neither reduced nor put off. Of the pending nodes the deepest is reduced next, and among
equally deep ones the last from left to right. A reduction changes its node and what is below. -/
namespace Stepwise.Formula

open Loop (Progress)

def isPending (node : Node Quantity) : Bool :=
  !node.isSettled && (!node.isLeaf || isDerivative node)

/-- A walk from left to right: the way down still to go, the nodes to come back to, and the best
pending node so far, each with its depth. -/
structure Search where
  current : Option (NodeId × Nat)
  stack : List (NodeId × Nat) := []
  best : Option (NodeId × Nat) := none

/-- A pending node that is at least as deep takes the place of the best one. -/
def Search.better (e : Formula) (best : Option (NodeId × Nat)) (id : NodeId) (depth : Nat) :
    Option (NodeId × Nat) :=
  if isPending (e.node id) && best.all (fun b => b.2 ≤ depth) then some (id, depth) else best

def searchStep (e : Formula) (s : Search) : Progress Search (Option NodeId) :=
  match s.current, s.stack with
  | some (id, depth), stack =>
    .more { s with current := (e.node id).left.map (·, depth + 1), stack := (id, depth) :: stack }
  | none, (id, depth) :: stack =>
    .more ⟨(e.node id).right.map (·, depth + 1), stack, Search.better e s.best id depth⟩
  | none, [] => .done (s.best.map Prod.fst)

/-- The pending node to be reduced next. -/
def deepestPending (e : Formula) : Option NodeId :=
  (Loop.run e.budget e.searchStep { current := some (e.root, 0) }).getD none

/-- What the operands of an operator node combine to. A group passes on what it holds. -/
def combination (e : Formula) (node : Node Quantity) : Quantity.Outcome :=
  let left := node.left.bind fun id => (e.node id).value
  let right := node.right.bind fun id => (e.node id).value
  match Operation.ofKind? node.token.kind, left, right with
  | some operation, some a, some b => a.apply operation b
  | _, _, _ => .ok (if node.token.kind = .opening then left else none)

/-- Turns a node into a leaf with its value. A call on it becomes a term around that value, and a
derivative stays to be taken. -/
def settle (e : Formula) (id : NodeId) (value : Quantity) : Formula :=
  let node := e.node id
  let e := e.collapse id value
  match termKeyword? node with
  | some keyword => setValue e id (callTerm e id keyword node.value)
  | none => if isDerivative node then e.modify id fun node => { node with reduced := false } else e

def defer (e : Formula) (id : NodeId) : Formula :=
  e.modify id fun node => { node with deferred := true }

/-- Replaces the argument of a derivative by its derivative. -/
def differentiate (e : Formula) (id : NodeId) : Formula :=
  match (e.node id).value.bind Quantity.derivative? with
  | some value => (e.modify id fun node => { node with call := none }).collapse id value
  | none => defer e id

/-- Reduces the pending node at `id`, below which none is pending. -/
def reduce (e : Formula) (id : NodeId) : Except ComputationError Formula :=
  let node := e.node id
  if node.isLeaf then .ok (differentiate e id)
  else if node.token.kind = .equals then .ok (isolate e id).1
  else match combination e node with
    | .ok (some value) => .ok (settle e id value)
    | .ok none => .ok (defer e id)
    | .error error => .error error

end Stepwise.Formula
