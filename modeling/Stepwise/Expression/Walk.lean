import Stepwise.Expression.Basic
import Stepwise.Loop

/-! Walks over the subtree at a node: its nodes in prefix order, a copy of its shape, and the
comparison of two shapes. -/
namespace Stepwise.Expression

variable {ν μ : Type}

open Loop (Progress)

/-- Every walk below takes at most three steps for each way down from its start. -/
def budget (e : Expression ν) : Nat := e.size + 3

/-- The operands of a node in front of `stack`, the left one first. -/
def pushOperands (node : Node ν) (stack : List NodeId) : List NodeId :=
  node.left.toList ++ node.right.toList ++ stack

def preorderStep (e : Expression ν) :
    List NodeId × List NodeId → Progress (List NodeId × List NodeId) (List NodeId)
  | ([], seen) => .done seen.reverse
  | (id :: stack, seen) => .more (pushOperands (e.node id) stack, id :: seen)

/-- The ids of the subtree at `id`, each before those below it and the left before the right. -/
def preorder (e : Expression ν) (id : NodeId) : List NodeId :=
  (Loop.run e.budget e.preorderStep ([id], [])).getD []

/-- Which child of which copy a node still to be copied becomes. -/
structure Pending where
  source : NodeId
  parent : Option NodeId
  isLeft : Bool

/-- A node as it is copied: without value, operands and deferral. -/
def outlineNode (node : Node ν) (parent : Option NodeId) : Node Empty :=
  { token := node.token, parent, call := node.call, reduced := node.reduced, unary := node.unary }

def linkChild (copy : Outline) (pending : Pending) (id : NodeId) : Outline :=
  match pending.parent with
  | some parent =>
    copy.modify parent fun node =>
      if pending.isLeft then { node with left := some id } else { node with right := some id }
  | none => copy

def extractStep (e : Expression ν) : List Pending × Outline → Progress (List Pending × Outline) Outline
  | ([], copy) => .done (copy.modify 0 fun node => { node with call := none })
  | (pending :: stack, copy) =>
    let source := e.node pending.source
    let id := copy.size
    let left := source.left.toList.map fun child => ⟨child, some id, true⟩
    let right := source.right.toList.map fun child => ⟨child, some id, false⟩
    .more (left ++ right ++ stack, linkChild (copy.push (outlineNode source pending.parent)) pending id)

/-- A copy of the subtree at `id`, numbered in prefix order. It keeps tokens, keywords and signs;
the keyword of its root is dropped. -/
def extract (e : Expression ν) (id : NodeId) : Outline :=
  (Loop.run e.budget e.extractStep ([⟨id, none, false⟩], ⟨#[], 0⟩)).getD ⟨#[], 0⟩

/-- Two nodes with the same spelling and the same keyword. -/
def sameLabel (a : Node ν) (b : Node μ) : Bool :=
  a.token.text == b.token.text && a.call.map Token.text == b.call.map Token.text

def sameShapeStep (e : Expression ν) (f : Expression μ) :
    List (Option NodeId × Option NodeId) → Progress (List (Option NodeId × Option NodeId)) Bool
  | [] => .done true
  | (none, none) :: stack => .more stack
  | (some a, some b) :: stack =>
    let (x, y) := (e.node a, f.node b)
    if sameLabel x y then .more ((x.right, y.right) :: (x.left, y.left) :: stack) else .done false
  | _ :: _ => .done false

/-- The same spellings and keywords at every place of the two subtrees. -/
def sameShape (e : Expression ν) (a : NodeId) (f : Expression μ) (b : NodeId) : Bool :=
  (Loop.run (e.budget + 1) (e.sameShapeStep f) [(some a, some b)]).getD false

end Stepwise.Expression
