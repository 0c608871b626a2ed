import Mathlib
import Stepwise.Expression.Basic

/-! The part of an expression that can be reached from its root, as a tree. A tree of node ids says
how the nodes hang together, and a tree of labels says what is written on them. Main statement: a
change of nodes outside a tree keeps the tree as it is. -/
namespace Stepwise

/-- A node stands alone, has a left operand only, or has both operands. -/
inductive Tree (α : Type) where
  | leaf (a : α)
  | group (a : α) (inner : Tree α)
  | fork (a : α) (left right : Tree α)

namespace Tree

variable {α β γ : Type}

def top : Tree α → α
  | leaf a | group a _ | fork a _ _ => a

@[simp] theorem top_leaf (a : α) : (leaf a).top = a := rfl

@[simp] theorem top_group (a : α) (inner : Tree α) : (group a inner).top = a := rfl

@[simp] theorem top_fork (a : α) (left right : Tree α) : (fork a left right).top = a := rfl

def isLeaf : Tree α → Bool
  | leaf _ => true
  | group _ _ | fork _ _ _ => false

def map (f : α → β) : Tree α → Tree β
  | leaf a => leaf (f a)
  | group a inner => group (f a) (inner.map f)
  | fork a left right => fork (f a) (left.map f) (right.map f)

/-- The entries, each before those below it and the left before the right. -/
def flatten : Tree α → List α
  | leaf a => [a]
  | group a inner => a :: inner.flatten
  | fork a left right => a :: (left.flatten ++ right.flatten)

def size : Tree α → Nat
  | leaf _ => 1
  | group _ inner => inner.size + 1
  | fork _ left right => left.size + right.size + 1

def mapTop (f : α → α) : Tree α → Tree α
  | leaf a => leaf (f a)
  | group a inner => group (f a) inner
  | fork a left right => fork (f a) left right

@[simp] theorem top_mapTop (f : α → α) (t : Tree α) : (t.mapTop f).top = f t.top := by
  cases t <;> rfl

@[simp] theorem isLeaf_mapTop (f : α → α) (t : Tree α) : (t.mapTop f).isLeaf = t.isLeaf := by
  cases t <;> rfl

@[simp] theorem size_mapTop (f : α → α) (t : Tree α) : (t.mapTop f).size = t.size := by
  cases t <;> rfl

@[simp] theorem top_map (f : α → β) (t : Tree α) : (t.map f).top = f t.top := by
  cases t <;> rfl

@[simp] theorem isLeaf_map (f : α → β) (t : Tree α) : (t.map f).isLeaf = t.isLeaf := by
  cases t <;> rfl

@[simp] theorem size_map (f : α → β) (t : Tree α) : (t.map f).size = t.size := by
  induction t with
  | leaf a => rfl
  | group a inner ih => simp [map, size, ih]
  | fork a left right ihl ihr => simp [map, size, ihl, ihr]

@[simp] theorem flatten_map (f : α → β) (t : Tree α) : (t.map f).flatten = t.flatten.map f := by
  induction t with
  | leaf a => rfl
  | group a inner ih => simp [map, flatten, ih]
  | fork a left right ihl ihr => simp [map, flatten, ihl, ihr]

@[simp] theorem length_flatten (t : Tree α) : t.flatten.length = t.size := by
  induction t with
  | leaf a => rfl
  | group a inner ih => simp [flatten, size, ih]
  | fork a left right ihl ihr => simp [flatten, size, ihl, ihr]

theorem size_pos (t : Tree α) : 0 < t.size := by
  cases t <;> simp [size]

theorem top_mem (t : Tree α) : t.top ∈ t.flatten := by
  cases t <;> simp [top, flatten]

/-- Functions that agree on the entries of a tree give the same tree. -/
theorem map_congr {f g : α → β} {t : Tree α} (same : ∀ a ∈ t.flatten, f a = g a) :
    t.map f = t.map g := by
  induction t with
  | leaf a => simp [map, same a (by simp [flatten])]
  | group a inner ih =>
    rw [map, map, same a (by simp [flatten]), ih fun b member => same b (by simp [flatten, member])]
  | fork a left right ihl ihr =>
    rw [map, map, same a (by simp [flatten]), ihl fun b member => same b (by simp [flatten, member]),
      ihr fun b member => same b (by simp [flatten, member])]

end Tree

/-- A node without its place in the array. -/
structure Label (ν : Type) where
  token : Token
  call : Option Token := none
  value : Option ν := none
  reduced : Bool := false
  deferred : Bool := false
  unary : Bool := false

def Node.label {ν : Type} (node : Node ν) : Label ν :=
  ⟨node.token, node.call, node.value, node.reduced, node.deferred, node.unary⟩

namespace Expression

variable {ν μ : Type}

@[simp] theorem size_modify (e : Expression ν) (id : NodeId) (f : Node ν → Node ν) :
    (e.modify id f).size = e.size := by
  simp [modify, size]

@[simp] theorem root_modify (e : Expression ν) (id : NodeId) (f : Node ν → Node ν) :
    (e.modify id f).root = e.root := rfl

@[simp] theorem size_push (e : Expression ν) (node : Node ν) : (e.push node).size = e.size + 1 := by
  simp [push, size]

@[simp] theorem root_push (e : Expression ν) (node : Node ν) : (e.push node).root = e.root := rfl

theorem node_eq (e : Expression ν) (id : NodeId) : e.node id = e.nodes[id]?.getD default := by
  simp [node]

theorem node_modify_self (e : Expression ν) {id : NodeId} (f : Node ν → Node ν) (inside : id < e.size) :
    (e.modify id f).node id = f (e.node id) := by
  simp only [size] at inside
  simp [node_eq, modify, inside, Array.getElem_modify]

theorem node_modify_other (e : Expression ν) {id other : NodeId} (f : Node ν → Node ν)
    (apart : other ≠ id) : (e.modify id f).node other = e.node other := by
  simp [node_eq, modify, Array.getElem?_modify, Ne.symm apart]

theorem node_push_self (e : Expression ν) (node : Node ν) : (e.push node).node e.size = node := by
  simp [push, node_eq, size]

theorem node_push_other (e : Expression ν) {id : NodeId} (node : Node ν) (inside : id < e.size) :
    (e.push node).node id = e.node id := by
  simp only [size] at inside
  simp [push, node_eq, Array.getElem?_push, Nat.ne_of_lt inside]

def Links (e : Expression ν) : Tree NodeId → Prop
  | .leaf id => (e.node id).left = none ∧ (e.node id).right = none
  | .group id inner => (e.node id).left = some inner.top ∧ (e.node id).right = none ∧ e.Links inner
  | .fork id left right =>
    (e.node id).left = some left.top ∧ (e.node id).right = some right.top ∧ e.Links left ∧ e.Links right

/-- A tree of ids that lie in the array and are never shared. -/
structure Spans (e : Expression ν) (t : Tree NodeId) : Prop where
  links : e.Links t
  nodup : t.flatten.Nodup
  inside : ∀ id ∈ t.flatten, id < e.size

def view (e : Expression ν) (t : Tree NodeId) : Tree (Label ν) := t.map fun id => (e.node id).label

theorem view_leaf (e : Expression ν) (id : NodeId) : e.view (.leaf id) = .leaf (e.node id).label := rfl

theorem view_group (e : Expression ν) (id : NodeId) (inner : Tree NodeId) :
    e.view (.group id inner) = .group (e.node id).label (e.view inner) := rfl

theorem view_fork (e : Expression ν) (id : NodeId) (left right : Tree NodeId) :
    e.view (.fork id left right) = .fork (e.node id).label (e.view left) (e.view right) := rfl

/-- The root reaches a finite tree with the given labels. -/
def Displays (e : Expression ν) (x : Tree (Label ν)) : Prop :=
  ∃ t, e.Spans t ∧ t.top = e.root ∧ e.view t = x

theorem Links.congr {e : Expression ν} {f : Expression μ} {t : Tree NodeId} (links : e.Links t)
    (same : ∀ id ∈ t.flatten, (f.node id).left = (e.node id).left ∧ (f.node id).right = (e.node id).right) :
    f.Links t := by
  induction t with
  | leaf id =>
    obtain ⟨l, r⟩ := same id (by simp [Tree.flatten])
    exact ⟨l.trans links.1, r.trans links.2⟩
  | group id inner ih =>
    obtain ⟨l, r⟩ := same id (by simp [Tree.flatten])
    exact ⟨l.trans links.1, r.trans links.2.1,
      ih links.2.2 fun j member => same j (by simp [Tree.flatten, member])⟩
  | fork id left right ihl ihr =>
    obtain ⟨l, r⟩ := same id (by simp [Tree.flatten])
    exact ⟨l.trans links.1, r.trans links.2.1,
      ihl links.2.2.1 fun j member => same j (by simp [Tree.flatten, member]),
      ihr links.2.2.2 fun j member => same j (by simp [Tree.flatten, member])⟩

/-- Nodes outside a tree may change, and nodes may be added. -/
theorem Spans.frame {e f : Expression ν} {t : Tree NodeId} (spans : e.Spans t) (grown : e.size ≤ f.size)
    (same : ∀ id ∈ t.flatten, f.node id = e.node id) : f.Spans t where
  links := spans.links.congr fun id member => by simp [same id member]
  nodup := spans.nodup
  inside id member := Nat.lt_of_lt_of_le (spans.inside id member) grown

theorem view_frame {e f : Expression ν} {t : Tree NodeId} (same : ∀ id ∈ t.flatten, f.node id = e.node id) :
    f.view t = e.view t :=
  Tree.map_congr fun id member => by rw [same id member]

theorem Spans.group {e : Expression ν} {id : NodeId} {inner : Tree NodeId}
    (spans : e.Spans (.group id inner)) : e.Spans inner where
  links := spans.links.2.2
  nodup := (List.nodup_cons.mp spans.nodup).2
  inside j member := spans.inside j (by simp [Tree.flatten, member])

theorem Spans.left {e : Expression ν} {id : NodeId} {left right : Tree NodeId}
    (spans : e.Spans (.fork id left right)) : e.Spans left where
  links := spans.links.2.2.1
  nodup := (List.nodup_append.mp (List.nodup_cons.mp spans.nodup).2).1
  inside j member := spans.inside j (by simp [Tree.flatten, member])

theorem Spans.right {e : Expression ν} {id : NodeId} {left right : Tree NodeId}
    (spans : e.Spans (.fork id left right)) : e.Spans right where
  links := spans.links.2.2.2
  nodup := (List.nodup_append.mp (List.nodup_cons.mp spans.nodup).2).2.1
  inside j member := spans.inside j (by simp [Tree.flatten, member])

/-- The links leave no choice below a node. -/
theorem Links.unique {e : Expression ν} {t s : Tree NodeId} (first : e.Links t) (second : e.Links s)
    (same : t.top = s.top) : t = s := by
  induction t generalizing s with
  | leaf id =>
    cases s with
    | leaf other => exact congrArg _ same
    | group other inner =>
      obtain rfl : id = other := same
      exact absurd (first.1.symm.trans second.1) (by simp)
    | fork other left right =>
      obtain rfl : id = other := same
      exact absurd (first.1.symm.trans second.1) (by simp)
  | group id inner ih =>
    cases s with
    | leaf other =>
      obtain rfl : id = other := same
      exact absurd (first.1.symm.trans second.1) (by simp)
    | group other inner' =>
      obtain rfl : id = other := same
      rw [ih first.2.2 second.2.2 (Option.some.inj (first.1.symm.trans second.1))]
    | fork other left right =>
      obtain rfl : id = other := same
      exact absurd (first.2.1.symm.trans second.2.1) (by simp)
  | fork id left right ihl ihr =>
    cases s with
    | leaf other =>
      obtain rfl : id = other := same
      exact absurd (first.1.symm.trans second.1) (by simp)
    | group other inner =>
      obtain rfl : id = other := same
      exact absurd (first.2.1.symm.trans second.2.1) (by simp)
    | fork other left' right' =>
      obtain rfl : id = other := same
      rw [ihl first.2.2.1 second.2.2.1 (Option.some.inj (first.1.symm.trans second.1)),
        ihr first.2.2.2 second.2.2.2 (Option.some.inj (first.2.1.symm.trans second.2.1))]

/-- An expression displays one tree. -/
theorem Displays.unique {e : Expression ν} {x y : Tree (Label ν)} (first : e.Displays x)
    (second : e.Displays y) :
    x = y := by
  obtain ⟨t, spans, root, rfl⟩ := first
  obtain ⟨s, spans', root', rfl⟩ := second
  rw [spans.links.unique spans'.links (root.trans root'.symm)]

theorem Links.isLeaf_eq {e : Expression ν} {t : Tree NodeId} (links : e.Links t) :
    (e.node t.top).isLeaf = t.isLeaf := by
  cases t with
  | leaf id => simp [Tree.top, Tree.isLeaf, Node.isLeaf, links.1, links.2]
  | group id inner => simp [Tree.top, Tree.isLeaf, Node.isLeaf, links.1]
  | fork id left right => simp [Tree.top, Tree.isLeaf, Node.isLeaf, links.1]

end Expression

end Stepwise
