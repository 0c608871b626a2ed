import Stepwise.Expression.Walk
import Stepwise.Proofs.Tree.Basic

/-! Subtrees of any form: a node may have both operands, one on either side, or none. Main
statements: a subtree holds what can be reached from its root, it is small enough for the walks over
it, and the prefix order lists its ids. -/
namespace BinaryTree

variable {α β : Type}

def root? : BinaryTree α → Option α
  | nil => none
  | node a _ _ => some a

def preorder : BinaryTree α → List α
  | nil => []
  | node a left right => a :: (left.preorder ++ right.preorder)

/-- The entries from left to right, each with its depth below an entry at `depth`. -/
def inorder (depth : Nat) : BinaryTree α → List (α × Nat)
  | nil => []
  | node a left right => left.inorder (depth + 1) ++ (a, depth) :: right.inorder (depth + 1)

def numbered (base : Nat) : BinaryTree α → BinaryTree Nat
  | nil => nil
  | node _ left right => node base (left.numbered (base + 1)) (right.numbered (base + 1 + left.numNodes))

@[simp] theorem root_nil : (nil : BinaryTree α).root? = none := rfl

@[simp] theorem root_node (a : α) (left right : BinaryTree α) : (node a left right).root? = some a := rfl

theorem eq_nil_of_root {t : BinaryTree α} (missing : t.root? = none) : t = nil := by
  cases t with
  | nil => rfl
  | node a left right => cases missing

@[simp] theorem root_map (f : α → β) (t : BinaryTree α) : (t.map f).root? = t.root?.map f := by
  cases t <;> rfl

@[simp] theorem root_numbered (base : Nat) (t : BinaryTree α) :
    (t.numbered base).root? = t.root?.map fun _ => base := by
  cases t <;> rfl

@[simp] theorem numNodes_map (f : α → β) (t : BinaryTree α) : (t.map f).numNodes = t.numNodes := by
  induction t with
  | nil => rfl
  | node a left right ihl ihr => simp [map, ihl, ihr]

@[simp] theorem preorder_map (f : α → β) (t : BinaryTree α) : (t.map f).preorder = t.preorder.map f := by
  induction t with
  | nil => rfl
  | node a left right ihl ihr => simp [map, preorder, ihl, ihr]

@[simp] theorem length_preorder (t : BinaryTree α) : t.preorder.length = t.numNodes := by
  induction t with
  | nil => rfl
  | node a left right ihl ihr => simp [preorder, ihl, ihr]

theorem root_mem {t : BinaryTree α} {a : α} (top : t.root? = some a) : a ∈ t.preorder := by
  cases t with
  | nil => cases top
  | node b left right =>
    obtain rfl := Option.some.inj top
    exact List.mem_cons_self

theorem mem_inorder {t : BinaryTree α} {a : α} (depth : Nat) :
    (∃ own, (a, own) ∈ t.inorder depth) ↔ a ∈ t.preorder := by
  induction t generalizing depth with
  | nil => simp [inorder, preorder]
  | node b left right ihl ihr =>
    simp only [inorder, preorder, List.mem_append, List.mem_cons, Prod.mk.injEq, exists_or, ihl,
      ihr, exists_and_left, exists_eq, and_true]
    tauto

theorem preorder_numbered (t : BinaryTree α) (base : Nat) :
    (t.numbered base).preorder = List.range' base t.numNodes := by
  induction t generalizing base with
  | nil => rfl
  | node a left right ihl ihr =>
    simp only [numbered, preorder, numNodes, ihl, ihr, List.range'_succ]
    rw [List.range'_append_1]

end BinaryTree

namespace Stepwise

namespace Tree

variable {α β : Type}

/-- A tree as one in which operands may be missing. -/
def binary : Tree α → BinaryTree α
  | leaf a => .node a .nil .nil
  | group a inner => .node a inner.binary .nil
  | fork a left right => .node a left.binary right.binary

@[simp] theorem root_binary (t : Tree α) : t.binary.root? = some t.top := by
  cases t <;> rfl

@[simp] theorem numNodes_binary (t : Tree α) : t.binary.numNodes = t.size := by
  induction t with
  | leaf a => rfl
  | group a inner ih => simp [binary, size, ih]
  | fork a left right ihl ihr => simp [binary, size, ihl, ihr]

@[simp] theorem preorder_binary (t : Tree α) : t.binary.preorder = t.flatten := by
  induction t with
  | leaf a => rfl
  | group a inner ih => simp [binary, BinaryTree.preorder, flatten, ih]
  | fork a left right ihl ihr => simp [binary, BinaryTree.preorder, flatten, ihl, ihr]

theorem binary_map (f : α → β) (t : Tree α) : (t.map f).binary = t.binary.map f := by
  induction t with
  | leaf a => rfl
  | group a inner ih => simp [map, binary, BinaryTree.map, ih]
  | fork a left right ihl ihr => simp [map, binary, BinaryTree.map, ihl, ihr]

end Tree

namespace Expression

open Loop (Leads)

variable {ν : Type}

/-- The operands of the nodes are the ones that a tree of ids shows, and are missing where it shows none. -/
def Joins (e : Expression ν) : BinaryTree NodeId → Prop
  | .nil => True
  | .node id left right =>
    (e.node id).left = left.root? ∧ (e.node id).right = right.root? ∧ e.Joins left ∧ e.Joins right

/-- What hangs at a node is a finite tree: its ids lie in the array, and no two ways lead to one node. -/
structure HasSubtree (e : Expression ν) (id : NodeId) (t : BinaryTree NodeId) : Prop where
  top : t.root? = some id
  joins : e.Joins t
  nodup : t.preorder.Nodup
  inside : ∀ below ∈ t.preorder, below < e.size

instance decidableJoins (e : Expression ν) : (t : BinaryTree NodeId) → Decidable (e.Joins t)
  | .nil => .isTrue trivial
  | .node id left right =>
    let _ := decidableJoins e left
    let _ := decidableJoins e right
    inferInstanceAs (Decidable ((e.node id).left = left.root? ∧ (e.node id).right = right.root? ∧
      e.Joins left ∧ e.Joins right))

instance (e : Expression ν) (id : NodeId) (t : BinaryTree NodeId) : Decidable (e.HasSubtree id t) :=
  decidable_of_iff (t.root? = some id ∧ e.Joins t ∧ t.preorder.Nodup ∧ ∀ below ∈ t.preorder, below < e.size)
    ⟨fun ⟨top, joins, nodup, inside⟩ => ⟨top, joins, nodup, inside⟩,
      fun subtree => ⟨subtree.top, subtree.joins, subtree.nodup, subtree.inside⟩⟩

inductive Reaches (e : Expression ν) : NodeId → NodeId → Prop
  | here (id : NodeId) : e.Reaches id id
  | left {id below found : NodeId} (link : (e.node id).left = some below)
      (rest : e.Reaches below found) : e.Reaches id found
  | right {id below found : NodeId} (link : (e.node id).right = some below) (rest : e.Reaches below found) :
    e.Reaches id found

/-- A tree of ids holds what its root reaches. -/
theorem Joins.reaches_iff {e : Expression ν} {t : BinaryTree NodeId} (joins : e.Joins t) {id found : NodeId}
    (top : t.root? = some id) : e.Reaches id found ↔ found ∈ t.preorder := by
  constructor
  · intro reaches
    induction reaches generalizing t with
    | here id => exact BinaryTree.root_mem top
    | left link rest ih =>
      cases t with
      | nil => cases top
      | node id left right =>
        obtain rfl := Option.some.inj top
        exact List.mem_cons_of_mem _ (List.mem_append_left _ (ih joins.2.2.1 (joins.1.symm.trans link)))
    | right link rest ih =>
      cases t with
      | nil => cases top
      | node id left right =>
        obtain rfl := Option.some.inj top
        exact List.mem_cons_of_mem _ (List.mem_append_right _ (ih joins.2.2.2 (joins.2.1.symm.trans link)))
  · intro member
    induction t generalizing id with
    | nil => cases top
    | node own left right ihl ihr =>
      obtain rfl := Option.some.inj top
      -- An operand that holds the node has a root, so there is a link to it.
      have below {part : BinaryTree NodeId} (holds : found ∈ part.preorder) :
          ∃ root, part.root? = some root := by
        cases part with
        | nil => cases holds
        | node root _ _ => exact ⟨root, rfl⟩
      rcases List.mem_cons.mp member with rfl | member
      · exact .here found
      · rcases List.mem_append.mp member with member | member
        · obtain ⟨root, link⟩ := below member
          exact .left (joins.1.trans link) (ihl joins.2.2.1 link member)
        · obtain ⟨root, link⟩ := below member
          exact .right (joins.2.1.trans link) (ihr joins.2.2.2 link member)

namespace HasSubtree

variable {e : Expression ν} {id : NodeId} {t : BinaryTree NodeId}

theorem reaches_iff (subtree : e.HasSubtree id t) {found : NodeId} :
    e.Reaches id found ↔ found ∈ t.preorder :=
  subtree.joins.reaches_iff subtree.top

/-- A subtree is no larger than the array that holds it. -/
theorem numNodes_le (subtree : e.HasSubtree id t) : t.numNodes ≤ e.size := by
  have within : t.preorder ⊆ List.range e.size :=
    fun below member => List.mem_range.mpr (subtree.inside below member)
  have fits := subtree.nodup.length_le_of_subset within
  simpa using fits

/-- A walk may take up to eight steps for each node of a subtree. -/
theorem steps_lt (subtree : e.HasSubtree id t) {n : Nat} (few : n ≤ 8 * t.numNodes) :
    n < Nat.pow 2 e.budget := by
  have fits := subtree.numNodes_le
  have room : e.size * Nat.pow 2 3 < Nat.pow 2 e.budget := Loop.lt_pow_add e.size 3
  simp only [Nat.pow_eq] at room ⊢
  omega

theorem numNodes_pos (subtree : e.HasSubtree id t) : 0 < t.numNodes := by
  rw [← t.length_preorder]
  exact List.length_pos_of_mem (BinaryTree.root_mem subtree.top)

theorem left {left right : BinaryTree NodeId} (subtree : e.HasSubtree id (.node id left right))
    {below : NodeId} (top : left.root? = some below) : e.HasSubtree below left where
  top := top
  joins := subtree.joins.2.2.1
  nodup := (List.nodup_append.mp (List.nodup_cons.mp subtree.nodup).2).1
  inside other member := subtree.inside other (List.mem_cons_of_mem _ (List.mem_append_left _ member))

theorem right {left right : BinaryTree NodeId} (subtree : e.HasSubtree id (.node id left right))
    {below : NodeId} (top : right.root? = some below) : e.HasSubtree below right where
  top := top
  joins := subtree.joins.2.2.2
  nodup := (List.nodup_append.mp (List.nodup_cons.mp subtree.nodup).2).2.1
  inside other member := subtree.inside other (List.mem_cons_of_mem _ (List.mem_append_right _ member))

end HasSubtree

theorem leads_preorder {e : Expression ν} {t : BinaryTree NodeId} (joins : e.Joins t)
    (stack seen : List NodeId) :
    Leads e.preorderStep t.numNodes (t.root?.toList ++ stack, seen) (stack, t.preorder.reverse ++ seen) := by
  induction t generalizing stack seen with
  | nil => exact .refl
  | node id left right ihl ihr =>
    have first : e.preorderStep (id :: stack, seen) =
        .more (left.root?.toList ++ (right.root?.toList ++ stack), id :: seen) := by
      simp [preorderStep, pushOperands, joins.1, joins.2.1]
    have rest := (ihl joins.2.2.1 (right.root?.toList ++ stack) (id :: seen)).trans (ihr joins.2.2.2 stack _)
    simpa [BinaryTree.preorder] using Leads.later first rest

/-- The prefix order of a subtree lists the ids of its tree. -/
theorem HasSubtree.preorder_eq {e : Expression ν} {id : NodeId} {t : BinaryTree NodeId}
    (subtree : e.HasSubtree id t) :
    e.preorder id = t.preorder := by
  have walk := leads_preorder subtree.joins [] []
  have pos := subtree.numNodes_pos
  rw [subtree.top, Option.toList_some, List.singleton_append] at walk
  rw [preorder, Loop.run_of_leads walk rfl (subtree.steps_lt (by omega))]
  simp

theorem joins_binary {e : Expression ν} {t : Tree NodeId} : e.Joins t.binary ↔ e.Links t := by
  induction t with
  | leaf id => simp [Tree.binary, Joins, Links]
  | group id inner ih => simp [Tree.binary, Joins, Links, ih]
  | fork id left right ihl ihr => simp [Tree.binary, Joins, Links, ihl, ihr]

theorem Spans.hasSubtree {e : Expression ν} {t : Tree NodeId} (spans : e.Spans t) :
    e.HasSubtree t.top t.binary where
  top := t.root_binary
  joins := joins_binary.mpr spans.links
  nodup := t.preorder_binary ▸ spans.nodup
  inside := t.preorder_binary ▸ spans.inside

theorem Spans.size_le {e : Expression ν} {t : Tree NodeId} (spans : e.Spans t) : t.size ≤ e.size :=
  t.numNodes_binary ▸ spans.hasSubtree.numNodes_le

end Expression

end Stepwise
