import Stepwise.Proofs.Subtree.Copy
import Stepwise.Proofs.Tree.Grow

/-! The walks over a tree whose inner nodes have left operands: the prefix order lists its ids, and
a copy depends on its labels alone. Main statement: the copy displays the tree, without its values
and without the keyword of its root. -/
namespace Stepwise

namespace Expression

variable {ν : Type} {e : Expression ν} {t : Tree NodeId}

/-- A walk may take up to eight steps for each node of a tree. -/
theorem Spans.steps_lt (spans : e.Spans t) {n : Nat} (few : n ≤ 8 * t.size) : n < Nat.pow 2 e.budget :=
  spans.hasSubtree.steps_lt (few.trans_eq (by rw [t.numNodes_binary]))

/-- The prefix order of a subtree lists the ids of its tree. -/
theorem preorder_eq (spans : e.Spans t) : e.preorder t.top = t.flatten :=
  spans.hasSubtree.preorder_eq.trans t.preorder_binary

theorem Displays.label_mem {x : Tree (Label ν)} (displays : e.Displays x) {id : NodeId}
    (member : id ∈ e.preorder e.root) : (e.node id).label ∈ x.flatten := by
  obtain ⟨t, spans, root, rfl⟩ := displays
  rw [← root, preorder_eq spans] at member
  rw [view, Tree.flatten_map]
  exact List.mem_map_of_mem member

end Expression

namespace Tree

variable {ν : Type}

def outlineNodes : Tree (Label ν) → NodeId → Option NodeId → List (Node Empty)
  | leaf a, _, parent =>
    [{ token := a.token, parent, call := a.call, reduced := a.reduced, unary := a.unary }]
  | group a inner, base, parent =>
    { token := a.token, left := some (base + 1), parent, call := a.call, reduced := a.reduced,
      unary := a.unary } ::
      inner.outlineNodes (base + 1) (some base)
  | fork a left right, base, parent =>
    { token := a.token, left := some (base + 1), right := some (base + 1 + left.size), parent,
      call := a.call, reduced := a.reduced, unary := a.unary } ::
      (left.outlineNodes (base + 1) (some base) ++ right.outlineNodes (base + 1 + left.size) (some base))

/-- The copy of a tree, without the keyword of its root. -/
def outline (x : Tree (Label ν)) : Outline :=
  (Expression.extend ⟨#[], 0⟩ (x.outlineNodes 0 none)).modify 0 fun node => { node with call := none }

theorem copies_binary (x : Tree (Label ν)) (base : NodeId) (parent : Option NodeId) :
    Expression.copies x.binary base parent = x.outlineNodes base parent := by
  induction x generalizing base parent with
  | leaf a => rfl
  | group a inner ih => simp [binary, Expression.copies, outlineNodes, ih]
  | fork a left right ihl ihr => simp [binary, Expression.copies, outlineNodes, ihl, ihr]

@[simp] theorem length_outlineNodes (x : Tree (Label ν)) (base : NodeId) (parent : Option NodeId) :
    (x.outlineNodes base parent).length = x.size := by
  rw [← copies_binary, Expression.length_copies, numNodes_binary]

end Tree

namespace Expression

variable {ν : Type} {e : Expression ν} {t : Tree NodeId}

theorem labels_binary (e : Expression ν) (t : Tree NodeId) : e.labels t.binary = (e.view t).binary :=
  (Tree.binary_map _ t).symm

/-- A copy is made of the labels of the subtree alone. -/
theorem extract_eq (spans : e.Spans t) : e.extract t.top = (e.view t).outline := by
  rw [spans.hasSubtree.extract_eq, labels_binary, Tree.copies_binary]
  rfl

end Expression

variable {ν α : Type}

namespace Tree

def numbered : Tree α → NodeId → Tree NodeId
  | leaf _, base => leaf base
  | group _ inner, base => group base (inner.numbered (base + 1))
  | fork _ left right, base => fork base (left.numbered (base + 1)) (right.numbered (base + 1 + left.size))

@[simp] theorem top_numbered (x : Tree α) (base : NodeId) : (x.numbered base).top = base := by
  cases x <;> rfl

theorem binary_numbered (x : Tree α) (base : NodeId) : (x.numbered base).binary = x.binary.numbered base := by
  induction x generalizing base with
  | leaf a => rfl
  | group a inner ih => simp [numbered, binary, BinaryTree.numbered, ih]
  | fork a left right ihl ihr => simp [numbered, binary, BinaryTree.numbered, ihl, ihr]

theorem flatten_numbered (x : Tree α) (base : NodeId) :
    (x.numbered base).flatten = List.range' base x.size := by
  rw [← preorder_binary, binary_numbered, BinaryTree.preorder_numbered, numNodes_binary]

theorem binary_ne_nil (x : Tree α) : x.binary ≠ .nil := by
  cases x <;> nofun

theorem binary_injective : Function.Injective (binary : Tree α → BinaryTree α) := by
  intro x y same
  induction x generalizing y with
  | leaf a => cases y <;> simp_all [binary, (binary_ne_nil _).symm]
  | group a inner ih =>
    cases y with
    | leaf b => simp [binary, binary_ne_nil] at same
    | group b inner' =>
      obtain ⟨rfl, below, -⟩ := BinaryTree.node.inj same
      rw [ih below]
    | fork b left' right' => simp [binary, (binary_ne_nil _).symm] at same
  | fork a left right ihl ihr =>
    cases y with
    | leaf b => simp [binary, binary_ne_nil] at same
    | group b inner' => simp [binary, binary_ne_nil] at same
    | fork b left' right' =>
      obtain ⟨rfl, lefts, rights⟩ := BinaryTree.node.inj same
      rw [ihl lefts, ihr rights]

/-- An array that holds the nodes of a copy from `base` on holds them as the tree says. -/
theorem laid_numbered {x : Tree (Label ν)} {copy : Outline} {base : NodeId} {parent : Option NodeId}
    (laid : ∀ k node, (x.outlineNodes base parent)[k]? = some node → copy.node (base + k) = node) :
    copy.Links (x.numbered base) ∧ copy.view (x.numbered base) = x.map Label.copy := by
  rw [← copies_binary] at laid
  obtain ⟨joins, -, labels⟩ := Expression.laid_copies laid
  rw [← binary_numbered] at joins labels
  refine ⟨Expression.joins_binary.mp joins, binary_injective ?_⟩
  rw [← Expression.labels_binary, labels, binary_map]

/-- A copy displays its tree. -/
theorem outline_displays (x : Tree (Label ν)) :
    x.outline.Displays ((x.map Label.copy).mapTop fun a => { a with call := none }) := by
  let copy : Outline := Expression.extend ⟨#[], 0⟩ (x.outlineNodes 0 none)
  have size : copy.size = x.size := by
    rw [Expression.size_extend, length_outlineNodes]
    exact Nat.zero_add _
  obtain ⟨links, view⟩ := @laid_numbered ν x copy 0 none fun k node found => by
    simp [copy, Expression.extend, Expression.node_eq, found]
  have spans : copy.Spans (x.numbered 0) := by
    refine ⟨links, ?_, fun id member => ?_⟩
    · rw [flatten_numbered]
      exact List.nodup_range'
    · rw [flatten_numbered] at member
      rw [size]
      exact Nat.zero_add x.size ▸ (List.mem_range'_1.mp member).2
  have top : (x.numbered 0).top = 0 := top_numbered x 0
  have changed := Expression.regrown_modify spans (f := fun node => { node with call := none }) rfl rfl
  have labels := Expression.view_modify spans (f := fun node => { node with call := none })
    (g := fun a => { a with call := none }) fun _ => rfl
  rw [top] at changed labels
  exact ⟨x.numbered 0, changed.spans, top, labels.trans (by rw [view])⟩

end Tree

end Stepwise
