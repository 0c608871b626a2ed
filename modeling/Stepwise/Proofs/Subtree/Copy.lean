import Stepwise.Proofs.Subtree.Basic

/-! The copy of a subtree of any form. Main statement: its nodes are numbered in the order of the
walk, hang together as the nodes they were copied from do, and are labeled as those are, without
values. -/
namespace BinaryTree

variable {α β : Type}

def mapRoot (f : α → α) : BinaryTree α → BinaryTree α
  | nil => nil
  | node a left right => node (f a) left right

@[simp] theorem numbered_mapRoot (f : α → α) (t : BinaryTree α) (base : Nat) :
    (t.mapRoot f).numbered base = t.numbered base := by
  cases t <;> rfl

@[simp] theorem preorder_mapRoot (f : α → α) (t : BinaryTree α) :
    (t.mapRoot f).preorder = t.preorder.modifyHead f := by
  cases t <;> rfl

@[simp] theorem numbered_map (f : α → β) (t : BinaryTree α) (base : Nat) :
    (t.map f).numbered base = t.numbered base := by
  induction t generalizing base with
  | nil => rfl
  | node a left right ihl ihr => simp [map, numbered, ihl, ihr]

/-- The entries at the places of a tree in its prefix order stand where they stand in the tree. -/
theorem map_numbered (t : BinaryTree α) (front back : List α) :
    (t.numbered front.length).map ((front ++ t.preorder ++ back)[·]?) = t.map some := by
  induction t generalizing front back with
  | nil => rfl
  | node a left right ihl ihr =>
    have leftwards := ihl (front ++ [a]) (right.preorder ++ back)
    have rightwards := ihr (front ++ a :: left.preorder) back
    have lengths : (front ++ [a]).length = front.length + 1 ∧
        (front ++ a :: left.preorder).length = front.length + 1 + left.numNodes := by
      simp [Nat.add_assoc, Nat.add_comm 1]
    rw [lengths.1] at leftwards
    rw [lengths.2] at rightwards
    simp only [List.append_assoc, List.cons_append, List.nil_append] at leftwards rightwards
    simp [numbered, preorder, map, leftwards, rightwards]

end BinaryTree

namespace Stepwise

variable {ν : Type}

def Label.copy (a : Label ν) : Label Empty :=
  { token := a.token, call := a.call, reduced := a.reduced, unary := a.unary }

namespace Expression

open Loop (Leads)

def extend (e : Expression ν) (nodes : List (Node ν)) : Expression ν := ⟨e.nodes ++ nodes.toArray, e.root⟩

theorem push_eq_extend (e : Expression ν) (node : Node ν) : e.push node = e.extend [node] := by
  simp [push, extend]

@[simp] theorem extend_nil (e : Expression ν) : e.extend [] = e := by
  simp [extend]

theorem extend_extend (e : Expression ν) (first second : List (Node ν)) :
    (e.extend first).extend second = e.extend (first ++ second) := by
  simp [extend]

@[simp] theorem size_extend (e : Expression ν) (nodes : List (Node ν)) :
    (e.extend nodes).size = e.size + nodes.length := by
  simp [extend, size]

/-- An old node may as well be changed before new ones are added. -/
theorem modify_extend (e : Expression ν) (nodes : List (Node ν)) {id : NodeId} (f : Node ν → Node ν)
    (inside : id < e.size) : (e.extend nodes).modify id f = (e.modify id f).extend nodes := by
  simp only [size] at inside
  simp only [extend, modify, mk.injEq, and_true]
  apply Array.ext_getElem?
  intro i
  simp only [Array.getElem?_modify, Array.getElem?_append, Array.size_modify]
  by_cases first : i < e.nodes.size
  · simp [first]
  · simp [first, Nat.ne_of_lt (Nat.lt_of_lt_of_le inside (Nat.le_of_not_lt first))]

theorem modify_extend_new (e : Expression ν) (node : Node ν) (nodes : List (Node ν)) (f : Node ν → Node ν) :
    (e.extend (node :: nodes)).modify e.size f = e.extend (f node :: nodes) := by
  simp only [extend, modify, size, mk.injEq, and_true]
  apply Array.ext_getElem?
  intro i
  simp only [Array.getElem?_modify, Array.getElem?_append]
  by_cases first : i < e.nodes.size
  · simp [first, show e.nodes.size ≠ i by omega]
  · by_cases here : e.nodes.size = i
    · simp [← here]
    · obtain ⟨k, hk⟩ : ∃ k, i - e.nodes.size = k + 1 := ⟨i - e.nodes.size - 1, by omega⟩
      simp [first, here, hk]

def labels (e : Expression ν) (t : BinaryTree NodeId) : BinaryTree (Label ν) :=
  t.map fun id => (e.node id).label

@[simp] theorem root_labels (e : Expression ν) (t : BinaryTree NodeId) :
    (e.labels t).root? = t.root?.map fun id => (e.node id).label := t.root_map _

@[simp] theorem numNodes_labels (e : Expression ν) (t : BinaryTree NodeId) :
    (e.labels t).numNodes = t.numNodes :=
  t.numNodes_map _

theorem labels_node (e : Expression ν) (id : NodeId) (left right : BinaryTree NodeId) :
    e.labels (.node id left right) = .node (e.node id).label (e.labels left) (e.labels right) := rfl

/-- The nodes of a copy in prefix order, the first of them at `base`. -/
def copies : BinaryTree (Label ν) → NodeId → Option NodeId → List (Node Empty)
  | .nil, _, _ => []
  | .node a left right, base, parent =>
    { token := a.token, left := (left.numbered (base + 1)).root?,
      right := (right.numbered (base + 1 + left.numNodes)).root?, parent, call := a.call,
      reduced := a.reduced, unary := a.unary } ::
      (copies left (base + 1) (some base) ++ copies right (base + 1 + left.numNodes) (some base))

@[simp] theorem length_copies (x : BinaryTree (Label ν)) (base : NodeId) (parent : Option NodeId) :
    (copies x base parent).length = x.numNodes := by
  induction x generalizing base parent with
  | nil => rfl
  | node a left right ihl ihr => simp [copies, ihl, ihr]

section Linking

variable {copy : Outline}

/-- Linking a new child and adding nodes behind it can be done in either order. -/
theorem linkChild_extend {parent : Option NodeId} (known : ∀ p, parent = some p → p < copy.size)
    (nodes : List (Node Empty)) (source : NodeId) (isLeft : Bool) (id : NodeId) :
    linkChild (copy.extend nodes) ⟨source, parent, isLeft⟩ id =
      (linkChild copy ⟨source, parent, isLeft⟩ id).extend nodes := by
  cases parent with
  | none => rfl
  | some p => exact modify_extend copy nodes _ (known p rfl)

@[simp] theorem size_linkChild (copy : Outline) (pending : Pending) (id : NodeId) :
    (linkChild copy pending id).size = copy.size := by
  unfold linkChild
  split <;> simp

def linkRoot (copy : Outline) (parent : Option NodeId) (isLeft : Bool) : Option NodeId → Outline
  | none => copy
  | some source => linkChild copy ⟨source, parent, isLeft⟩ copy.size

/-- A node that is still without an operand on one side gets the root of what is copied next there. -/
theorem linkRoot_new (isLeft : Bool) {node : Node Empty}
    (missing : (if isLeft then node.left else node.right) = none) (nodes : List (Node Empty))
    (root : Option NodeId) :
    linkRoot (copy.extend (node :: nodes)) (some copy.size) isLeft root =
      copy.extend ((if isLeft then { node with left := root.map fun _ => copy.size + (nodes.length + 1) }
        else { node with right := root.map fun _ => copy.size + (nodes.length + 1) }) :: nodes) := by
  cases root with
  | none =>
    have kept : (if isLeft then { node with left := none } else { node with right := none }) = node := by
      cases isLeft <;> exact missing ▸ rfl
    exact congrArg (fun first => copy.extend (first :: nodes)) kept.symm
  | some source =>
    simp only [linkRoot, linkChild, size_extend, List.length_cons]
    exact modify_extend_new ..

end Linking

theorem leads_extract {e : Expression ν} {t : BinaryTree NodeId} (joins : e.Joins t) (stack : List Pending)
    (parent : Option NodeId) (isLeft : Bool) (copy : Outline) (known : ∀ p, parent = some p → p < copy.size) :
    Leads e.extractStep t.numNodes (t.root?.toList.map (⟨·, parent, isLeft⟩) ++ stack, copy)
      (stack, (linkRoot copy parent isLeft t.root?).extend (copies (e.labels t) copy.size parent)) := by
  induction t generalizing stack parent isLeft copy with
  | nil => exact (extend_nil copy).symm ▸ .refl
  | node id left right ihl ihr =>
    let linked := linkChild copy ⟨id, parent, isLeft⟩ copy.size
    have size : linked.size = copy.size := size_linkChild ..
    let node := outlineNode (e.node id) parent
    have first : e.extractStep (⟨id, parent, isLeft⟩ :: stack, copy) =
        .more (left.root?.toList.map (⟨·, some copy.size, true⟩) ++
          (right.root?.toList.map (⟨·, some copy.size, false⟩) ++ stack), linked.extend [node]) := by
      simp [extractStep, joins.1, joins.2.1, push_eq_extend, linkChild_extend known, linked, node]
    let lefts := copies (e.labels left) (copy.size + 1) (some copy.size)
    let above : Node Empty := { node with left := left.root?.map fun _ => copy.size + 1 }
    have leftwards := ihl joins.2.2.1 (right.root?.toList.map (⟨·, some copy.size, false⟩) ++ stack)
      (some copy.size) true (linked.extend [node]) (by simp [size])
    have onLeft : linkRoot (linked.extend [node]) (some copy.size) true left.root? =
        linked.extend [above] := by
      rw [← size, linkRoot_new true rfl]
      simp [above, size]
    simp only [size_extend, size, List.length_singleton, onLeft, extend_extend,
      List.singleton_append] at leftwards
    have rightwards :=
      ihr joins.2.2.2 stack (some copy.size) false (linked.extend (above :: lefts)) (by simp [size])
    have onRight : linkRoot (linked.extend (above :: lefts)) (some copy.size) false right.root? =
        linked.extend ({ above with
          right := right.root?.map fun _ => copy.size + 1 + left.numNodes } :: lefts) := by
      rw [← size, linkRoot_new false rfl]
      simp [lefts, size, Nat.add_assoc, Nat.add_comm 1]
    have width : copy.size + (above :: lefts).length = copy.size + 1 + left.numNodes := by
      simp [lefts, Nat.add_assoc, Nat.add_comm 1]
    simp only [size_extend, size, width, onRight, extend_extend, List.cons_append] at rightwards
    have whole := Leads.later first (leftwards.trans rightwards)
    simpa [labels_node, copies, linkRoot, outlineNode, Node.label, linked, above, node, lefts,
      Function.comp_def] using whole

/-- A copy is made of the labels of the subtree alone. -/
theorem HasSubtree.extract_eq {e : Expression ν} {id : NodeId} {t : BinaryTree NodeId}
    (subtree : e.HasSubtree id t) :
    e.extract id = (extend ⟨#[], 0⟩ (copies (e.labels t) 0 none)).modify 0 fun node =>
      { node with call := none } := by
  have walk := leads_extract subtree.joins [] none false ⟨#[], 0⟩ (by simp)
  have pos := subtree.numNodes_pos
  rw [subtree.top, Option.toList_some, List.map_singleton, List.singleton_append] at walk
  rw [extract, Loop.run_of_leads walk rfl (subtree.steps_lt (by omega))]
  rfl

/-- Every node below names the one above it, and the topmost names `parent`. -/
def Climbs (e : Expression ν) (parent : Option NodeId) : BinaryTree NodeId → Prop
  | .nil => True
  | .node id left right => (e.node id).parent = parent ∧ e.Climbs (some id) left ∧ e.Climbs (some id) right

/-- An array that holds the nodes of a copy from `base` on holds them as the tree says. -/
theorem laid_copies {x : BinaryTree (Label ν)} {copy : Outline} {base : NodeId} {parent : Option NodeId}
    (laid : ∀ k node, (copies x base parent)[k]? = some node → copy.node (base + k) = node) :
    copy.Joins (x.numbered base) ∧ copy.Climbs parent (x.numbered base) ∧
      copy.labels (x.numbered base) = x.map Label.copy := by
  induction x generalizing base parent with
  | nil => exact ⟨trivial, trivial, rfl⟩
  | node a left right ihl ihr =>
    have here := laid 0 _ rfl
    rw [Nat.add_zero] at here
    have behind (k : Nat) (node : Node Empty)
        (found : (copies left (base + 1) (some base) ++ copies right (base + 1 + left.numNodes)
          (some base))[k]? = some node) :
        copy.node (base + 1 + k) = node := by
      rw [Nat.add_assoc, Nat.add_comm 1]
      exact laid (k + 1) node found
    obtain ⟨joinsl, climbsl, labelsl⟩ := @ihl (base + 1) (some base) fun k node found =>
      behind k node (by rw [List.getElem?_append_left (List.getElem?_eq_some_iff.mp found).1, found])
    obtain ⟨joinsr, climbsr, labelsr⟩ := @ihr (base + 1 + left.numNodes) (some base) fun k node found => by
      rw [Nat.add_assoc (base + 1)]
      refine behind (left.numNodes + k) node ?_
      rw [List.getElem?_append_right (by simp), length_copies, Nat.add_sub_cancel_left, found]
    refine ⟨⟨by rw [here], by rw [here], joinsl, joinsr⟩, ⟨by rw [here], climbsl, climbsr⟩, ?_⟩
    rw [BinaryTree.numbered, labels_node, here, labelsl, labelsr]
    rfl

/-- A copy of the nodes of a subtree in an array of its own. The node at each place has the label of
the one it was copied from, but no value, and at the root no keyword. -/
structure IsCopy (e : Expression ν) (id : NodeId) (t : BinaryTree NodeId) (copy : Outline) : Prop where
  root : copy.root = 0
  size : copy.size = (e.preorder id).length
  subtree : copy.HasSubtree 0 (t.numbered 0)
  climbs : copy.Climbs none (t.numbered 0)
  order : copy.preorder 0 = List.range copy.size
  distinct : (e.preorder id).Nodup
  places : (t.numbered 0).map ((e.preorder id)[·]?) = t.map some
  label : ∀ k source, (e.preorder id)[k]? = some source → (copy.node k).label =
    { token := (e.node source).token, call := if k = 0 then none else (e.node source).call,
      reduced := (e.node source).reduced, unary := (e.node source).unary }

theorem modify_copies (x : BinaryTree (Label ν)) :
    (extend ⟨#[], 0⟩ (copies x 0 none) : Outline).modify 0 (fun node => { node with call := none }) =
      extend ⟨#[], 0⟩ (copies (x.mapRoot fun a => { a with call := none }) 0 none) := by
  cases x with
  | nil => rfl
  | node a left right => exact modify_extend_new ..

namespace HasSubtree

variable {e : Expression ν} {id : NodeId} {t : BinaryTree NodeId}

/-- A copy hangs together as the subtree does, in both directions. -/
theorem extract_laid (subtree : e.HasSubtree id t) : (e.extract id).size = t.numNodes ∧
    (e.extract id).Joins (t.numbered 0) ∧ (e.extract id).Climbs none (t.numbered 0) ∧
      (e.extract id).labels (t.numbered 0) =
      ((e.labels t).mapRoot fun a => { a with call := none }).map Label.copy := by
  let x := (e.labels t).mapRoot fun a => { a with call := none }
  have extracted : e.extract id = extend ⟨#[], 0⟩ (copies x 0 none) := by
    rw [subtree.extract_eq, modify_copies]
  have numbered : x.numbered 0 = t.numbered 0 := by simp [x, labels]
  have size : (extend ⟨#[], 0⟩ (copies x 0 none) : Outline).size = t.numNodes := by
    rw [size_extend, length_copies, ← x.length_preorder]
    simp [x, Expression.size]
  have laid := laid_copies fun k node (found : (copies x 0 none)[k]? = some node) =>
    show (extend ⟨#[], 0⟩ (copies x 0 none) : Outline).node (0 + k) = node by simp [extend, node_eq, found]
  rw [extracted, ← numbered]
  exact ⟨size, laid⟩

theorem extract_hasSubtree (subtree : e.HasSubtree id t) : (e.extract id).HasSubtree 0 (t.numbered 0) := by
  obtain ⟨size, joins, -, -⟩ := subtree.extract_laid
  refine ⟨?_, joins, ?_, ?_⟩
  · rw [BinaryTree.root_numbered, subtree.top, Option.map_some]
  · rw [BinaryTree.preorder_numbered]
    exact List.nodup_range'
  · intro place member
    rw [BinaryTree.preorder_numbered] at member
    rw [size]
    exact Nat.zero_add t.numNodes ▸ (List.mem_range'_1.mp member).2

/-- The node at each place is labeled as the one that it was copied from. -/
theorem label_extract (subtree : e.HasSubtree id t) {k source : NodeId}
    (listed : t.preorder[k]? = some source) :
    ((e.extract id).node k).label =
      { token := (e.node source).token, call := if k = 0 then none else (e.node source).call,
        reduced := (e.node source).reduced, unary := (e.node source).unary } := by
  have inside : k < t.numNodes := t.length_preorder ▸ (List.getElem?_eq_some_iff.mp listed).1
  have entries := congrArg (fun x => x.preorder[k]?) subtree.extract_laid.2.2.2
  simp only [labels, BinaryTree.preorder_map, BinaryTree.preorder_mapRoot,
    BinaryTree.preorder_numbered, List.getElem?_map, List.getElem?_modifyHead,
    List.getElem?_range' inside, listed, Option.map_some, Nat.zero_add, Nat.one_mul] at entries
  by_cases first : k = 0
  · rw [if_pos first] at entries
    rw [if_pos first]
    exact Option.some.inj entries
  · rw [if_neg first] at entries
    rw [if_neg first]
    exact Option.some.inj entries

theorem isCopy_extract (subtree : e.HasSubtree id t) : IsCopy e id t (e.extract id) := by
  obtain ⟨size, -, climbs, labels⟩ := subtree.extract_laid
  have copied := subtree.extract_hasSubtree
  refine ⟨?_, ?_, copied, climbs, ?_, ?_, ?_, ?_⟩
  · rw [subtree.extract_eq]
    rfl
  · rw [size, subtree.preorder_eq, t.length_preorder]
  · rw [copied.preorder_eq, BinaryTree.preorder_numbered, size, List.range_eq_range']
  · rw [subtree.preorder_eq]
    exact subtree.nodup
  · rw [subtree.preorder_eq]
    simpa using t.map_numbered [] []
  · intro k source listed
    rw [subtree.preorder_eq] at listed
    exact subtree.label_extract listed

end HasSubtree

end Expression
end Stepwise
