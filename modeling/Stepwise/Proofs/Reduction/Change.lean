import Stepwise.Proofs.Reduction.Replace
import Stepwise.Proofs.Tree.Reciprocal

/-! What one reduction does to the array of nodes: its node gets another content, or it gets new
operands that are pushed behind the old nodes. Main statements: every reduction is such a change,
and which one it is depends on its node and on the operands of its node only. -/
namespace Stepwise

def Node.asLeaf (node : Node Quantity) (a : Mark) : Node Quantity where
  token := a.token
  parent := node.parent
  call := a.call
  value := a.value
  reduced := a.reduced
  deferred := a.deferred
  unary := a.unary

def Node.InScope {ν : Type} (node : Node ν) (n : Nat) : Prop :=
  ∀ k, node.left = some k ∨ node.right = some k ∨ node.parent = some k → k < n

theorem Expression.eq_of_node {ν : Type} {e f : Expression ν} (size : f.size = e.size)
    (root : f.root = e.root) (node : ∀ j < e.size, f.node j = e.node j) : f = e := by
  obtain ⟨nodes, top⟩ := e
  obtain ⟨nodes', top'⟩ := f
  obtain rfl : top' = top := root
  congr
  refine Array.ext size fun j inside inside' => ?_
  simpa [Expression.node, Array.getD, inside, inside'] using node j inside'

namespace Formula

open Expression

/-- A reduction replaces the content of its node, or it moves terms of an equation. -/
inductive Change where
  | content (changed : Node Quantity)
  /-- `l = r` becomes `l - r = 0`. -/
  | gather (left right : NodeId)
  /-- `l = r` becomes `term = r ∘ amount` for an operator. -/
  | transfer (right : NodeId) (term amount : Quantity) (operator : Token)

namespace Change

/-- What becomes of the node `j` when `id` is reduced in an array of `n` nodes. -/
def old (c : Change) (id n j : NodeId) (before : Node Quantity) : Node Quantity :=
  match c with
  | content changed => if j = id then changed else before
  | gather left right =>
    if j = id then { before with left := some n, right := some (n + 1) }
    else if j = left ∨ j = right then { before with parent := some n }
    else before
  | transfer right _ _ _ =>
    if j = id then { before with left := some n, right := some (n + 2) }
    else if j = right then { before with parent := some (n + 2) }
    else before

def new (c : Change) (id n : NodeId) : List (Node Quantity) :=
  let held (value : Quantity) (parent : NodeId) : Node Quantity :=
    { token := Content.token value, value := some value, reduced := true, parent := some parent }
  match c with
  | content _ => []
  | gather left right =>
    [{ token := .inserted .minus "-", left := some left, right := some right, parent := some id },
      held (.constant 0.0) id]
  | transfer right term amount operator =>
    [held term id, held amount (n + 2),
      { token := operator, left := some right, right := some (n + 1), parent := some id }]

def count : Change → Nat
  | content _ => 0
  | gather _ _ => 2
  | transfer _ _ _ _ => 3

def operands : Change → List NodeId
  | content _ => []
  | gather left right => [left, right]
  | transfer right _ _ _ => [right]

theorem length_new (c : Change) (id n : NodeId) : (c.new id n).length = c.count := by
  cases c <;> rfl

/-- Only the node and its operands change. -/
theorem old_of_apart {c : Change} {id n j : NodeId} (apart : j ∉ id :: c.operands) (before : Node Quantity) :
    c.old id n j before = before := by
  cases c <;> simp_all [old, operands]

end Change

def perform (e : Formula) (id : NodeId) (c : Change) : Formula where
  nodes := e.nodes.mapIdx (c.old id e.size) ++ (c.new id e.size).toArray
  root := e.root

variable {e f : Formula} {id : NodeId} {c : Change}

@[simp] theorem size_perform (e : Formula) (id : NodeId) (c : Change) :
    (perform e id c).size = e.size + c.count := by
  simp [perform, Expression.size, Change.length_new]

@[simp] theorem root_perform (e : Formula) (id : NodeId) (c : Change) : (perform e id c).root = e.root := rfl

theorem node_perform (e : Formula) (id : NodeId) (c : Change) (j : NodeId) : (perform e id c).node j =
    if j < e.size then c.old id e.size j (e.node j) else ((c.new id e.size)[j - e.size]?).getD default := by
  simp only [node_eq, perform, Array.getElem?_append, Array.size_mapIdx, Expression.size]
  by_cases inside : j < e.nodes.size
  · simp [inside]
  · simp [inside]

/-- A change of one node. -/
theorem modify_eq_perform (inside : id < e.size) (change : Node Quantity → Node Quantity) :
    e.modify id change = perform e id (.content (change (e.node id))) := by
  refine eq_of_node (by simp [Change.count]) rfl fun j known => ?_
  have old : j < e.size := by simpa [Change.count] using known
  rw [node_perform, node_modify, if_pos old]
  by_cases here : j = id
  · subst here
    simp [old, Change.old]
  · simp [here, Change.old]

theorem modify_modify (e : Formula) (id : NodeId) (first second : Node Quantity → Node Quantity) :
    (e.modify id first).modify id second = e.modify id fun node => second (first node) := by
  refine eq_of_node (by simp) rfl fun j _ => ?_
  simp only [node_modify, size_modify]
  split <;> rfl

/-- Two other nodes as the operands of a node. -/
theorem node_replaceChildren {left right j : NodeId} (inside : id < e.size) (l : left < e.size)
    (r : right < e.size) (first : left ≠ id) (second : right ≠ id) :
    (e.replaceChildren id left right).node j =
      if j = id then { e.node j with left := some left, right := some right }
      else if j = left ∨ j = right then { e.node j with parent := some id } else e.node j := by
  simp only [replaceChildren, setParent, node_modify, size_modify]
  by_cases top : j = id
  · subst top
    simp [inside, Ne.symm first, Ne.symm second]
  · by_cases one : j = left <;> by_cases two : j = right <;> simp_all

theorem node_pushed {token : Token} {left right j : NodeId} (l : left < e.size) (r : right < e.size) :
    (e.pushBinary token left right).node j =
      if j = e.size then { token, left := some left, right := some right }
      else if j = left ∨ j = right then { e.node j with parent := some e.size } else e.node j := by
  by_cases top : j = e.size
  · rw [if_pos top, top, node_pushBinary e token l r]
  · simp only [pushBinary, setParent, node_modify, size_modify, size_push, node_push, if_neg top]
    have l' := Nat.lt_succ_of_lt l
    have r' := Nat.lt_succ_of_lt r
    by_cases one : j = left <;> by_cases two : j = right <;> simp_all

structure Change.Sits (e : Formula) (id : NodeId) (c : Change) : Prop where
  inside : id < e.size
  operands : ∀ k ∈ c.operands, k < e.size ∧ k ≠ id

theorem moveOver_eq_perform {left right : NodeId} (sits : (Change.gather left right).Sits e id) :
    moveOver e id left right = perform e id (.gather left right) := by
  obtain ⟨l, first⟩ := sits.operands left (by simp [Change.operands])
  obtain ⟨r, second⟩ := sits.operands right (by simp [Change.operands])
  have inside := sits.inside
  have away {k : NodeId} (small : k < e.size) : k ≠ e.size ∧ k ≠ e.size + 1 :=
    ⟨Nat.ne_of_lt small, Nat.ne_of_lt (Nat.lt_succ_of_lt small)⟩
  refine eq_of_node (by simp [moveOver, replaceChildren, pushValue, Change.count])
    (by simp [moveOver, replaceChildren, pushValue, pushBinary]) fun j known => ?_
  have node : (moveOver e id left right).node j = _ := node_replaceChildren
    (by simpa [pushValue] using Nat.le_succ_of_le (Nat.le_of_lt inside)) (by simp [pushValue])
    (by simp [pushValue])
    (away inside).1.symm (away inside).2.symm
  rw [node, node_perform, pushValue, node_push, node_pushed l r, size_pushBinary]
  rw [size_perform, Change.count] at known
  rcases Nat.lt_succ_iff_lt_or_eq.mp known with known | rfl
  · rcases Nat.lt_succ_iff_lt_or_eq.mp known with old | rfl
    · simp only [old, away old, if_true, if_false, or_self, Change.old]
      by_cases top : j = id
      · subst top
        simp [Ne.symm first, Ne.symm second]
      · simp [top]
    · simp [(away inside).1.symm, Change.new]
  · simp [(away inside).2.symm, Change.new]

theorem transfer_eq_perform {right : NodeId} {term amount : Quantity} {operator : Token}
    (sits : (Change.transfer right term amount operator).Sits e id) :
    (((e.pushValue term).pushValue amount).pushBinary operator right (e.size + 1)).replaceChildren
    id e.size (e.size + 2) =
      perform e id (.transfer right term amount operator) := by
  obtain ⟨r, apart⟩ := sits.operands right (by simp [Change.operands])
  have inside := sits.inside
  have away {k : NodeId} (small : k < e.size) : k ≠ e.size ∧ k ≠ e.size + 1 ∧ k ≠ e.size + 2 :=
    ⟨Nat.ne_of_lt small, Nat.ne_of_lt (Nat.lt_add_right 1 small), Nat.ne_of_lt (Nat.lt_add_right 2 small)⟩
  have size : ((e.pushValue term).pushValue amount).size = e.size + 2 := by simp [pushValue]
  refine eq_of_node (by simp [replaceChildren, size, Change.count])
    (by simp [replaceChildren, pushValue, pushBinary]) fun j known => ?_
  rw [node_replaceChildren (by simpa [size] using Nat.le_of_lt (Nat.lt_add_right 2 inside)) (by simp [size])
    (by simp [size]) (away inside).1.symm (away inside).2.2.symm, node_perform,
    node_pushed (by simpa [size] using Nat.lt_add_right 2 r) (by simp [size]), size, pushValue,
    node_push, pushValue, node_push, size_push]
  rw [size_perform, Change.count] at known
  rcases Nat.lt_succ_iff_lt_or_eq.mp known with known | rfl
  · rcases Nat.lt_succ_iff_lt_or_eq.mp known with known | rfl
    · rcases Nat.lt_succ_iff_lt_or_eq.mp known with old | rfl
      · simp only [old, away old, if_true, if_false, or_false, or_self, Change.old]
        by_cases top : j = id
        · subst top
          simp [Ne.symm apart]
        · simp [top]
      · simp [(away inside).1.symm, (away r).1.symm, Change.new]
    · simp [(away inside).2.1.symm, (away r).2.1.symm, Change.new]
  · simp [(away inside).2.2.symm, Change.new]

/-! ### Which change a reduction is -/

def rested (node : Node Quantity) : Node Quantity := { node with reduced := true, deferred := false }

def isolation (e : Formula) (id : NodeId) : Change :=
  let settled : Change := .content (rested (e.node id))
  match (e.node id).left, (e.node id).right with
  | some left, some right =>
    if !(e.node right).value.any Quantity.isConstant then .gather left right
    else match linear? e left with
      | some p =>
        if p.coefficient 0 != 0.0 then
          .transfer right (.polynomial (.monomial (p.coefficient 1) 1 p.letter))
            (.constant (Tree.offsetMove p).2)
            (Tree.offsetMove p).1
        else if p.coefficient 1 != 1.0 then
          .transfer right (.polynomial (.monomial 1.0 1 p.letter)) (.constant (p.coefficient 1))
            (.inserted .divide "/")
        else settled
      | none => settled
  | _, _ => settled

def differentiated (node : Node Quantity) : Node Quantity :=
  match node.value.bind Quantity.derivative? with
  | some value => node.asLeaf ({ node.label with call := none }.collapse value)
  | none => { node with deferred := true }

def change? (e : Formula) (id : NodeId) : Except ComputationError Change :=
  let node := e.node id
  if node.isLeaf then .ok (.content (differentiated node))
  else if node.token.kind = .equals then .ok (isolation e id)
  else match combination e node with
    | .ok (some value) => .ok (.content (node.asLeaf (Tree.settled node.label value).top))
    | .ok none => .ok (.content { node with deferred := true })
    | .error error => .error error

theorem differentiate_eq_perform (inside : id < e.size) :
    differentiate e id = perform e id (.content (differentiated (e.node id))) := by
  unfold differentiate differentiated
  cases (e.node id).value.bind Quantity.derivative? with
  | some value =>
    simp only
    rw [Expression.collapse, modify_modify, modify_eq_perform inside]
    rfl
  | none => exact modify_eq_perform inside _

theorem settle_eq_perform {t : Tree NodeId} (spans : e.Spans t) (value : Quantity) : settle e t.top value =
    perform e t.top (.content ((e.node t.top).asLeaf (Tree.settled (e.node t.top).label value).top)) := by
  have inside := spans.inside _ t.top_mem
  obtain ⟨regrown, view⟩ := regrown_collapse spans value
  have same : (e.node t.top).label.termKeyword? = termKeyword? (e.node t.top) := rfl
  have derivative : (e.node t.top).label.isDerivative = isDerivative (e.node t.top) := rfl
  unfold settle Tree.settled
  cases called : termKeyword? (e.node t.top) with
  | some keyword =>
    have term := callTerm_eq regrown.spans keyword (e.node t.top).value
    rw [view, Tree.top_leaf] at term
    simp only [same, called, term]
    rw [setValue, Expression.collapse, modify_modify, modify_eq_perform inside]
    rfl
  | none =>
    simp only [same, called, derivative]
    split
    · rw [Expression.collapse, modify_modify, modify_eq_perform inside]
      rfl
    · exact modify_eq_perform inside _

theorem isolate_eq_perform {t : Tree NodeId} (spans : e.Spans t) :
    (isolate e t.top).1 = perform e t.top (isolation e t.top) := by
  have inside := spans.inside _ t.top_mem
  have settled : settleEquation e t.top = perform e t.top (.content (rested (e.node t.top))) :=
    modify_eq_perform inside _
  cases t with
  | leaf id =>
    simp only [isolate, isolation, Tree.top_leaf, spans.links.1] at settled ⊢
    exact settled
  | group id inner =>
    simp only [isolate, isolation, Tree.top_group, spans.links.1, spans.links.2.1] at settled ⊢
    exact settled
  | fork id left right =>
    have outside := (List.nodup_cons.mp spans.nodup).1
    have operand {u : Tree NodeId} (below : u.flatten ⊆ left.flatten ++ right.flatten) :
        u.top < e.size ∧ u.top ≠ id :=
      ⟨spans.inside _ (List.mem_cons_of_mem _ (below u.top_mem)),
        fun same => outside (same ▸ below u.top_mem)⟩
    have l := operand (List.subset_append_left left.flatten right.flatten)
    have r := operand (List.subset_append_right left.flatten right.flatten)
    simp only [isolate, isolation, Tree.top_fork, spans.links.1, spans.links.2.1] at inside settled ⊢
    have transfer (term amount : Quantity) (operator : Token) := @transfer_eq_perform e id right.top
      term amount operator ⟨inside, fun k member => List.mem_singleton.mp member ▸ r⟩
    split
    · refine moveOver_eq_perform ⟨inside, fun k member => ?_⟩
      simp only [Change.operands, List.mem_cons, List.not_mem_nil, or_false] at member
      rcases member with rfl | rfl
      · exact l
      · exact r
    · cases linear? e left.top with
      | none => exact settled
      | some p =>
        simp only
        split
        · rw [← transfer]
          simp only [moveOffset, Tree.offsetMove]
        · split
          · exact transfer _ _ _
          · exact settled

/-- A reduction is a change. -/
theorem reduce_eq_perform {t : Tree NodeId} (spans : e.Spans t) :
    reduce e t.top = (change? e t.top).map (perform e t.top) := by
  have inside := spans.inside _ t.top_mem
  unfold reduce change?
  simp only
  split
  · rw [differentiate_eq_perform inside]
    rfl
  · split
    · rw [isolate_eq_perform spans]
      rfl
    · cases combination e (e.node t.top) with
      | error error => rfl
      | ok result =>
        cases result with
        | some value =>
          simp only
          rw [settle_eq_perform spans]
          rfl
        | none => exact congrArg Except.ok (modify_eq_perform inside _)

theorem isolation_congr (here : f.node id = e.node id) (operands : ∀ k, e.Lists id k → f.node k = e.node k) :
    isolation f id = isolation e id := by
  unfold isolation
  simp only [here]
  cases left : (e.node id).left with
  | none => rfl
  | some l =>
    cases right : (e.node id).right with
    | none => rfl
    | some r => simp only [linear?, operands l (.inl left), operands r (.inr right)]

theorem combination_local (operands : ∀ k, e.Lists id k → f.node k = e.node k) :
    combination f (e.node id) = combination e (e.node id) := by
  have left : (e.node id).left.bind (fun k => (f.node k).value) = (e.node id).left.bind fun k =>
      (e.node k).value := by
    cases link : (e.node id).left with
    | none => rfl
    | some k => rw [Option.bind_some, Option.bind_some, operands k (.inl link)]
  have right : (e.node id).right.bind (fun k => (f.node k).value) = (e.node id).right.bind fun k =>
      (e.node k).value := by
    cases link : (e.node id).right with
    | none => rfl
    | some k => rw [Option.bind_some, Option.bind_some, operands k (.inr link)]
  simp only [combination, left, right]

/-- The change depends on the node and on its operands only. -/
theorem change_congr (here : f.node id = e.node id) (operands : ∀ k, e.Lists id k → f.node k = e.node k) :
    change? f id = change? e id := by
  simp only [change?, here, isolation_congr here operands, combination_local operands]

theorem isolation_operands (e : Formula) (id : NodeId) : ∀ k ∈ (isolation e id).operands, e.Lists id k := by
  have nothing : ∀ k ∈ (Change.content (rested (e.node id))).operands, e.Lists id k :=
    fun k member => (List.not_mem_nil member).elim
  unfold isolation
  simp only
  split
  · next left right l r =>
    split
    · intro k member
      rcases List.mem_cons.mp member with rfl | member
      · exact .inl l
      · exact .inr (List.mem_singleton.mp member ▸ r)
    · have moved : ∀ k ∈ [right], e.Lists id k := fun k member => .inr (List.mem_singleton.mp member ▸ r)
      split
      · split
        · exact moved
        · split
          · exact moved
          · exact nothing
      · exact nothing
  · exact nothing

/-- What a change is about stands right below its node, and a new content links to no other nodes. -/
theorem change_within (changed : change? e id = .ok c) : (∀ k ∈ c.operands, e.Lists id k) ∧
    ∀ content n, c = .content content → (e.node id).InScope n → content.InScope n := by
  have content (node : Node Quantity) (within : ∀ n, (e.node id).InScope n → node.InScope n)
      (same : c = .content node) :
      (∀ k ∈ c.operands, e.Lists id k) ∧ ∀ content n, c = .content content → (e.node id).InScope n →
        content.InScope n := by
    subst same
    exact ⟨fun k member => (List.not_mem_nil member).elim, fun _ n same => Change.content.inj same ▸ within n⟩
  have asLeafInScope (a : Mark) : ∀ n, (e.node id).InScope n → ((e.node id).asLeaf a).InScope n := by
    intro n scope k link
    refine scope k (.inr (.inr (link.resolve_left ?_ |>.resolve_left ?_))) <;> simp [Node.asLeaf]
  unfold change? at changed
  simp only at changed
  split at changed
  · refine content _ ?_ (Except.ok.inj changed).symm
    unfold differentiated
    split
    · exact asLeafInScope _
    · exact fun n scope => scope
  · split at changed
    · obtain rfl := Except.ok.inj changed
      refine ⟨isolation_operands e id, fun node n same scope => ?_⟩
      have rest : node = rested (e.node id) := by
        unfold isolation at same
        simp only at same
        repeat' split at same
        all_goals first | exact (Change.content.inj same).symm | cases same
      exact rest ▸ scope
    · split at changed
      · exact content _ (asLeafInScope _) (Except.ok.inj changed).symm
      · refine content _ ?_ (Except.ok.inj changed).symm
        exact fun n scope => scope
      · cases changed

end Formula

end Stepwise
