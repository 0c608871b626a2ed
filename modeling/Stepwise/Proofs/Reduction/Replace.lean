import Stepwise.Proofs.Reduction.Search
import Stepwise.Proofs.Tree.Building

/-! A reduction in the array replaces a subtree by what the reduction of the tree gives. -/
namespace Stepwise.Formula

open Expression

variable {e f : Formula}

theorem regrown_collapse {t : Tree NodeId} (spans : e.Spans t) (value : Quantity) :
    Regrown e (e.collapse t.top value) t.flatten (.leaf t.top) ∧
      (e.collapse t.top value).view (.leaf t.top) = .leaf ((e.node t.top).label.collapse value) := by
  have inside := spans.inside _ t.top_mem
  have here := node_modify_self e (fun node => { node with
      token := Content.token value, left := none, right := none, value := some value
      reduced := true, deferred := false, unary := false }) inside
  refine ⟨⟨⟨?_, by simp [Tree.flatten], by simp [Tree.flatten, collapse, inside]⟩, by simp [collapse],
    by simp [Tree.flatten, t.top_mem], fun id _ outside => ?_⟩, ?_⟩
  · exact ⟨by rw [Expression.collapse, here], by rw [Expression.collapse, here]⟩
  · exact node_modify_other e _ fun equal : id = t.top => outside (equal ▸ t.top_mem)
  · rw [view_leaf, Expression.collapse, here]
    rfl

theorem pushValue_becomes (e : Formula) (value : Quantity) :
    Becomes e (e.pushValue value) [] (.leaf e.size) (.value value) :=
  ⟨regrown_push e rfl rfl, by rw [view_leaf, pushValue, node_push_self]; rfl,
    by rw [Tree.top_leaf, pushValue, node_push_self]⟩

/-- Two trees below a node that is in neither of them. -/
theorem regrown_replaceChildren {id : NodeId} {left right : Tree NodeId} (inside : id < e.size)
    (l : e.Spans left) (r : e.Spans right) (nodup : (id :: (left.flatten ++ right.flatten)).Nodup) :
    Regrown e (e.replaceChildren id left.top right.top) (id :: (left.flatten ++ right.flatten))
      (.fork id left right) ∧
      (e.replaceChildren id left.top right.top).view (.fork id left right) =
        .fork (e.node id).label (e.view left) (e.view right) := by
  have outside := (List.nodup_cons.mp nodup).1
  have same : ∀ other ∈ left.flatten ++ right.flatten,
      e.Same (e.replaceChildren id left.top right.top) other :=
    fun other member => by
      have apart : other ≠ id := fun equal => outside (equal ▸ member)
      exact ((same_modify _ apart).setParent ..).setParent ..
  have here : ((e.replaceChildren id left.top right.top).node id).left = some left.top ∧
      ((e.replaceChildren id left.top right.top).node id).right = some right.top ∧
      ((e.replaceChildren id left.top right.top).node id).label = (e.node id).label := by
    refine ⟨by simp [replaceChildren, node_modify_self e _ inside],
      by simp [replaceChildren, node_modify_self e _ inside], ?_⟩
    rw [replaceChildren, label_setParent, label_setParent, node_modify_self e _ inside]
    rfl
  have grown : e.size ≤ (e.replaceChildren id left.top right.top).size := by simp [replaceChildren]
  have l' := l.transport grown fun other member => same other (List.mem_append_left _ member)
  have r' := r.transport grown fun other member => same other (List.mem_append_right _ member)
  refine ⟨⟨⟨⟨here.1, here.2.1, l'.links, r'.links⟩, nodup, ?_⟩, grown, fun _ member => .inl member, ?_⟩, ?_⟩
  · intro other member
    rcases List.mem_cons.mp member with rfl | member
    · exact Nat.lt_of_lt_of_le inside grown
    · exact (List.mem_append.mp member).elim (l'.inside other) (r'.inside other)
  · intro other _ away
    simp only [List.mem_cons, List.mem_append, not_or] at away
    have apart {t : Tree NodeId} (out : other ∉ t.flatten) : other ≠ t.top :=
      fun equal => out (equal ▸ t.top_mem)
    rw [replaceChildren, node_setParent_other _ _ (apart away.2.2), node_setParent_other _ _ (apart away.2.1),
      node_modify_other e _ away.1]
  · rw [view_fork, here.2.2, view_transport fun other member => same other (List.mem_append_left _ member),
      view_transport fun other member => same other (List.mem_append_right _ member)]

/-- In `f` the tree at the root of `t` has become `y`. -/
def Replaces (e : Formula) (t : Tree NodeId) (f : Formula) (y : Tree Mark) : Prop :=
  ∃ u : Tree NodeId, u.top = t.top ∧ Regrown e f t.flatten u ∧ f.view u = y ∧ f.root = e.root

theorem Replaces.displays {t : Tree NodeId} {y : Tree Mark} (replaces : Replaces e t f y)
    (root : t.top = e.root) :
    f.Displays y := by
  obtain ⟨u, top, regrown, view, same⟩ := replaces
  exact ⟨u, regrown.spans, top.trans (root.trans same.symm), view⟩

theorem Replaces.frame {t : Tree NodeId} {y : Tree Mark} (replaces : Replaces e t f y) {other : Tree NodeId}
    (spans : e.Spans other) (apart : ∀ id ∈ other.flatten, id ∉ t.flatten) :
    f.Spans other ∧ f.view other = e.view other := by
  obtain ⟨u, _, regrown, _⟩ := replaces
  have same : ∀ id ∈ other.flatten, f.node id = e.node id := fun id member =>
    regrown.frame id (spans.inside id member) (apart id member)
  exact ⟨spans.frame regrown.grown same, view_frame same⟩

theorem Replaces.group {id : NodeId} {inner : Tree NodeId} {y : Tree Mark} (spans : e.Spans (.group id inner))
    (replaces : Replaces e inner f y) : Replaces e (.group id inner) f (.group (e.node id).label y) := by
  obtain ⟨u, top, regrown, rfl, root⟩ := replaces
  have outside := (List.nodup_cons.mp spans.nodup).1
  have inside := spans.inside id (List.mem_cons_self ..)
  have here : f.node id = e.node id := regrown.frame id inside outside
  have fresh : id ∉ u.flatten := fun member =>
    (regrown.known id member).elim outside (Nat.not_le_of_lt inside)
  refine ⟨.group id u, rfl, ⟨⟨⟨?_, ?_, regrown.spans.links⟩, ?_, ?_⟩, regrown.grown, ?_, ?_⟩, ?_, root⟩
  · rw [here, spans.links.1, top]
  · rw [here, spans.links.2.1]
  · exact List.nodup_cons.mpr ⟨fresh, regrown.spans.nodup⟩
  · intro other member
    rcases List.mem_cons.mp member with rfl | member
    · exact Nat.lt_of_lt_of_le inside regrown.grown
    · exact regrown.spans.inside other member
  · intro other member
    rcases List.mem_cons.mp member with rfl | member
    · exact .inl (List.mem_cons_self ..)
    · exact (regrown.known other member).imp_left (List.mem_cons_of_mem _)
  · exact fun other known away => regrown.frame other known fun member => away (List.mem_cons_of_mem _ member)
  · rw [view_group, here]

/-- One operand is replaced, the other one stays. -/
theorem Replaces.fork {id : NodeId}
    {left right : Tree NodeId} (spans : e.Spans (.fork id left right))
    {l r : Tree NodeId} (lspans : f.Spans l) (rspans : f.Spans r)
    (ltop : l.top = left.top) (rtop : r.top = right.top) (grown : e.size ≤ f.size)
    (known : ∀ j ∈ l.flatten ++ r.flatten, j ∈ left.flatten ++ right.flatten ∨ e.size ≤ j)
    (apart : (l.flatten ++ r.flatten).Nodup) (root : f.root = e.root)
    (frame : ∀ j, j < e.size → j ∉ left.flatten ++ right.flatten → f.node j = e.node j) :
    Replaces e (.fork id left right) f (.fork (e.node id).label (f.view l) (f.view r)) := by
  have outside := (List.nodup_cons.mp spans.nodup).1
  have inside := spans.inside id (List.mem_cons_self ..)
  have here : f.node id = e.node id := frame id inside outside
  have fresh : id ∉ l.flatten ++ r.flatten := fun member =>
    (known id member).elim outside (Nat.not_le_of_lt inside)
  refine ⟨.fork id l r, rfl, ⟨⟨⟨?_, ?_, lspans.links, rspans.links⟩, ?_, ?_⟩, grown, ?_, ?_⟩, ?_, root⟩
  · rw [here, spans.links.1, ltop]
  · rw [here, spans.links.2.1, rtop]
  · exact List.nodup_cons.mpr ⟨fresh, apart⟩
  · intro other member
    rcases List.mem_cons.mp member with rfl | member
    · exact Nat.lt_of_lt_of_le inside grown
    · exact (List.mem_append.mp member).elim (lspans.inside other) (rspans.inside other)
  · intro other member
    rcases List.mem_cons.mp member with rfl | member
    · exact .inl (List.mem_cons_self ..)
    · exact (known other member).imp_left (List.mem_cons_of_mem _)
  · exact fun other old away => frame other old fun member => away (List.mem_cons_of_mem _ member)
  · rw [view_fork, here]

theorem Replaces.left {id : NodeId} {left right : Tree NodeId} {y : Tree Mark}
    (spans : e.Spans (.fork id left right)) (replaces : Replaces e left f y) :
    Replaces e (.fork id left right) f (.fork (e.node id).label y (e.view right)) := by
  have disjoint := (List.nodup_append.mp (List.nodup_cons.mp spans.nodup).2).2.2
  obtain ⟨kept, view⟩ := replaces.frame spans.right fun j member other => disjoint j other j member rfl
  obtain ⟨u, top, regrown, rfl, root⟩ := replaces
  rw [← view]
  refine .fork spans regrown.spans kept top rfl regrown.grown (fun j member => ?_)
    (List.nodup_append.mpr ⟨regrown.spans.nodup, kept.nodup, fun j member k other equal => ?_⟩) root
    fun j old away => regrown.frame j old fun member => away (List.mem_append_left _ member)
  · rcases List.mem_append.mp member with member | member
    · exact (regrown.known j member).imp_left (List.mem_append_left _)
    · exact .inl (List.mem_append_right _ member)
  · subst equal
    rcases regrown.known j member with old | new
    · exact disjoint j old j other rfl
    · exact Nat.not_lt_of_le new (spans.right.inside j other)

theorem Replaces.right {id : NodeId} {left right : Tree NodeId} {y : Tree Mark}
    (spans : e.Spans (.fork id left right)) (replaces : Replaces e right f y) :
    Replaces e (.fork id left right) f (.fork (e.node id).label (e.view left) y) := by
  have disjoint := (List.nodup_append.mp (List.nodup_cons.mp spans.nodup).2).2.2
  obtain ⟨kept, view⟩ := replaces.frame spans.left fun j member other => disjoint j member j other rfl
  obtain ⟨u, top, regrown, rfl, root⟩ := replaces
  rw [← view]
  refine .fork spans kept regrown.spans rfl top regrown.grown (fun j member => ?_)
    (List.nodup_append.mpr ⟨kept.nodup, regrown.spans.nodup, fun j other k member equal => ?_⟩) root
    fun j old away => regrown.frame j old fun member => away (List.mem_append_right _ member)
  · rcases List.mem_append.mp member with member | member
    · exact .inl (List.mem_append_left _ member)
    · exact (regrown.known j member).imp_left (List.mem_append_right _)
  · subst equal
    rcases regrown.known j member with old | new
    · exact disjoint j other j old rfl
    · exact Nat.not_lt_of_le new (spans.left.inside j other)

/-- Both operands are replaced, one after the other. -/
theorem Replaces.both {g : Formula} {id : NodeId} {left right : Tree NodeId} {y z : Tree Mark}
    (spans : e.Spans (.fork id left right)) (first : Replaces e left f y) (second : Replaces f right g z) :
    Replaces e (.fork id left right) g (.fork (e.node id).label y z) := by
  have disjoint := (List.nodup_append.mp (List.nodup_cons.mp spans.nodup).2).2.2
  obtain ⟨l, ltop, lregrown, rfl, lroot⟩ := first
  have apart : ∀ j ∈ l.flatten, j ∉ right.flatten := fun j member other => by
    rcases lregrown.known j member with old | new
    · exact disjoint j old j other rfl
    · exact Nat.not_lt_of_le new (spans.right.inside j other)
  obtain ⟨kept, view⟩ := second.frame lregrown.spans apart
  obtain ⟨r, rtop, rregrown, rfl, rroot⟩ := second
  rw [← view]
  refine .fork spans kept rregrown.spans ltop rtop (Nat.le_trans lregrown.grown rregrown.grown)
    (fun j member => ?_)
    (List.nodup_append.mpr ⟨kept.nodup, rregrown.spans.nodup, fun j member k other equal => ?_⟩)
    (rroot.trans lroot) fun j old away => ?_
  · rcases List.mem_append.mp member with member | member
    · exact (lregrown.known j member).imp_left (List.mem_append_left _)
    · rcases rregrown.known j member with old | new
      · exact .inl (List.mem_append_right _ old)
      · exact .inr (Nat.le_trans lregrown.grown new)
  · subst equal
    rcases rregrown.known j other with old | new
    · exact apart j member old
    · exact Nat.not_lt_of_le new (lregrown.spans.inside j member)
  · rw [rregrown.frame j (Nat.lt_of_lt_of_le old lregrown.grown) fun member =>
      away (List.mem_append_right _ member), lregrown.frame j old fun member =>
      away (List.mem_append_left _ member)]

theorem Replaces.of_regrown {t u : Tree NodeId} {y : Tree Mark} (regrown : Regrown e f t.flatten u)
    (view : f.view u = y) (top : u.top = t.top) (root : f.root = e.root) : Replaces e t f y :=
  ⟨u, top, regrown, view, root⟩

/-- A tree that is one leaf after a first change may be changed once more. -/
theorem replaces_modify {t : Tree NodeId}
    {x : Tree Mark} (replaces : Replaces e t f x) {change : Node Quantity → Node Quantity}
    {g : Mark → Mark} (label : ∀ node, (change node).label = g node.label)
    (left : ∀ node, (change node).left = node.left)
    (right : ∀ node, (change node).right = node.right) :
    Replaces e t (f.modify t.top change) (x.mapTop g) := by
  obtain ⟨u, top, regrown, rfl, root⟩ := replaces
  have changed := regrown_modify regrown.spans (left _) (right _)
  rw [← top]
  exact .of_regrown (regrown.trans changed regrown.known) (view_modify regrown.spans label) top root

theorem callTerm_eq {t : Tree NodeId} (spans : e.Spans t) (keyword : String) (before : Option Quantity) :
    callTerm e t.top keyword before = (e.view t).callTerm keyword before := by
  have top : (e.view t).top = (e.node t.top).label := by simp [Expression.view]
  have isLeaf : (e.view t).isLeaf = (e.node t.top).isLeaf := by simp [Expression.view, spans.links.isLeaf_eq]
  simp only [callTerm, Tree.callTerm, top, isLeaf, extract_eq spans]
  rfl

theorem settle_replaces {t : Tree NodeId} (spans : e.Spans t) (value : Quantity) :
    Replaces e t (settle e t.top value) (.settled (e.node t.top).label value) := by
  obtain ⟨regrown, view⟩ := regrown_collapse spans value
  have collapsed : Replaces e t (e.collapse t.top value) _ := .of_regrown regrown view rfl rfl
  unfold settle Tree.settled
  have same : (e.node t.top).label.termKeyword? = termKeyword? (e.node t.top) := rfl
  have derivative : (e.node t.top).label.isDerivative = isDerivative (e.node t.top) := rfl
  cases called : termKeyword? (e.node t.top) with
  | some keyword =>
    have term := callTerm_eq regrown.spans keyword (e.node t.top).value
    rw [view, Tree.top_leaf] at term
    simp only [same, called, term]
    exact replaces_modify (g := fun a => { a with value := some _ }) collapsed (fun _ => rfl)
      (fun _ => rfl) fun _ => rfl
  | none =>
    simp only [same, called, derivative]
    split
    · exact replaces_modify (g := fun a => { a with reduced := false }) collapsed (fun _ => rfl)
        (fun _ => rfl) fun _ => rfl
    · exact collapsed

theorem defer_replaces {t : Tree NodeId} (spans : e.Spans t) :
    Replaces e t (defer e t.top) (e.view t).defer :=
  .of_regrown (regrown_modify spans rfl rfl) (view_modify spans fun _ => rfl) rfl rfl

theorem settleEquation_replaces {t : Tree NodeId} (spans : e.Spans t) :
    Replaces e t (settleEquation e t.top) (e.view t).settleEquation :=
  .of_regrown (regrown_modify spans rfl rfl) (view_modify spans fun _ => rfl) rfl rfl

/-- A value that a call has become, in place of the call. -/
theorem uncall_replaces {t : Tree NodeId} (spans : e.Spans t) (value : Quantity) :
    Replaces e t ((e.modify t.top fun node => { node with call := none }).collapse t.top value)
      (.leaf ({ (e.node t.top).label with call := none }.collapse value)) := by
  have kept := regrown_modify spans (f := fun node => { node with call := none }) rfl rfl
  obtain ⟨regrown, view⟩ := regrown_collapse kept.spans value
  refine .of_regrown (kept.trans regrown kept.known) ?_ rfl rfl
  rw [view, node_modify_self e _ (spans.inside _ t.top_mem)]
  rfl

theorem differentiate_replaces {t : Tree NodeId} (spans : e.Spans t) :
    Replaces e t (differentiate e t.top) (e.view t).differentiate := by
  have top : (e.view t).top = (e.node t.top).label := by simp [Expression.view]
  have value : (e.node t.top).label.value = (e.node t.top).value := rfl
  unfold differentiate Tree.differentiate
  rw [top, value]
  cases (e.node t.top).value.bind Quantity.derivative? with
  | none => exact defer_replaces spans
  | some value => exact uncall_replaces spans value

/-- Two trees of new nodes and of nodes below a fork take the place of its operands. -/
theorem replaceChildren_replaces {id : NodeId}
    {left right l r : Tree NodeId} (spans : e.Spans (.fork id left right)) (lspans : f.Spans l)
    (rspans : f.Spans r) (apart : (l.flatten ++ r.flatten).Nodup) (grown : e.size ≤ f.size)
    (known : ∀ j ∈ l.flatten ++ r.flatten, j ∈ left.flatten ++ right.flatten ∨ e.size ≤ j)
    (frame : ∀ j, j < e.size → j ∉ left.flatten ++ right.flatten → f.node j = e.node j)
    (root : f.root = e.root) :
    Replaces e (.fork id left right) (f.replaceChildren id l.top r.top)
      (.fork (e.node id).label (f.view l) (f.view r)) := by
  have outside := (List.nodup_cons.mp spans.nodup).1
  have inside := spans.inside id (List.mem_cons_self ..)
  have fresh : id ∉ l.flatten ++ r.flatten := fun member =>
    (known id member).elim outside (Nat.not_le_of_lt inside)
  obtain ⟨regrown, view⟩ := regrown_replaceChildren (Nat.lt_of_lt_of_le inside grown) lspans rspans
    (List.nodup_cons.mpr ⟨fresh, apart⟩)
  refine .of_regrown ⟨regrown.spans, Nat.le_trans grown regrown.grown, fun j member => ?_,
    fun j old away => ?_⟩ ?_ rfl root
  · rcases List.mem_cons.mp member with rfl | member
    · exact .inl (List.mem_cons_self ..)
    · exact (known j member).imp_left (List.mem_cons_of_mem _)
  · have off : j ∉ left.flatten ++ right.flatten := fun member => away (List.mem_cons_of_mem _ member)
    rw [regrown.frame j (Nat.lt_of_lt_of_le old grown) fun member => ?_, frame j old off]
    rcases List.mem_cons.mp member with rfl | member
    · exact away (List.mem_cons_self ..)
    · exact (known j member).elim off (Nat.not_le_of_lt old)
  · rw [view, frame id inside outside]

/-- New values and an operator over the right side take the place of both sides. -/
theorem transfer_replaces {id : NodeId} {left right : Tree NodeId} (spans : e.Spans (.fork id left right))
    (term amount : Quantity) (operator : Token) :
    Replaces e (.fork id left right)
      ((((e.pushValue term).pushValue amount).pushBinary operator right.top
      (e.size + 1)).replaceChildren id e.size
        (e.size + 2))
      (.fork (e.node id).label (.value term)
      (.fork { token := operator } (e.view right) (.value amount))) := by
  have one := pushValue_becomes e term
  obtain ⟨kept, same, _⟩ := one.regrown.keeps spans.right
  have two := (pushValue_becomes (e.pushValue term) amount).behind kept operator
  have size : (e.pushValue term).size = e.size + 1 := size_push ..
  have size' : ((e.pushValue term).pushValue amount).size = e.size + 2 := by rw [pushValue, size_push, size]
  simp only [size, size', same, Tree.top_leaf] at two
  have away : e.size ∉ right.flatten := fun member => Nat.lt_irrefl _ (spans.right.inside _ member)
  have bare : ∀ j ∈ (Tree.leaf e.size).flatten, j < e.size + 1 ∧ j ∉ right.flatten := fun j member => by
    obtain rfl : j = e.size := by simpa [Tree.flatten] using member
    exact ⟨Nat.lt_succ_self _, away⟩
  have stays : ∀ j ∈ (Tree.leaf e.size).flatten, _ := fun j member =>
    two.regrown.frame j (size ▸ (bare j member).1) (bare j member).2
  have grown := two.regrown.grown
  rw [size] at grown
  have replaced := replaceChildren_replaces spans (one.regrown.spans.frame two.regrown.grown stays)
    two.regrown.spans (List.nodup_append.mpr
    ⟨one.regrown.spans.nodup, two.regrown.spans.nodup, fun j new k member equal => ?_⟩)
    (Nat.le_of_succ_le grown) (fun j member => ?_) (fun j old off => ?_) rfl
  · rw [view_frame stays, one.view, two.view] at replaced
    exact replaced
  · subst equal
    rcases two.regrown.known j member with other | other
    · exact (bare j new).2 other
    · exact Nat.not_le_of_lt (bare j new).1 (size ▸ other)
  · rcases List.mem_append.mp member with member | member
    · exact (one.regrown.known j member).imp_left fun old => by cases old
    · rcases two.regrown.known j member with member | new
      · exact .inl (List.mem_append_right _ member)
      · rw [size] at new
        exact .inr (Nat.le_of_succ_le new)
  · rw [two.regrown.frame j (size ▸ Nat.lt_succ_of_lt old) fun member => off (List.mem_append_right _ member),
      one.regrown.frame j old List.not_mem_nil]

theorem moveOver_replaces {id : NodeId} {left right : Tree NodeId} (spans : e.Spans (.fork id left right)) :
    Replaces e (.fork id left right) (moveOver e id left.top right.top)
      (.moveOver (e.node id).label (e.view left) (e.view right)) := by
  have disjoint := (List.nodup_cons.mp spans.nodup).2
  have moved := Becomes.pushBinary (.inserted .minus "-") spans.left spans.right disjoint
  let g := e.pushBinary (.inserted .minus "-") left.top right.top
  have size : g.size = e.size + 1 := size_pushBinary ..
  have zero := pushValue_becomes g (.constant 0.0)
  obtain ⟨kept, same, apart⟩ := zero.regrown.keeps moved.regrown.spans
  rw [size] at zero
  have replaced := replaceChildren_replaces spans kept zero.regrown.spans
    (List.perm_append_comm.nodup_iff.mp (size ▸ apart)) (Nat.le_trans moved.regrown.grown zero.regrown.grown)
    (fun j member => ?_) (fun j old off => ?_) rfl
  · rw [same, moved.view, zero.view] at replaced
    exact replaced
  · rcases List.mem_append.mp member with member | member
    · exact moved.regrown.known j member
    · obtain rfl : j = e.size + 1 := by simpa [Tree.flatten] using member
      exact .inr (Nat.le_succ _)
  · rw [zero.regrown.frame j (size ▸ Nat.lt_succ_of_lt old) List.not_mem_nil, moved.regrown.frame j old off]

theorem moveOffset_eq (e : Formula) (id right : NodeId) (p : Polynomial) :
    moveOffset e id right p =
      (((e.pushValue (.polynomial (.monomial (p.coefficient 1) 1 p.letter))).pushValue
        (.constant (Tree.offsetMove p).2)).pushBinary (Tree.offsetMove p).1 right
        (e.size + 1)).replaceChildren id e.size
        (e.size + 2) := by
  by_cases negative : p.coefficient 0 < 0.0 <;>
    simp only [moveOffset, Tree.offsetMove, negative, if_true, if_false]

theorem isolate_replaces {t : Tree NodeId} (spans : e.Spans t) :
    Replaces e t (isolate e t.top).1 (e.view t).isolate := by
  cases t with
  | leaf id =>
    simp only [isolate, Tree.top_leaf, spans.links.1, view_leaf, Tree.isolate]
    exact settleEquation_replaces spans
  | group id inner =>
    simp only [isolate, Tree.top_group, spans.links.1, spans.links.2.1, view_group, Tree.isolate]
    exact settleEquation_replaces spans
  | fork id left right =>
    have value (u : Tree NodeId) : (e.view u).top.value = (e.node u.top).value := by
      simp [Expression.view, Node.label]
    have linear : (e.view left).linear? = linear? e left.top := by
      rw [Tree.linear?, value]
      rfl
    simp only [isolate, Tree.top_fork, spans.links.1, spans.links.2.1, view_fork, Tree.isolate, value, linear]
    split
    · exact moveOver_replaces spans
    · cases linear? e left.top with
      | none => exact settleEquation_replaces spans
      | some p =>
        simp only
        split
        · rw [moveOffset_eq]
          exact transfer_replaces spans _ _ _
        · split
          · exact transfer_replaces spans _ _ _
          · exact settleEquation_replaces spans

/-- The operands of a node combine to what those of the tree do. -/
theorem combination_eq {t : Tree NodeId} (links : e.Links t) :
    combination e (e.node t.top) =
      Tree.combination (e.node t.top).label (e.view t).operands.1 (e.view t).operands.2 := by
  have value (u : Tree NodeId) : (e.view u).top.value = (e.node u.top).value := by
    simp [Expression.view, Node.label]
  cases t with
  | leaf id => simp only [combination, Tree.top_leaf, links.1, links.2]; rfl
  | group id inner =>
    simp only [combination, Tree.top_group, links.1, links.2.1, view_group, Tree.operands, value]
    rfl
  | fork id left right =>
    simp only [combination, Tree.top_fork, links.1, links.2.1, view_fork, Tree.operands, value]
    rfl

/-- A reduction in the array ends like the reduction of the tree. -/
theorem reduce_alike {t : Tree NodeId} (spans : e.Spans t) :
    Alike (Replaces e t) (reduce e t.top) (e.view t).reduceTop := by
  have isLeaf : (e.view t).isLeaf = (e.node t.top).isLeaf := by simp [Expression.view, spans.links.isLeaf_eq]
  have top : (e.view t).top = (e.node t.top).label := by simp [Expression.view]
  have combined := combination_eq spans.links
  have kind : (e.node t.top).label.token = (e.node t.top).token := rfl
  simp only [reduce, Tree.reduceTop, isLeaf, combined, top, kind]
  split
  · exact differentiate_replaces spans
  · split
    · exact isolate_replaces spans
    · cases Tree.combination (e.node t.top).label (e.view t).operands.1 (e.view t).operands.2 with
      | error error => rfl
      | ok result =>
        cases result with
        | none => exact defer_replaces spans
        | some value => exact settle_replaces spans value

/-- The tree of a formula takes the step that the search and the reduction in the array take. -/
def StepsAlike (e : Formula) (t : Tree NodeId) (found : Option (NodeId × Nat)) : Prop :=
  match found with
  | some (id, _) => ∃ result, (e.view t).step? = some result ∧ Alike (Replaces e t) (reduce e id) result
  | none => (e.view t).step? = none

theorem own_alike {t : Tree NodeId} (spans : e.Spans t)
    (stepped : (e.view t).step? = if (e.view t).isPending then some (e.view t).reduceTop else none) :
    StepsAlike e t (own? e t) := by
  unfold own?
  by_cases pending : (e.view t).isPending
  · simp only [pending, if_true] at stepped ⊢
    exact ⟨_, stepped, reduce_alike spans⟩
  · simp only [pending] at stepped ⊢
    exact stepped

theorem step_alike {t : Tree NodeId} (spans : e.Spans t) : StepsAlike e t (finding e t) := by
  induction t with
  | leaf id => exact own_alike spans rfl
  | group id inner ih =>
    have below := ih spans.group
    cases found : finding e inner with
    | some hit =>
      rw [found] at below
      obtain ⟨result, stepped, alike⟩ := below
      simp only [finding, found, Option.map_some, Option.some_or]
      exact ⟨result.map (.group (e.node id).label), by rw [view_group, Tree.step?, stepped],
        alike.extend fun f y replaces => replaces.group spans⟩
    | none =>
      rw [found] at below
      have still : (e.view inner).step? = none := below
      simp only [finding, found, Option.map_none, Option.none_or]
      exact own_alike spans (by rw [view_group, Tree.step?, still])
  | fork id left right ihl ihr =>
    have onLeft := ihl spans.left
    have onRight := ihr spans.right
    by_cases deeper : Tree.deeper (e.view left).pendingDepth (e.view right).pendingDepth
    · cases found : finding e left with
      | some hit =>
        rw [found] at onLeft
        obtain ⟨result, stepped, alike⟩ := onLeft
        simp only [finding, found, deeper, if_true, Option.map_some]
        exact ⟨result.map fun y => .fork (e.node id).label y (e.view right),
          by simp [view_fork, Tree.step?, deeper,
          stepped], alike.extend fun f y replaces => replaces.left spans⟩
      | none =>
        rw [← finding_depth, found] at deeper
        simp [Tree.deeper] at deeper
    · cases found : finding e right with
      | some hit =>
        rw [found] at onRight
        obtain ⟨result, stepped, alike⟩ := onRight
        simp only [finding, found, deeper, Option.map_some, Option.some_or]
        exact ⟨result.map (.fork (e.node id).label (e.view left)), by simp [view_fork, Tree.step?,
          deeper, stepped], alike.extend fun f y replaces => replaces.right spans⟩
      | none =>
        rw [found] at onRight
        have still : (e.view right).step? = none := onRight
        simp only [finding, found, deeper, Option.map_none, Option.none_or]
        exact own_alike spans (by rw [view_fork, Tree.step?, if_neg deeper, still])

end Stepwise.Formula
