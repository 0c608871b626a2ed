import Stepwise.Proofs.Tree.Basic

/-! New nodes over old trees. A tree regrows when another takes its place that is made of its nodes
and of new ones; every node outside keeps its contents. -/
namespace Stepwise.Expression

variable {ν : Type}

theorem node_modify (e : Expression ν) (id other : NodeId) (f : Node ν → Node ν) :
    (e.modify id f).node other = if other = id ∧ id < e.size then f (e.node other) else e.node other := by
  by_cases here : other = id
  · subst here
    by_cases inside : other < e.size
    · simp [node_modify_self e f inside, inside]
    · simp only [size] at inside
      simp [node_eq, modify, inside, size]
  · simp [node_modify_other e f here, here]

@[simp] theorem size_setParent (e : Expression ν) (id parent : NodeId) :
    (e.setParent id parent).size = e.size :=
  size_modify ..

@[simp] theorem root_setParent (e : Expression ν) (id parent : NodeId) :
    (e.setParent id parent).root = e.root :=
  rfl

@[simp] theorem left_setParent (e : Expression ν) (id parent other : NodeId) :
    ((e.setParent id parent).node other).left = (e.node other).left := by
  rw [setParent, node_modify]; split <;> rfl

@[simp] theorem right_setParent (e : Expression ν) (id parent other : NodeId) :
    ((e.setParent id parent).node other).right = (e.node other).right := by
  rw [setParent, node_modify]; split <;> rfl

@[simp] theorem label_setParent (e : Expression ν) (id parent other : NodeId) :
    ((e.setParent id parent).node other).label = (e.node other).label := by
  rw [setParent, node_modify]; split <;> rfl

theorem node_setParent_other (e : Expression ν) {id other : NodeId} (parent : NodeId) (apart : other ≠ id) :
    (e.setParent id parent).node other = e.node other :=
  node_modify_other e _ apart

theorem parent_setParent (e : Expression ν) {id : NodeId} (parent : NodeId) (inside : id < e.size) :
    ((e.setParent id parent).node id).parent = some parent := by
  rw [setParent, node_modify_self e _ inside]

def Same (e f : Expression ν) (id : NodeId) : Prop :=
  (f.node id).left = (e.node id).left ∧ (f.node id).right = (e.node id).right ∧
    (f.node id).label = (e.node id).label

theorem Same.of_eq {e f : Expression ν} {id : NodeId} (equal : f.node id = e.node id) : e.Same f id := by
  simp [Same, equal]

theorem Same.setParent {e f : Expression ν} {id : NodeId} (same : e.Same f id) (other parent : NodeId) :
    e.Same (f.setParent other parent) id := by
  simpa [Same] using same

/-- A tree stays as it is when its nodes change their parents only. -/
theorem Spans.transport {e f : Expression ν} {t : Tree NodeId} (spans : e.Spans t) (grown : e.size ≤ f.size)
    (same : ∀ id ∈ t.flatten, e.Same f id) : f.Spans t where
  links := spans.links.congr fun id member => ⟨(same id member).1, (same id member).2.1⟩
  nodup := spans.nodup
  inside id member := Nat.lt_of_lt_of_le (spans.inside id member) grown

theorem view_transport {e f : Expression ν} {t : Tree NodeId} (same : ∀ id ∈ t.flatten, e.Same f id) :
    f.view t = e.view t :=
  Tree.map_congr fun id member => (same id member).2.2

/-- In `f` the tree `u` has taken the place of trees with the nodes `old`. -/
structure Regrown (e f : Expression ν) (old : List NodeId) (u : Tree NodeId) : Prop where
  spans : f.Spans u
  grown : e.size ≤ f.size
  known : ∀ id ∈ u.flatten, id ∈ old ∨ e.size ≤ id
  frame : ∀ id, id < e.size → id ∉ old → f.node id = e.node id

theorem Regrown.trans {e f g : Expression ν} {old middle : List NodeId} {u v : Tree NodeId}
    (first : Regrown e f old u) (second : Regrown f g middle v)
    (known : ∀ id ∈ middle, id ∈ old ∨ e.size ≤ id) : Regrown e g old v where
  spans := second.spans
  grown := Nat.le_trans first.grown second.grown
  known id member := by
    rcases second.known id member with old | new
    · exact known id old
    · exact .inr (Nat.le_trans first.grown new)
  frame id inside outside := by
    have apart : id ∉ middle := fun member => (known id member).elim outside (Nat.not_le_of_lt inside)
    rw [second.frame id (Nat.lt_of_lt_of_le inside first.grown) apart, first.frame id inside outside]

theorem Regrown.weaken {e f : Expression ν} {old more : List NodeId} {u : Tree NodeId}
    (regrown : Regrown e f old u) (sub : old ⊆ more) : Regrown e f more u where
  spans := regrown.spans
  grown := regrown.grown
  known id member := (regrown.known id member).imp_left (sub ·)
  frame id inside outside := regrown.frame id inside fun member => outside (sub member)

/-- A tree is unchanged by one that grows beside it. -/
theorem Regrown.keeps {e f : Expression ν} {u t : Tree NodeId} (regrown : Regrown e f [] u)
    (spans : e.Spans t) :
    f.Spans t ∧ f.view t = e.view t ∧ (u.flatten ++ t.flatten).Nodup := by
  have same : ∀ id ∈ t.flatten, f.node id = e.node id := fun id member =>
    regrown.frame id (spans.inside id member) List.not_mem_nil
  refine ⟨spans.frame regrown.grown same, view_frame same, List.nodup_append.mpr
    ⟨regrown.spans.nodup, spans.nodup, fun id new other member equal => ?_⟩⟩
  subst equal
  rcases regrown.known id new with old | new
  · exact List.not_mem_nil old
  · exact Nat.not_lt_of_le new (spans.inside id member)

theorem regrown_push (e : Expression ν) {node : Node ν} (left : node.left = none)
    (right : node.right = none) :
    Regrown e (e.push node) [] (.leaf e.size) where
  spans := {
    links := by simp [Links, node_push_self, left, right]
    nodup := by simp [Tree.flatten]
    inside := by simp [Tree.flatten] }
  grown := by simp
  known := by simp [Tree.flatten]
  frame id inside _ := node_push_other e node inside

theorem Same.push {e : Expression ν} (node : Node ν) {id : NodeId} (inside : id < e.size) :
    e.Same (e.push node) id :=
  .of_eq (node_push_other e node inside)

theorem same_pushBinary {e : Expression ν} (token : Token) (left right : NodeId) {id : NodeId}
    (inside : id < e.size) : e.Same (e.pushBinary token left right) id :=
  ((Same.push _ inside).setParent ..).setParent ..

theorem node_pushBinary (e : Expression ν) (token : Token) {left right : NodeId} (l : left < e.size)
    (r : right < e.size) :
    (e.pushBinary token left right).node e.size = { token, left := some left, right := some right } := by
  rw [pushBinary, node_setParent_other _ _ (Nat.ne_of_gt r), node_setParent_other _ _ (Nat.ne_of_gt l),
    node_push_self]

@[simp] theorem size_pushBinary (e : Expression ν) (token : Token) (left right : NodeId) :
    (e.pushBinary token left right).size = e.size + 1 := by
  simp [pushBinary]

theorem regrown_pushBinary {e : Expression ν} (token : Token) {left right : Tree NodeId} (l : e.Spans left)
    (r : e.Spans right) (nodup : (left.flatten ++ right.flatten).Nodup) :
    Regrown e (e.pushBinary token left.top right.top) (left.flatten ++ right.flatten)
      (.fork e.size left right) where
  spans := {
    links := by
      have grown : e.size ≤ (e.pushBinary token left.top right.top).size := by simp
      refine ⟨?_, ?_, (l.transport grown fun id member => same_pushBinary _ _ _ (l.inside id member)).links,
        (r.transport grown fun id member => same_pushBinary _ _ _ (r.inside id member)).links⟩
      all_goals rw [node_pushBinary e token (l.inside _ left.top_mem) (r.inside _ right.top_mem)]
    nodup := by
      refine List.nodup_cons.mpr ⟨fun member => ?_, nodup⟩
      rcases List.mem_append.mp member with member | member
      · exact Nat.lt_irrefl _ (l.inside _ member)
      · exact Nat.lt_irrefl _ (r.inside _ member)
    inside := by
      intro id member
      rw [size_pushBinary]
      rcases List.mem_cons.mp member with rfl | member
      · exact Nat.lt_succ_self _
      · rcases List.mem_append.mp member with member | member
        · exact Nat.lt_succ_of_lt (l.inside _ member)
        · exact Nat.lt_succ_of_lt (r.inside _ member) }
  grown := by simp
  known := by
    intro id member
    rcases List.mem_cons.mp member with rfl | member
    · exact .inr (Nat.le_refl _)
    · exact .inl member
  frame id inside outside := by
    have apart (t : Tree NodeId) (sub : t.flatten ⊆ left.flatten ++ right.flatten) :
        id ≠ t.top := fun equal =>
      outside (sub (equal ▸ t.top_mem))
    rw [pushBinary, node_setParent_other _ _ (apart right (List.subset_append_right ..)),
      node_setParent_other _ _ (apart left (List.subset_append_left ..)), node_push_other e _ inside]

theorem view_pushBinary {e : Expression ν} (token : Token) {left right : Tree NodeId} (l : e.Spans left)
    (r : e.Spans right) :
    (e.pushBinary token left.top right.top).view (.fork e.size left right) =
      .fork { token } (e.view left) (e.view right) := by
  have left_eq := view_transport fun id member =>
    same_pushBinary token left.top right.top (l.inside id member)
  have right_eq := view_transport fun id member =>
    same_pushBinary token left.top right.top (r.inside id member)
  simp only [view, Tree.map] at left_eq right_eq ⊢
  rw [left_eq, right_eq, node_pushBinary e token (l.inside _ left.top_mem) (r.inside _ right.top_mem)]
  rfl

theorem regrown_pushLeaf (e : Expression ν) (token : Token) :
    Regrown e (e.push { token }) [] (.leaf e.size) ∧
      (e.push { token }).view (.leaf e.size) = .leaf { token } :=
  ⟨regrown_push e rfl rfl, by simp [view, Tree.map, node_push_self, Node.label]⟩

/-- Changes the label of a node. -/
theorem same_modify {e : Expression ν} {id other : NodeId} (f : Node ν → Node ν) (apart : other ≠ id) :
    e.Same (e.modify id f) other :=
  .of_eq (node_modify_other e f apart)

theorem regrown_modify {e : Expression ν} {t : Tree NodeId} (spans : e.Spans t) {f : Node ν → Node ν}
    (left : (f (e.node t.top)).left = (e.node t.top).left)
    (right : (f (e.node t.top)).right = (e.node t.top).right) :
    Regrown e (e.modify t.top f) t.flatten t where
  spans := {
    links := by
      refine spans.links.congr fun id _ => ?_
      rw [node_modify]
      split
      · next here => rw [here.1]; exact ⟨left, right⟩
      · exact ⟨rfl, rfl⟩
    nodup := spans.nodup
    inside id member := by rw [size_modify]; exact spans.inside id member }
  grown := by simp
  known _ member := .inl member
  frame id _ outside := node_modify_other e f fun equal => outside (equal ▸ t.top_mem)

theorem view_modify {e : Expression ν} {t : Tree NodeId} (spans : e.Spans t) {f : Node ν → Node ν}
    {g : Label ν → Label ν} (label : ∀ node, (f node).label = g node.label) :
    (e.modify t.top f).view t = (e.view t).mapTop g := by
  have here : ((e.modify t.top f).node t.top).label = g (e.node t.top).label := by
    rw [node_modify_self e f (spans.inside _ t.top_mem), label]
  have below (u : Tree NodeId) (apart : t.top ∉ u.flatten) : (e.modify t.top f).view u = e.view u :=
    view_transport fun id member => same_modify f fun equal => apart (equal ▸ member)
  cases t with
  | leaf id => exact congrArg Tree.leaf here
  | group id inner =>
    have apart := (List.nodup_cons.mp spans.nodup).1
    simp only [view, Tree.map, Tree.mapTop, Tree.top] at here below ⊢
    rw [here, below inner apart]
  | fork id l r =>
    have apart := (List.nodup_cons.mp spans.nodup).1
    simp only [List.mem_append, not_or] at apart
    simp only [view, Tree.map, Tree.mapTop, Tree.top] at here below ⊢
    rw [here, below l apart.1, below r apart.2]

structure Becomes (e f : Expression ν) (old : List NodeId) (u : Tree NodeId) (x : Tree (Label ν)) : Prop where
  regrown : Regrown e f old u
  view : f.view u = x
  orphan : (f.node u.top).parent = none

namespace Becomes

theorem trans {e f g : Expression ν} {old middle : List NodeId} {u v : Tree NodeId} {x y : Tree (Label ν)}
    (first : Becomes e f old u x) (second : Becomes f g middle v y)
    (known : ∀ id ∈ middle, id ∈ old ∨ e.size ≤ id) : Becomes e g old v y :=
  ⟨first.regrown.trans second.regrown known, second.view, second.orphan⟩

theorem weaken {e f : Expression ν} {old more : List NodeId} {u : Tree NodeId} {x : Tree (Label ν)}
    (becomes : Becomes e f old u x) (sub : old ⊆ more) : Becomes e f more u x :=
  ⟨becomes.regrown.weaken sub, becomes.view, becomes.orphan⟩

theorem refl {e : Expression ν} {t : Tree NodeId} (spans : e.Spans t)
    (orphan : (e.node t.top).parent = none) :
    Becomes e e t.flatten t (e.view t) :=
  ⟨⟨spans, Nat.le_refl _, fun _ member => .inl member, fun _ _ _ => rfl⟩, rfl, orphan⟩

theorem pushLeaf (e : Expression ν) (token : Token) :
    Becomes e (e.push { token }) [] (.leaf e.size) (.leaf { token }) :=
  ⟨(regrown_pushLeaf e token).1, (regrown_pushLeaf e token).2, by rw [Tree.top_leaf, node_push_self]⟩

theorem pushBinary {e : Expression ν} (token : Token) {left right : Tree NodeId} (l : e.Spans left)
    (r : e.Spans right) (nodup : (left.flatten ++ right.flatten).Nodup) :
    Becomes e (e.pushBinary token left.top right.top) (left.flatten ++ right.flatten)
      (.fork e.size left right) (.fork { token } (e.view left) (e.view right)) where
  regrown := regrown_pushBinary token l r nodup
  view := view_pushBinary token l r
  orphan := by
    rw [Tree.top_fork, node_pushBinary e token (l.inside _ left.top_mem) (r.inside _ right.top_mem)]

/-- A tree that grew behind `t` and `t` become the operands of an operator. -/
theorem before {e f : Expression ν} {t u : Tree NodeId} {x : Tree (Label ν)} (becomes : Becomes e f [] u x)
    (spans : e.Spans t) (token : Token) :
    Becomes e (f.pushBinary token u.top t.top) t.flatten (.fork f.size u t)
      (.fork { token } x (e.view t)) := by
  obtain ⟨kept, same, apart⟩ := becomes.regrown.keeps spans
  have joined := pushBinary token becomes.regrown.spans kept apart
  rw [becomes.view, same] at joined
  refine (becomes.weaken (List.nil_subset _)).trans joined fun id member => ?_
  rcases List.mem_append.mp member with member | member
  · exact .inr ((becomes.regrown.known id member).resolve_left List.not_mem_nil)
  · exact .inl member

/-- `t` and a tree that grew behind it become the operands of an operator. -/
theorem behind {e f : Expression ν} {t u : Tree NodeId} {x : Tree (Label ν)} (becomes : Becomes e f [] u x)
    (spans : e.Spans t) (token : Token) :
    Becomes e (f.pushBinary token t.top u.top) t.flatten (.fork f.size t u)
      (.fork { token } (e.view t) x) := by
  obtain ⟨kept, same, apart⟩ := becomes.regrown.keeps spans
  have joined := pushBinary token kept becomes.regrown.spans (List.perm_append_comm.nodup_iff.mp apart)
  rw [becomes.view, same] at joined
  refine (becomes.weaken (List.nil_subset _)).trans joined fun id member => ?_
  rcases List.mem_append.mp member with member | member
  · exact .inl member
  · exact .inr ((becomes.regrown.known id member).resolve_left List.not_mem_nil)

end Becomes

end Stepwise.Expression
