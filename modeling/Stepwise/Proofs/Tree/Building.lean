import Stepwise.Proofs.Tree.Levels

/-! Building an expression in its array does what building a tree does. Main statement: tokens give
an expression that displays the tree they give, or both fail alike. -/
namespace Stepwise

namespace Expression

variable {ν : Type}

namespace Builder

theorem expandFactorial_becomes (count k : Nat) {e : Expression ν} {chain : Tree NodeId}
    (spans : e.Spans chain) (orphan : (e.node chain.top).parent = none) :
    ∃ u, (expandFactorial e chain.top k count).2 = u.top ∧
      Becomes e (expandFactorial e chain.top k count).1 chain.flatten u
      ((e.view chain).factorialFrom k count) := by
  induction count generalizing e chain k with
  | zero => exact ⟨chain, rfl, .refl spans orphan⟩
  | succ count ih =>
    have joined := (Becomes.pushLeaf e (.inserted .number (toString k))).before spans (.inserted .times "*")
    obtain ⟨u, top, becomes⟩ := ih (k + 1) joined.regrown.spans joined.orphan
    rw [joined.view] at becomes
    simp only [size_push, Tree.top_leaf, Tree.top_fork] at top becomes joined
    exact ⟨u, top, joined.trans becomes joined.regrown.known⟩

/-- The exponent of a square root. -/
theorem half_becomes (e : Expression ν) :
    Becomes e
      (((e.push { token := .inserted .number "1" }).push { token := .inserted .number "2" }).pushBinary
        (.inserted .divide "/") e.size (e.size + 1))
      [] (.fork (e.size + 2) (.leaf e.size) (.leaf (e.size + 1)))
      (.fork { token := .inserted .divide "/" } (.leaf { token := .inserted .number "1" })
        (.leaf { token := .inserted .number "2" })) := by
  have one := Becomes.pushLeaf e (.inserted .number "1")
  have two := (Becomes.pushLeaf (e.push { token := .inserted .number "1" }) (.inserted .number "2")).behind
    one.regrown.spans (.inserted .divide "/")
  rw [one.view] at two
  simp only [size_push, Tree.top_leaf] at two
  exact one.trans two one.regrown.known

/-- A group around a tree takes the keyword of a second call. -/
theorem group_becomes {e : Expression ν} {t : Tree NodeId} (spans : e.Spans t) (token keyword : Token) :
    Becomes e ((e.push { token, left := some t.top, call := some keyword }).setParent t.top e.size)
      t.flatten (.group e.size t) (.group { token, call := some keyword } (e.view t)) := by
  let node : Node ν := { token, left := some t.top, call := some keyword }
  have same : ∀ id ∈ t.flatten, e.Same ((e.push node).setParent t.top e.size) id := fun id member =>
    (Same.push node (spans.inside id member)).setParent ..
  have kept : ((e.push node).setParent t.top e.size).Spans t := spans.transport (by simp) same
  have here : ((e.push node).setParent t.top e.size).node e.size = node := by
    rw [node_setParent_other _ _ (Nat.ne_of_gt (spans.inside _ t.top_mem)), node_push_self]
  refine ⟨⟨⟨?_, ?_, ?_⟩, by simp, ?_, ?_⟩, ?_, ?_⟩
  · exact ⟨by rw [here], by rw [here], kept.links⟩
  · exact List.nodup_cons.mpr ⟨fun member => Nat.lt_irrefl _ (spans.inside _ member), spans.nodup⟩
  · intro id member
    rcases List.mem_cons.mp member with rfl | member
    · simp
    · exact kept.inside id member
  · intro id member
    rcases List.mem_cons.mp member with rfl | member
    · exact .inr (Nat.le_refl _)
    · exact .inl member
  · intro id inside outside
    have apart : id ≠ t.top := fun equal => outside (equal ▸ t.top_mem)
    rw [node_setParent_other _ _ apart, node_push_other e _ inside]
  · have below := view_transport same
    simp only [view, Tree.map] at below ⊢
    rw [below]
    exact congrArg (Tree.group · _) (congrArg Node.label here)
  · rw [Tree.top_group, here]

theorem applyCall_becomes (call : Option Token) {e : Expression ν} {t : Tree NodeId} (spans : e.Spans t)
    (orphan : (e.node t.top).parent = none) :
    ∃ u, (applyCall e call t.top).2 = u.top ∧
      Becomes e (applyCall e call t.top).1 t.flatten u ((e.view t).applyCall call) := by
  cases call with
  | none => exact ⟨t, rfl, .refl spans orphan⟩
  | some keyword =>
    have called : (e.view t).top.call = (e.node t.top).call := by simp [view, Node.label]
    by_cases root : keyword.kind = .sqrt
    · have joined := (half_becomes e).behind spans (.inserted .power "^")
      simp only [size_pushBinary, size_push, Tree.top_fork] at joined
      simp only [applyCall, Tree.applyCall, root, if_true]
      exact ⟨_, rfl, joined⟩
    · by_cases taken : (e.node t.top).call.isSome
      · simp only [applyCall, Tree.applyCall, root, called, taken, if_true, if_false]
        exact ⟨.group e.size t, rfl, group_becomes spans _ _⟩
      · simp only [applyCall, Tree.applyCall, root, called, taken, if_false, Bool.false_eq_true]
        refine ⟨t, rfl, regrown_modify spans rfl rfl, view_modify spans fun _ => rfl, ?_⟩
        rw [node_modify_self e _ (spans.inside _ t.top_mem)]
        exact orphan

end Builder

end Expression

namespace Draft

def view {ν : Type} (e : Expression ν) (d : Draft NodeId) : Draft (Label ν) :=
  d.map fun id => (e.node id).label

theorem view_await {ν : Type} (e : Expression ν) (a : NodeId) (left : Tree NodeId)
    (waiting : List (Waiting NodeId)) (call : Option Token) (outer : List (Spine NodeId)) :
    view e ⟨⟨(a, left) :: waiting, none, none⟩, outer⟩ =
      ⟨⟨((e.node a).label, e.view left) :: (view e ⟨⟨waiting, none, call⟩, outer⟩).level.waiting, none, none⟩,
        (view e ⟨⟨waiting, none, call⟩, outer⟩).outer⟩ := rfl

theorem view_hang {ν : Type} (e : Expression ν) (waiting : List (Waiting NodeId)) (id : NodeId)
    (d : Draft NodeId) :
    d.view (e.hang waiting id) = d.view e := by
  simp only [view, Expression.label_hang]

theorem view_join {ν : Type} (e : Expression ν) (waiting : List (Waiting NodeId)) (id : NodeId)
    (d : Draft NodeId) :
    d.view (e.join waiting id) = d.view e := by
  simp only [view, Expression.label_join]

theorem ids_attach (waiting : List (Waiting NodeId)) (call : Option Token) (outer : List (Spine NodeId))
    (t : Tree NodeId) :
    (attach ⟨⟨waiting, none, call⟩, outer⟩ t).ids.Perm (t.flatten ++ ids ⟨⟨waiting, none, call⟩, outer⟩) := by
  simp only [attach, ids, Spine.ids, Option.elim, List.append_nil, List.append_assoc]
  exact List.perm_append_comm_assoc ..

end Draft

namespace Expression

variable {ν : Type}

def Builder.Shows (b : Builder ν) (draft : Draft (Label ν)) : Prop :=
  ∃ (e : Expression ν) (d : Draft NodeId), e.Fits d ∧ b = d.builder e ∧ draft = d.view e

namespace Fits

variable {e f : Expression ν} {d : Draft NodeId}

theorem frame (fits : e.Fits d) (grown : e.size ≤ f.size) (same : ∀ id ∈ d.ids, f.node id = e.node id) :
    f.Fits d ∧ d.view f = d.view e := by
  refine ⟨⟨fits.level.frame fun id member => same id (by simp [Draft.ids, member]), fun s member =>
    ?_, fits.nodup, fun id member => Nat.lt_of_lt_of_le (fits.inside id member) grown⟩, ?_⟩
  · refine ⟨(fits.outer s member).1.frame fun id here => same id ?_, (fits.outer s member).2⟩
    exact List.mem_append_right _ (List.mem_flatMap.mpr ⟨s, member, here⟩)
  · exact Draft.map_congr fun id member => by rw [same id member]

theorem regrown (fits : e.Fits d) {old : List NodeId} {u : Tree NodeId} (regrown : Regrown e f old u)
    (apart : ∀ id ∈ d.ids, id ∉ old) : f.Fits d ∧ d.view f = d.view e ∧ (u.flatten ++ d.ids).Nodup := by
  have same : ∀ id ∈ d.ids, f.node id = e.node id := fun id member =>
    regrown.frame id (fits.inside id member) (apart id member)
  obtain ⟨kept, view⟩ := fits.frame regrown.grown same
  refine ⟨kept, view,
    List.nodup_append.mpr ⟨regrown.spans.nodup, fits.nodup, fun id new other member equal => ?_⟩⟩
  subst equal
  rcases regrown.known id new with old | new
  · exact apart id member old
  · exact Nat.not_lt_of_le new (fits.inside id member)

theorem attach (fits : e.Fits d) (room : d.level.last = none) {u : Tree NodeId} (spans : e.Spans u)
    (orphan : (e.node u.top).parent = none) (apart : (u.flatten ++ d.ids).Nodup) :
    (Builder.attach (d.builder e) u.top false).Shows ((d.view e).attach (e.view u)) := by
  obtain ⟨⟨waiting, last, call⟩, outer⟩ := d
  subst room
  have outside : ∀ id ∈ u.flatten, id ∉ Draft.ids ⟨⟨waiting, none, call⟩, outer⟩ := fun id member other =>
    (List.nodup_append.mp apart).2.2 id member id other rfl
  have nodup := fits.nodup
  have inside := fits.inside
  simp only [Draft.ids, Spine.ids, Option.elim, List.append_nil, List.mem_append, not_or]
    at outside nodup inside
  have top := outside u.top u.top_mem
  have placed : Builder.attach (Draft.builder ⟨⟨waiting, none, call⟩, outer⟩ e) u.top false =
      Draft.builder (Draft.attach ⟨⟨waiting, none, call⟩, outer⟩ u) (e.hang waiting u.top) := by
    cases waiting <;> rfl
  refine ⟨e.hang waiting u.top, _, ⟨⟨?_, ?_⟩, ?_, ?_, ?_⟩, placed, ?_⟩
  · exact fits.level.holds.hang (List.nodup_append.mp nodup).1
      (fun id member => inside id (.inl member)) top.1
  · rintro t ⟨⟩
    have kept := spans.transport (f := e.hang waiting u.top) (by simp) fun id member =>
      same_hang e u.top (outside id member).1
    exact ⟨kept.links, parent_hang waiting (spans.inside _ u.top_mem) orphan⟩
  · intro s member
    refine ⟨(fits.outer s member).1.frame fun id here => ?_, (fits.outer s member).2⟩
    have far : id ∈ outer.flatMap Spine.ids := List.mem_flatMap.mpr ⟨s, member, here⟩
    exact node_hang e (fun near => (List.nodup_append.mp nodup).2.2 id near id far rfl)
      fun equal => top.2 (equal ▸ far)
  · exact (Draft.ids_attach ..).nodup_iff.mpr apart
  · intro id member
    rw [size_hang]
    rcases List.mem_append.mp ((Draft.ids_attach ..).mem_iff.mp member) with member | member
    · exact spans.inside id member
    · exact fits.inside id member
  · rw [Draft.view_hang]
    rfl

/-- A tree that grew beside a draft becomes its next operand. -/
theorem attachNew (fits : e.Fits d) (room : d.level.last = none) {u : Tree NodeId}
    {x : Tree (Label ν)} (becomes : Becomes e f [] u x) :
    (Builder.attach (d.builder f) u.top false).Shows ((d.view e).attach x) := by
  obtain ⟨kept, same, apart⟩ := fits.regrown becomes.regrown fun _ _ => List.not_mem_nil
  have placed := kept.attach room becomes.regrown.spans becomes.orphan apart
  rwa [same, becomes.view] at placed

theorem placeLeaf (fits : e.Fits d) (room : d.level.last = none) (token : Token) :
    ((d.builder e).placeLeaf token).Shows ((d.view e).attach (.leaf { token })) :=
  fits.attachNew room (.pushLeaf e token)

theorem placeFactorial (fits : e.Fits d) (room : d.level.last = none) (token : Token) :
    ((d.builder e).placeFactorial token).Shows ((d.view e).attach (.ofFactorial token)) := by
  unfold Builder.placeFactorial Tree.ofFactorial
  cases Builder.smallWhole? token.text with
  | none => exact fits.placeLeaf room token
  | some n =>
    have one := Becomes.pushLeaf e (.inserted .number "1")
    obtain ⟨u, top, becomes⟩ := Builder.expandFactorial_becomes (n - 1) 2 one.regrown.spans one.orphan
    rw [one.view] at becomes
    have placed := fits.attachNew room (one.trans becomes one.regrown.known)
    rw [← top] at placed
    exact placed

theorem await {waiting : List (Waiting NodeId)} {outer : List (Spine NodeId)} {a : NodeId}
    {left : Tree NodeId} (holds : e.Holds ((a, left) :: waiting) none)
    (others : ∀ s ∈ outer, e.Stands s ∧ s.last = none)
    (nodup : (a :: left.flatten ++ (Waiting.ids waiting ++ outer.flatMap Spine.ids)).Nodup)
    (inside : ∀ id ∈ a :: left.flatten ++ (Waiting.ids waiting ++ outer.flatMap Spine.ids),
      id < e.size) :
    e.Fits ⟨⟨(a, left) :: waiting, none, none⟩, outer⟩ := by
  have ids : Draft.ids ⟨⟨(a, left) :: waiting, none, none⟩, outer⟩ =
      a :: left.flatten ++ (Waiting.ids waiting ++ outer.flatMap Spine.ids) := by
    simp [Draft.ids, Spine.ids, Waiting.ids]
  exact ⟨⟨holds, fun _ none => (by cases none)⟩, others, ids ▸ nodup, ids ▸ inside⟩

theorem placeSign (fits : e.Fits d) (room : d.level.last = none) (token : Token) :
    ((d.builder e).placeSign token).Shows ((d.view e).placeSign token) := by
  obtain ⟨⟨waiting, last, call⟩, outer⟩ := d
  subst room
  let zero : Node ν := { token := .inserted .number "0", parent := some (e.size + 1) }
  let sign : Node ν := { token, left := some e.size, unary := true }
  let g := (e.push zero).push sign
  have size : g.size = e.size + 2 := by simp [g]
  have zero_eq : g.node e.size = zero := by rw [node_push_other _ _ (by simp), node_push_self]
  have sign_eq : g.node (e.size + 1) = sign := by rw [← size_push e zero, node_push_self]
  obtain ⟨kept, same⟩ := fits.frame (f := g) (by omega) fun id member => by
    have inside := fits.inside id member
    rw [node_push_other _ _ (by rw [size_push]; exact Nat.lt_succ_of_lt inside), node_push_other _ _ inside]
  have fresh {id : NodeId} (new : e.size ≤ id) :
      id ∉ Draft.ids ⟨⟨waiting, none, call⟩, outer⟩ := fun member =>
    Nat.not_lt_of_le new (fits.inside id member)
  have nodup := fits.nodup
  have inside := kept.inside
  simp only [Draft.ids, Spine.ids, Option.elim, List.append_nil, List.mem_append, not_or]
    at fresh nodup inside
  have apart := (fresh (Nat.le_succ e.size)).1
  have placed : (Draft.builder ⟨⟨waiting, none, call⟩, outer⟩ e).placeSign token =
      Draft.builder ⟨⟨(e.size + 1, .leaf e.size) :: waiting, none, none⟩, outer⟩
      (g.hang waiting (e.size + 1)) := by
    cases waiting <;> rfl
  have holds : (g.hang waiting (e.size + 1)).Holds ((e.size + 1, .leaf e.size) :: waiting) none := by
    have zero_kept : (g.hang waiting (e.size + 1)).node e.size = zero := by
      rw [node_hang g (fresh (Nat.le_refl _)).1 (Nat.ne_of_lt (Nat.lt_succ_self _)), zero_eq]
    refine ⟨?_, ?_, parent_hang waiting (size ▸ Nat.lt_succ_self _) (by rw [sign_eq]),
      by simp [Links, zero_kept, zero], ?_⟩
    · rw [(same_hang g _ apart).1, sign_eq]; rfl
    · rw [(same_hang g _ apart).2.1, sign_eq]
    · exact kept.level.holds.hang (List.nodup_append.mp nodup).1
        (fun id member => inside id (.inl member)) apart
  refine ⟨g.hang waiting (e.size + 1), _,
    .await holds (fun s member => ?_) ?_ (fun id member => ?_), placed, ?_⟩
  · refine ⟨(kept.outer s member).1.frame fun id here => ?_, (kept.outer s member).2⟩
    have far : id ∈ outer.flatMap Spine.ids := List.mem_flatMap.mpr ⟨s, member, here⟩
    exact node_hang g (fun near => (List.nodup_append.mp nodup).2.2 id near id far rfl)
      (by rintro rfl; exact (fresh (Nat.le_succ e.size)).2 far)
  · refine List.nodup_cons.mpr ⟨?_, List.nodup_cons.mpr ⟨?_, nodup⟩⟩
    · simpa [Tree.flatten] using fresh (Nat.le_succ e.size)
    · simpa using fresh (Nat.le_refl e.size)
  · rw [size_hang, size]
    simp only [Tree.flatten, List.cons_append, List.nil_append, List.mem_cons, List.mem_append] at member
    rcases member with rfl | rfl | member
    · exact Nat.lt_succ_self _
    · exact Nat.lt_succ_of_lt (Nat.lt_succ_self _)
    · exact size ▸ inside id member
  · rw [Draft.view_await _ _ _ _ call, Draft.view_hang, same, view, Tree.map, label_hang,
      label_hang, sign_eq, zero_eq]
    rfl

theorem hung {waiting : List (Waiting NodeId)} {t : Tree NodeId} {call : Option Token}
    {outer : List (Spine NodeId)} (fits : e.Fits ⟨⟨waiting, some t, call⟩, outer⟩) :
    e.Hung waiting t :=
  ⟨fits.level.holds, (fits.level.last t rfl).1, (fits.level.last t rfl).2⟩

theorem closeWhile {waiting : List (Waiting NodeId)} {t : Tree NodeId} {call : Option Token}
    {outer : List (Spine NodeId)} (fits : e.Fits ⟨⟨waiting, some t, call⟩, outer⟩) (closes : NodeId → Bool) :
    e.Fits ⟨⟨(Waiting.closeWhile closes waiting t).1, some (Waiting.closeWhile closes waiting t).2,
      call⟩, outer⟩ := by
  have hung := fits.hung.closeWhile closes
  have perm : (Draft.ids ⟨⟨_, some (Waiting.closeWhile closes waiting t).2, call⟩, outer⟩).Perm
      (Draft.ids ⟨⟨waiting, some t, call⟩, outer⟩) := (closeWhile_ids closes waiting t).append_right _
  refine ⟨⟨hung.holds, ?_⟩, fits.outer, perm.nodup_iff.mpr fits.nodup,
    fun id member => fits.inside id (perm.mem_iff.mp member)⟩
  rintro _ ⟨⟩
  exact ⟨hung.links, hung.parent⟩

/-- Closing a whole level makes a tree of it. -/
theorem closed {waiting : List (Waiting NodeId)} {t : Tree NodeId} {call : Option Token}
    {outer : List (Spine NodeId)} (fits : e.Fits ⟨⟨waiting, some t, call⟩, outer⟩) :
    e.Fits ⟨⟨[], some (Waiting.close waiting t), call⟩, outer⟩ ∧
      (Waiting.close waiting t).top = Waiting.root waiting t.top := by
  have closed := fits.closeWhile fun _ => true
  have root := root_closeWhile (fun _ => true) waiting t
  simp only [Waiting.closeWhile_true, Waiting.root] at closed root
  exact ⟨closed, root⟩

theorem last_spans {waiting : List (Waiting NodeId)} {t : Tree NodeId} {call : Option Token}
    {outer : List (Spine NodeId)} (fits : e.Fits ⟨⟨waiting, some t, call⟩, outer⟩) : e.Spans t where
  links := fits.hung.links
  nodup := by
    have nodup := fits.nodup
    simp only [Draft.ids, Spine.ids, Option.elim] at nodup
    exact (List.nodup_append.mp (List.nodup_append.mp nodup).1).2.1
  inside id member := fits.inside id (by simp [Draft.ids, Spine.ids, member])

theorem few {waiting : List (Waiting NodeId)} {last : Option (Tree NodeId)} {call : Option Token}
    {outer : List (Spine NodeId)} (fits : e.Fits ⟨⟨waiting, last, call⟩, outer⟩) :
    waiting.length ≤ e.size := by
  have nodup := (List.nodup_append.mp (List.nodup_append.mp fits.nodup).1).1
  have subset : Waiting.ids waiting ⊆ List.range e.size := fun id member =>
    List.mem_range.mpr (fits.inside id (by simp [Draft.ids, Spine.ids, member]))
  have := nodup.length_le_of_subset subset
  rw [List.length_range] at this
  exact Nat.le_trans (Waiting.length_le_ids waiting) this

/-- The operand placed last becomes the left operand of an operator. -/
theorem operator {waiting : List (Waiting NodeId)} {left : Tree NodeId} {call : Option Token}
    {outer : List (Spine NodeId)} (fits : e.Fits ⟨⟨waiting, some left, call⟩, outer⟩)
    (op : Node ν) (left_eq : op.left = some left.top) (right_eq : op.right = none)
    (parent_eq : op.parent = Waiting.tip? waiting) :
    let f := ((e.push op).setParent left.top e.size).join waiting e.size
    f.Fits ⟨⟨(e.size, left) :: waiting, none, none⟩, outer⟩ ∧
      Draft.view f ⟨⟨(e.size, left) :: waiting, none, none⟩, outer⟩ =
        ⟨⟨(op.label, e.view left) ::
        (Draft.view e ⟨⟨waiting, some left, call⟩, outer⟩).level.waiting, none, none⟩,
          (Draft.view e ⟨⟨waiting, some left, call⟩, outer⟩).outer⟩ := by
  intro f
  let g := (e.push op).setParent left.top e.size
  have size : f.size = e.size + 1 := by simp [f]
  have perm : (Draft.ids ⟨⟨waiting, some left, call⟩, outer⟩).Perm
      (left.flatten ++ (Waiting.ids waiting ++ outer.flatMap Spine.ids)) := by
    rw [← List.append_assoc]
    exact List.perm_append_comm.append_right _
  have nodup := perm.nodup_iff.mp fits.nodup
  have inside := fun id member => fits.inside id (perm.mem_iff.mpr member)
  have spans : e.Spans left := ⟨fits.hung.links, (List.nodup_append.mp nodup).1,
    fun id member => inside id (List.mem_append_left _ member)⟩
  have top := inside left.top (List.mem_append_left _ left.top_mem)
  have fresh : e.size ∉ left.flatten ++ (Waiting.ids waiting ++ outer.flatMap Spine.ids) := fun member =>
    Nat.lt_irrefl _ (inside _ member)
  have here : f.node e.size = op := by
    rw [node_join _ _ fun member => fresh (by simp [member]), node_setParent_other _ _ (Nat.ne_of_gt top),
      node_push_self]
  have beside {id : NodeId} (member : id ∈ Waiting.ids waiting ++ outer.flatMap Spine.ids) :
      g.node id = e.node id := by
    have apart : id ≠ left.top := fun equal =>
      (List.nodup_append.mp nodup).2.2 left.top left.top_mem id member equal.symm
    rw [node_setParent_other _ _ apart, node_push_other _ _ (inside id (List.mem_append_right _ member))]
  have below : ∀ id ∈ left.flatten, e.Same f id := fun id member => by
    have apart : id ∉ Waiting.ids waiting := fun other =>
      (List.nodup_append.mp nodup).2.2 id member id (List.mem_append_left _ other) rfl
    have same : e.Same g id := (Same.push op (spans.inside id member)).setParent ..
    have kept : f.node id = g.node id := node_join g _ apart
    simpa [Same, kept] using same
  have away {id : NodeId} (member : id ∈ outer.flatMap Spine.ids) : f.node id = e.node id := by
    have apart : id ∉ Waiting.ids waiting := fun other =>
      (List.nodup_append.mp (List.nodup_append.mp nodup).2.1).2.2 id other id member rfl
    rw [← beside (List.mem_append_right _ member)]
    exact node_join g _ apart
  have holds : f.Holds waiting (some e.size) := by
    refine Holds.join (fits.hung.holds.frame fun id member => beside (List.mem_append_left _ member))
      (List.nodup_append.mp (List.nodup_append.mp nodup).2.1).1 (fun id member => ?_) e.size
    rw [size_setParent, size_push]
    exact Nat.lt_succ_of_lt (inside id (by simp [member]))
  refine ⟨.await ⟨by rw [here, left_eq], by rw [here, right_eq], by rw [here, parent_eq],
    (spans.transport (by omega) below).links, holds⟩ (fun s member => ?_) ?_ (fun id member => ?_), ?_⟩
  · exact ⟨(fits.outer s member).1.frame fun id belongs => away (List.mem_flatMap.mpr ⟨s, member, belongs⟩),
      (fits.outer s member).2⟩
  · exact List.nodup_cons.mpr ⟨fresh, nodup⟩
  · rw [size]
    rcases List.mem_cons.mp member with rfl | member
    · exact Nat.lt_succ_self _
    · exact Nat.lt_succ_of_lt (inside id member)
  · rw [Draft.view_await _ _ _ _ call, here, view_transport below, Draft.view_join]
    have same : Draft.view g ⟨⟨waiting, none, call⟩, outer⟩ = Draft.view e ⟨⟨waiting, none, call⟩, outer⟩ :=
      Draft.map_congr fun id member => by
        simp only [Draft.ids, Spine.ids, Option.elim, List.append_nil] at member
        rw [beside member]
    rw [same]
    rfl

theorem placeOperator (fits : e.Fits d) {t : Tree NodeId} (last : d.level.last = some t) (token : Token) :
    ((d.builder e).placeOperator token).Shows ((d.view e).placeOperator token) := by
  obtain ⟨⟨waiting, last, call⟩, outer⟩ := d
  subst last
  let closes (a : NodeId) : Bool := Draft.yields token (e.node a).label
  have closed := fits.closeWhile closes
  have anchor := fits.hung.anchor token fits.few
  have root := root_closeWhile closes waiting t
  have split := Waiting.map_closeWhile (fun id => (e.node id).label) (Draft.yields token) waiting t
  change _ = (Waiting.closeWhile closes waiting t).2.top at anchor
  change _ = (List.map _ (Waiting.closeWhile closes waiting t).1,
    Tree.map _ (Waiting.closeWhile closes waiting t).2) at split
  generalize Waiting.closeWhile closes waiting t = result at closed anchor root split
  obtain ⟨inner, left⟩ := result
  obtain ⟨grown, view⟩ :=
    closed.operator { token, left := some left.top, parent := Waiting.tip? inner } rfl rfl rfl
  refine ⟨_, _, grown, ?_, ?_⟩
  · simp only [Builder.placeOperator, Draft.builder, Spine.level, anchor, closed.hung.parent]
    cases inner with
    | nil => rfl
    | cons w rest => simp [join, Waiting.tip?, ← root, Waiting.root]
  · rw [view, Draft.placeOperator]
    simp only [Draft.view, Draft.map, Spine.map, Option.map_some, split]
    rfl

theorem closeBracket {level : Spine NodeId} {outer : List (Spine NodeId)} {waiting : List (Waiting NodeId)}
    {t : Tree NodeId} {call : Option Token} (fits : e.Fits ⟨⟨waiting, some t, call⟩, level :: outer⟩) :
    (Builder.attach
      ⟨(Builder.applyCall e level.call (Waiting.root waiting t.top)).1, level.level, outer.map Spine.level⟩
      (Builder.applyCall e level.call (Waiting.root waiting t.top)).2 false).Shows
      ((Draft.view e ⟨level, outer⟩).attach ((e.view (Waiting.close waiting t)).applyCall level.call)) := by
  obtain ⟨closed, root⟩ := fits.closed
  generalize Waiting.close waiting t = whole at closed root
  have nodup := closed.nodup
  simp only [Draft.ids, Spine.ids, Waiting.ids, List.flatMap_nil, List.nil_append, Option.elim,
    List.flatMap_cons] at nodup
  have around : e.Fits ⟨level, outer⟩ := ⟨(closed.outer level (List.mem_cons_self ..)).1,
    fun s member => closed.outer s (List.mem_cons_of_mem _ member), (List.nodup_append.mp nodup).2.1,
    fun id member => closed.inside id (by
      simp only [Draft.ids, Spine.ids, List.flatMap_cons, List.mem_append] at member ⊢
      exact .inr member)⟩
  obtain ⟨u, top, becomes⟩ := Builder.applyCall_becomes level.call closed.last_spans closed.hung.parent
  obtain ⟨kept, same, apart⟩ := around.regrown becomes.regrown fun id member other =>
    (List.nodup_append.mp nodup).2.2 id other id member rfl
  have placed := kept.attach (closed.outer level (List.mem_cons_self ..)).2 becomes.regrown.spans
    becomes.orphan apart
  rw [same, becomes.view, ← top, root] at placed
  exact placed

end Fits

/-- Two computations end with related results or with the same error. -/
def Alike {ε α β : Type} (related : α → β → Prop) : Except ε α → Except ε β → Prop
  | .ok a, .ok b => related a b
  | .error x, .error y => x = y
  | _, _ => False

theorem Alike.mono {ε α β : Type} {related later : α → β → Prop} {x : Except ε α} {y : Except ε β}
    (alike : Alike related x y) (kept : ∀ a b, related a b → later a b) : Alike later x y := by
  cases x <;> cases y <;> simp only [Alike] at alike
  · exact alike
  · exact kept _ _ alike

theorem Alike.both {ε α β : Type} {related later : α → β → Prop} {x : Except ε α} {y : Except ε β}
    (first : Alike related x y) (second : Alike later x y) :
    Alike (fun a b => related a b ∧ later a b) x y := by
  cases x <;> cases y <;> simp only [Alike] at first second ⊢
  · exact first
  · exact ⟨first, second⟩

theorem Alike.map {ε α β γ δ : Type} {related : α → β → Prop} {later : γ → δ → Prop} {x : Except ε α}
    {y : Except ε β} {f : α → γ} {g : β → δ} (alike : Alike related x y)
    (kept : ∀ a b, related a b → later (f a) (g b)) : Alike later (x.map f) (y.map g) := by
  cases x <;> cases y <;> simp only [Alike] at alike
  · exact alike
  · exact kept _ _ alike

theorem Alike.extend {ε α β γ : Type} {related : α → β → Prop} {later : α → γ → Prop} {x : Except ε α}
    {y : Except ε β} {g : β → γ} (alike : Alike related x y) (kept : ∀ a b, related a b → later a (g b)) :
    Alike later x (y.map g) := by
  cases x <;> cases y <;> simp only [Alike] at alike
  · exact alike
  · exact kept _ _ alike

namespace Builder

abbrev ShowsWith (p : Builder ν × Nat) (q : Draft (Label ν) × Nat) : Prop := p.1.Shows q.1 ∧ p.2 = q.2

variable {e : Expression ν} {d : Draft NodeId}

theorem awaiting_eq (e : Expression ν) (d : Draft NodeId) :
    (d.builder e).level.awaiting = (d.view e).awaiting := by
  simp [Draft.builder, Spine.level, Draft.awaiting, Draft.view, Draft.map, Spine.map]

theorem room {e : Expression ν} {d : Draft NodeId} (awaiting : (d.view e).awaiting) :
    d.level.last = none := by
  simpa [Draft.awaiting, Draft.view, Draft.map, Spine.map] using awaiting

theorem openBracket_alike (fits : e.Fits d) (token : Token) :
    Alike Shows ((d.builder e).openBracket token) ((d.view e).openBracket token) := by
  simp only [openBracket, Draft.openBracket, awaiting_eq]
  by_cases awaiting : (d.view e).awaiting
  · have length : (d.builder e).outer.length = (d.view e).outer.length := by
      simp [Draft.builder, Draft.view, Draft.map]
    simp only [awaiting, length, Bool.not_true, Bool.false_eq_true, if_false]
    split
    · rfl
    · refine ⟨e, ⟨{}, d.level :: d.outer⟩, ⟨⟨trivial, fun _ none => (by cases none)⟩, ?_, ?_, ?_⟩, rfl, rfl⟩
      · intro s member
        rcases List.mem_cons.mp member with rfl | member
        · exact ⟨fits.level, room awaiting⟩
        · exact fits.outer s member
      · simpa [Draft.ids, Spine.ids, Waiting.ids] using fits.nodup
      · simpa [Draft.ids, Spine.ids, Waiting.ids] using fits.inside
  · simp only [awaiting]
    rfl

theorem openCall_alike (fits : e.Fits d) (token : Token) (next : Option Token) :
    Alike Shows ((d.builder e).openCall token next) ((d.view e).openCall token next) := by
  simp only [openCall, Draft.openCall, awaiting_eq]
  split
  · rfl
  · split
    · exact ⟨e, { d with level := { d.level with call := some token } },
        ⟨⟨fits.level.holds, fits.level.last⟩, fits.outer, fits.nodup, fits.inside⟩,
        by rw [← awaiting_eq]; rfl, rfl⟩
    · rfl

theorem closeBracket_alike (fits : e.Fits d) (token : Token) (next : Option Token) :
    Alike Shows ((d.builder e).closeBracket token next) ((d.view e).closeBracket token next) := by
  obtain ⟨⟨waiting, last, call⟩, outer⟩ := d
  cases outer with
  | nil => rfl
  | cons level outer =>
    cases last with
    | none => rfl
    | some t =>
      have placed := fits.closeBracket
      rw [view, Waiting.map_close] at placed
      exact placed

theorem operand_alike (fits : e.Fits d) (token : Token) :
    Alike Shows ((d.builder e).operand token) ((d.view e).operand token) := by
  simp only [operand, Draft.operand, awaiting_eq]
  by_cases awaiting : (d.view e).awaiting
  · simp only [awaiting, Bool.not_true, Bool.false_eq_true, if_false]
    split
    · exact fits.placeFactorial (room awaiting) token
    · exact fits.placeLeaf (room awaiting) token
  · simp only [awaiting]
    rfl

theorem operator_alike (fits : e.Fits d) (token : Token) (rest : List Token) :
    Alike ShowsWith ((d.builder e).operator token rest) ((d.view e).operator token rest) := by
  simp only [operator, Draft.operator, awaiting_eq]
  by_cases awaiting : (d.view e).awaiting
  · simp only [awaiting, Bool.not_true, Bool.false_eq_true, if_false]
    split
    · exact ⟨fits.placeLeaf (room awaiting) _, rfl⟩
    · split
      · exact ⟨fits.placeSign (room awaiting) token, rfl⟩
      · rfl
  · simp only [awaiting, Bool.not_false, if_true]
    cases last : d.level.last with
    | none => simp [Draft.awaiting, Draft.view, Draft.map, Spine.map, last] at awaiting
    | some t => exact ⟨fits.placeOperator last token, rfl⟩

theorem place_alike {b : Builder ν} {draft : Draft (Label ν)} (shown : b.Shows draft) (token : Token)
    (rest : List Token) : Alike ShowsWith (b.place token rest) (draft.place token rest) := by
  obtain ⟨e, d, fits, rfl, rfl⟩ := shown
  have taken {x : Outcome ν} {y : Draft.Outcome ν} (alike : Alike Shows x y) :
      Alike ShowsWith (x.map (·, 0)) (y.map (·, 0)) := alike.map fun _ _ related => ⟨related, rfl⟩
  unfold place Draft.place
  cases token.kind with
  | opening => exact taken (openBracket_alike fits token)
  | closing => exact taken (closeBracket_alike fits token _)
  | trig | log | sqrt | diff => exact taken (openCall_alike fits token _)
  | number | letter | polynomial | factorial => exact taken (operand_alike fits token)
  | equals | plus | minus | times | divide | power => exact operator_alike fits token rest
  | finish => exact ⟨⟨e, d, fits, rfl, rfl⟩, rfl⟩

theorem complete_alike {b : Builder ν} {draft : Draft (Label ν)} (shown : b.Shows draft)
    (position : Option Nat) :
    Alike Displays (b.complete position) (draft.complete position) := by
  obtain ⟨e, ⟨⟨waiting, last, call⟩, outer⟩, fits, rfl, rfl⟩ := shown
  cases outer with
  | cons level outer => simp [complete, Draft.complete, Draft.builder, Draft.view, Draft.map, Alike]
  | nil =>
    cases last with
    | none => rfl
    | some t =>
      obtain ⟨closed, root⟩ := fits.closed
      have view : (Draft.view e ⟨⟨waiting, some t, call⟩, []⟩).complete position =
          .ok (e.view (Waiting.close waiting t)) := by
        rw [Expression.view, Waiting.map_close]
        rfl
      rw [view]
      exact ⟨Waiting.close waiting t, closed.last_spans.frame (Nat.le_refl _) fun _ _ => rfl, root, rfl⟩

/-- What every token keeps alike holds of what is built in the end. -/
theorem build_simulates {related : Builder ν → Draft (Label ν) → Prop}
    {shown : Expression ν → Tree (Label ν) → Prop}
    (step : ∀ {b d}, related b d → ∀ token rest,
      Alike (fun p q => related p.1 q.1 ∧ p.2 = q.2) (b.place token rest) (d.place token rest))
    (last : ∀ {b d}, related b d →
      ∀ position, Alike shown (b.complete position) (d.complete position)) (tokens : List Token)
    {b : Builder ν} {draft : Draft (Label ν)} (here : related b draft) :
    Alike shown (b.build tokens) (draft.build tokens) := by
  fun_induction b.build tokens generalizing draft with
  | case1 b =>
    rw [Draft.build]
    exact last here none
  | case2 b token rest finish =>
    rw [Draft.build, if_pos finish]
    exact last here token.position
  | case3 b token rest finish later taken placed ih =>
    have alike := step here token rest
    rw [Draft.build, if_neg finish]
    cases drafted : draft.place token rest with
    | error error => simp [placed, drafted, Alike] at alike
    | ok result =>
      simp only [placed, drafted, Alike] at alike
      obtain ⟨further, rfl⟩ := alike
      exact ih further
  | case4 b token rest finish error placed =>
    have alike := step here token rest
    rw [Draft.build, if_neg finish]
    cases drafted : draft.place token rest with
    | error error => simpa [placed, drafted, Alike] using alike
    | ok result => simp [placed, drafted, Alike] at alike

theorem build_alike (tokens : List Token) {b : Builder ν} {draft : Draft (Label ν)} (shown : b.Shows draft) :
    Alike Displays (b.build tokens) (draft.build tokens) :=
  build_simulates place_alike complete_alike tokens shown

theorem shows_empty : ({} : Builder ν).Shows {} :=
  ⟨⟨#[], 0⟩, {}, ⟨⟨trivial, fun _ none => (by cases none)⟩, fun _ member => (by cases member),
    by simp [Draft.ids, Spine.ids, Waiting.ids], by simp [Draft.ids, Spine.ids, Waiting.ids]⟩, rfl, rfl⟩

end Builder

/-- Tokens are built into an expression that displays the tree they denote. -/
theorem ofTokens_alike (tokens : List Token) :
    Alike Displays (ofTokens tokens : Except GrammarError (Expression ν)) (Tree.ofTokens tokens) :=
  Builder.build_alike tokens Builder.shows_empty

/-- A text denotes an expression that displays the tree of its tokens. -/
theorem ofText_alike (text : String) :
    Alike Displays (ofText text : Except GrammarError (Expression ν)) (Tree.ofText text) := by
  unfold ofText Tree.ofText
  cases Token.ofText text with
  | ok tokens => exact ofTokens_alike tokens
  | error error => rfl

theorem ofText_displays {text : String} {e : Expression ν} (parsed : ofText text = .ok e) :
    ∃ x : Tree (Label ν), Tree.ofText text = .ok x ∧ e.Displays x := by
  have alike := ofText_alike (ν := ν) text
  rw [parsed] at alike
  cases built : Tree.ofText (ν := ν) text with
  | error error => simp [built, Alike] at alike
  | ok x => exact ⟨x, rfl, by simpa [built, Alike] using alike⟩

theorem ofText_of_tree {text : String} {x : Tree (Label ν)} (built : Tree.ofText text = .ok x) :
    ∃ e : Expression ν, ofText text = .ok e ∧ e.Displays x := by
  have alike := ofText_alike (ν := ν) text
  rw [built] at alike
  cases parsed : ofText (ν := ν) text with
  | error error => simp [parsed, Alike] at alike
  | ok e => exact ⟨e, rfl, by simpa [parsed, Alike] using alike⟩

end Expression

end Stepwise
