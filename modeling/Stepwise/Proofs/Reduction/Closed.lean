import Stepwise.Proofs.Reduction.Change
import Stepwise.Proofs.Reduction.Intact
import Stepwise.Proofs.Tree.Shape

/-! Whatever a node links to lies in the array: its operands, and its parent also where it is out of
reach of the root. Main statement: this holds of every formula that an evaluation passes. -/
namespace Stepwise

namespace Loop

variable {σ ρ : Type} {step : σ → Progress σ ρ} {p : σ → Prop} {q : ρ → Prop}

def Progress.Meets (p : σ → Prop) (q : ρ → Prop) : Progress σ ρ → Prop
  | more state => p state
  | done answer => q answer

theorem double_meets (kept : ∀ state, p state → (step state).Meets p q) (k : Nat) {state : σ}
    (start : p state) :
    (double step k state).Meets p q := by
  induction k generalizing state with
  | zero => exact kept state start
  | succ k ih =>
    have once := ih start
    rw [double]
    split
    · next later more =>
      rw [more] at once
      exact ih once
    · next answer done => exact done ▸ once

theorem rounds_meets (kept : ∀ state, p state → (step state).Meets p q) (n k : Nat) {state : σ}
    (start : p state) :
    ∀ answer ∈ rounds step n k state, q answer := by
  induction n generalizing k state with
  | zero => exact fun answer none => by cases none
  | succ n ih =>
    have once := double_meets kept k start
    rw [rounds]
    split
    · next later more =>
      rw [more] at once
      exact ih (k + 1) once
    · next last done =>
      rw [done] at once
      exact fun answer same => Option.some.inj same ▸ once

/-- What every step of a loop keeps holds of its answer. -/
theorem run_meets (kept : ∀ state, p state → (step state).Meets p q) (budget : Nat) {state : σ}
    (start : p state) :
    ∀ answer ∈ run budget step state, q answer :=
  rounds_meets kept budget 0 start

end Loop

namespace Expression

variable {ν : Type} {e f g : Expression ν} {id : NodeId}

def Closed (e : Expression ν) : Prop := ∀ j, (e.node j).InScope e.size

/-- No node gets a link that it did not have. -/
structure Narrows (e f : Expression ν) : Prop where
  size : f.size = e.size
  scope : ∀ j n, (e.node j).InScope n → (f.node j).InScope n

namespace Narrows

theorem refl (e : Expression ν) : Narrows e e := ⟨rfl, fun _ _ scope => scope⟩

theorem trans (first : Narrows e f) (second : Narrows f g) : Narrows e g :=
  ⟨second.size.trans first.size, fun j n scope => second.scope j n (first.scope j n scope)⟩

theorem modify {change : Node ν → Node ν} (scope : ∀ node n, node.InScope n → (change node).InScope n) :
    Narrows e (e.modify id change) := by
  refine ⟨size_modify .., fun j n old => ?_⟩
  rw [node_modify]
  split
  · exact scope _ n old
  · exact old

/-- A leaf has lost its operands. -/
theorem collapse [Content ν] (value : ν) : Narrows e (e.collapse id value) :=
  .modify fun _ _ scope k link => scope k (.inr (.inr (by simpa using link)))

theorem closed (narrows : Narrows e f) (closed : e.Closed) : f.Closed :=
  fun j => narrows.size ▸ narrows.scope j e.size (closed j)

end Narrows

/-- Each node of a tree is the top of a tree of its own. -/
theorem Spans.below {t : Tree NodeId} (spans : e.Spans t) (member : id ∈ t.flatten) :
    ∃ s, e.Spans s ∧ s.top = id ∧ s.flatten ⊆ t.flatten := by
  induction t with
  | leaf top =>
    obtain rfl := List.mem_singleton.mp member
    exact ⟨_, spans, rfl, List.Subset.refl _⟩
  | group top inner ih =>
    rcases List.mem_cons.mp member with rfl | member
    · exact ⟨_, spans, rfl, List.Subset.refl _⟩
    · obtain ⟨s, below, top, within⟩ := ih spans.group member
      exact ⟨s, below, top, fun k member => List.mem_cons_of_mem _ (within member)⟩
  | fork top left right ihl ihr =>
    rcases List.mem_cons.mp member with rfl | member
    · exact ⟨_, spans, rfl, List.Subset.refl _⟩
    · rcases List.mem_append.mp member with member | member
      · obtain ⟨s, below, top, within⟩ := ihl spans.left member
        exact ⟨s, below, top, fun k member => List.mem_cons_of_mem _ (List.mem_append_left _ (within member))⟩
      · obtain ⟨s, below, top, within⟩ := ihr spans.right member
        exact ⟨s, below, top,
          fun k member => List.mem_cons_of_mem _ (List.mem_append_right _ (within member))⟩

theorem inScope_default (n : Nat) : (default : Node ν).InScope n := by
  simp [Node.InScope, default]

theorem Reaches.trans {middle found : NodeId} (first : e.Reaches id middle)
    (second : e.Reaches middle found) :
    e.Reaches id found := by
  induction first with
  | here id => exact second
  | left link _ ih => exact .left link (ih second)
  | right link _ ih => exact .right link (ih second)

theorem Lists.reaches {child : NodeId} (lists : e.Lists id child) : e.Reaches id child :=
  lists.elim (fun left => .left left (.here child)) fun right => .right right (.here child)

theorem Lists.inside {child : NodeId} (lists : e.Lists id child) : id < e.size := by
  refine Nat.lt_of_not_le fun outside => ?_
  rw [Lists, node_outside outside] at lists
  rcases lists with absurd | absurd <;> cases absurd

theorem IsProper.closed (proper : e.IsProper) : e.Closed := by
  obtain ⟨t, links, root, all⟩ := proper.reached
  have within {k : NodeId} : e.Reaches e.root k ↔ k < e.size := by
    rw [← root, reaches_iff links, all.mem_iff, List.mem_range]
  intro j k link
  by_cases inside : j < e.size
  · have operand (lists : e.Lists j k) : k < e.size := within.mp ((within.mpr inside).trans lists.reaches)
    rcases link with left | right | parent
    · exact operand (.inl left)
    · exact operand (.inr right)
    · have below : j ≠ e.root := fun same => by simp [same, proper.root] at parent
      obtain ⟨above, known, lists⟩ := proper.parents j inside below
      obtain rfl : above = k := Option.some.inj (known.symm.trans parent)
      exact ((lists above).mpr rfl).inside
  · rw [node_outside (Nat.le_of_not_lt inside)] at link
    exact inScope_default _ k link

end Expression

namespace Formula

open Expression

variable {e f g : Formula} {id : NodeId} {c : Change}

theorem foldFactorials_narrows (ids : List NodeId) (e : Formula) : Narrows e (foldFactorials ids e).1 := by
  induction ids generalizing e with
  | nil => exact .refl e
  | cons id rest ih =>
    rw [foldFactorials]
    split
    · split
      · exact (Narrows.collapse _).trans (ih _)
      · exact .refl e
    · exact ih e

theorem recognizePolynomials_narrows (e : Formula) : Narrows e (recognizePolynomials e) := by
  have kept (state : List NodeId × Formula) (narrows : Narrows e state.2) :
      (recognizeStep state).Meets (fun state => Narrows e state.2) (Narrows e) := by
    obtain ⟨stack, f⟩ := state
    cases stack with
    | nil => exact narrows
    | cons id stack =>
      rw [recognizeStep]
      split
      · exact narrows.trans (.collapse _)
      · exact narrows
  rw [recognizePolynomials]
  cases ended : Loop.run e.budget recognizeStep ([e.root], e) with
  | none => exact .refl e
  | some answer => exact Loop.run_meets kept e.budget (.refl e) answer ended

theorem attachNumber_narrows (e : Formula) (id : NodeId) : Narrows e (attachNumber e id) := by
  unfold attachNumber
  simp only
  split
  · split
    · exact .collapse _
    · exact .refl e
  · exact .refl e

theorem attachCall_narrows (e : Formula) (id : NodeId) : Narrows e (attachCall e id) := by
  unfold attachCall
  simp only
  split
  · split
    · exact .refl e
    · exact .modify fun _ _ scope => scope
  · split
    · exact .modify fun _ _ scope => scope
    · exact .refl e

theorem attachQuantities_narrows (e : Formula) : Narrows e (attachQuantities e) := by
  suffices ∀ (ids : List NodeId) (f : Formula),
    Narrows f (ids.foldl (fun e id => attachCall (attachNumber e id) id) f) from this _ e
  intro ids
  induction ids with
  | nil => exact .refl
  | cons id rest ih =>
    exact fun f => ((attachNumber_narrows f id).trans (attachCall_narrows _ id)).trans (ih _)

/-- Preparing a formula gives no node another link. -/
theorem prepare_narrows (e : Formula) : Narrows e (prepare e).1 := by
  have folded := foldFactorials_narrows (e.preorder e.root) e
  unfold prepare
  split
  · next f same =>
    rw [same] at folded
    exact (folded.trans (recognizePolynomials_narrows f)).trans (attachQuantities_narrows _)
  · exact folded

namespace Change

structure Within (c : Change) (id n : NodeId) : Prop where
  inside : id < n
  operands : ∀ k ∈ c.operands, k < n
  content : ∀ node, c = .content node → node.InScope n

namespace Within

theorem old {n j : Nat} {before : Node Quantity} (within : c.Within id n) (scope : before.InScope n) :
    (c.old id n j before).InScope (n + c.count) := by
  have wider {node : Node Quantity} {m : Nat} (scope : node.InScope n) : node.InScope (n + m) :=
    fun k link => Nat.lt_add_right m (scope k link)
  cases c with
  | content node =>
    rw [Change.old]
    split
    · exact within.content node rfl
    · exact scope
  | gather left right =>
    simp only [Change.old]
    split
    · intro k link
      rcases link with first | second | parent
      · exact Option.some.inj first ▸ Nat.lt_add_of_pos_right (Nat.succ_pos 1)
      · exact Option.some.inj second ▸ Nat.add_lt_add_left (Nat.lt_succ_self 1) n
      · exact wider scope k (.inr (.inr parent))
    · split
      · intro k link
        rcases link with first | second | parent
        · exact wider scope k (.inl first)
        · exact wider scope k (.inr (.inl second))
        · exact Option.some.inj parent ▸ Nat.lt_add_of_pos_right (Nat.succ_pos 1)
      · exact wider scope
  | transfer right term amount operator =>
    simp only [Change.old]
    split
    · intro k link
      rcases link with first | second | parent
      · exact Option.some.inj first ▸ Nat.lt_add_of_pos_right (Nat.succ_pos 2)
      · exact Option.some.inj second ▸ Nat.add_lt_add_left (Nat.lt_succ_self 2) n
      · exact wider scope k (.inr (.inr parent))
    · split
      · intro k link
        rcases link with first | second | parent
        · exact wider scope k (.inl first)
        · exact wider scope k (.inr (.inl second))
        · exact Option.some.inj parent ▸ Nat.add_lt_add_left (Nat.lt_succ_self 2) n
      · exact wider scope

theorem new {n : Nat} (within : c.Within id n) : ∀ node ∈ c.new id n, node.InScope (n + c.count) := by
  have top := Nat.lt_add_right c.count within.inside
  cases c with
  | content node => exact fun node member => (List.not_mem_nil member).elim
  | gather left right =>
    have l := Nat.lt_add_right 2 (within.operands left (by simp [Change.operands]))
    have r := Nat.lt_add_right 2 (within.operands right (by simp [Change.operands]))
    intro node member k link
    simp only [Change.new, List.mem_cons, List.not_mem_nil, or_false] at member
    rcases member with rfl | rfl <;> simp at link
    · rcases link with rfl | rfl | rfl
      · exact l
      · exact r
      · exact top
    · exact link ▸ top
  | transfer right term amount operator =>
    have r := Nat.lt_add_right 3 (within.operands right (by simp [Change.operands]))
    intro node member k link
    simp only [Change.new, List.mem_cons, List.not_mem_nil, or_false] at member
    rcases member with rfl | rfl | rfl <;> simp at link
    · exact link ▸ top
    · exact link ▸ Nat.add_lt_add_left (Nat.lt_succ_self 2) n
    · rcases link with rfl | rfl | rfl
      · exact r
      · exact Nat.add_lt_add_left (Nat.lt_succ_of_lt (Nat.lt_succ_self 1)) n
      · exact top

theorem of_change (closed : e.Closed) (inside : id < e.size) (changed : change? e id = .ok c) :
    c.Within id e.size where
  inside := inside
  operands k member := closed id k (((change_within changed).1 k member).imp_right .inl)
  content node same := (change_within changed).2 node e.size same (closed id)

end Within

end Change

theorem perform_closed (closed : e.Closed) (within : c.Within id e.size) : (perform e id c).Closed := by
  intro j
  rw [node_perform, size_perform]
  split
  · exact within.old (closed j)
  · cases there : (c.new id e.size)[j - e.size]? with
    | none => exact inScope_default _
    | some node => exact within.new node (List.mem_of_getElem? there)

theorem reduce_closed {t : Tree NodeId} (closed : e.Closed) (spans : e.Spans t)
    (reduced : reduce e t.top = .ok f) : f.Closed := by
  rw [reduce_eq_perform spans] at reduced
  obtain ⟨c, changed, rfl⟩ := of_map_ok reduced
  exact perform_closed closed (.of_change closed (spans.inside _ t.top_mem) changed)

theorem simplifyRoot_narrows (simplified : simplifyRoot e = .ok f) : Narrows e f := by
  unfold simplifyRoot at simplified
  split at simplified
  · obtain ⟨constant, _, rfl⟩ := of_map_ok simplified
    refine Narrows.trans (.modify ?_) (.collapse constant)
    exact fun _ _ scope => scope
  · exact Except.ok.inj simplified ▸ .refl e

/-- What the nodes of a formula link to lies in the array at every formula that the evaluation of a
text passes. -/
theorem Passes.closed {text : String} (parsed : Expression.ofText text = .ok e)
    (prepared : prepare e = (f, .ok ())) (passes : Passes f g) : g.Closed := by
  obtain ⟨t, spans, root, sound⟩ := stands_of_parsed parsed prepared
  induction passes with
  | prepared => exact (congrArg Prod.fst prepared ▸ prepare_narrows e).closed (ofText_isProper parsed).closed
  | @reduced g h id earlier _ found reduced ih =>
    obtain ⟨u, stands⟩ := earlier.stands spans root sound
    have reached := (stands.intact.next id found).1
    obtain ⟨s, below, rfl, -⟩ :=
      stands.spans.below ((reaches_iff stands.spans.links).mp (stands.root ▸ reached))
    exact reduce_closed ih below reduced
  | simplified _ _ simplified ih => exact (simplifyRoot_narrows simplified).closed ih

end Formula

end Stepwise
