import Stepwise.Proofs.Reduction.Step

/-! Where a step takes place: in an operand that holds the deepest pending node, or at the root when
nothing below it is pending. -/
namespace Stepwise

theorem of_map_ok {ε α β : Type} {x : Except ε α} {f : α → β} {b : β} (mapped : x.map f = .ok b) :
    ∃ a, x = .ok a ∧ f a = b := by
  cases x with
  | error error => simp [Except.map] at mapped
  | ok a => exact ⟨a, rfl, Except.ok.inj mapped⟩

namespace Tree

def Idle (x : Tree Mark) : Prop := x.pendingDepth = none

instance (x : Tree Mark) : Decidable x.Idle := inferInstanceAs (Decidable (_ = none))

theorem idle_of_not_deeper {left right : Tree Mark} (first : ¬ deeper left.pendingDepth right.pendingDepth)
    (idle : right.Idle) : left.Idle := by
  unfold Idle at idle ⊢
  rw [idle] at first
  cases found : left.pendingDepth with
  | none => rfl
  | some depth => simp [found, deeper] at first

theorem not_idle_of_deeper {left right : Tree Mark} (first : deeper left.pendingDepth right.pendingDepth) :
    ¬ left.Idle := by
  intro idle
  unfold Idle at idle
  simp [idle, deeper] at first

theorem idle_leaf {a : Mark} : (leaf a).Idle ↔ (leaf a).isPending = false := by
  simp [Idle, pendingDepth_leaf]

theorem idle_group {a : Mark} {inner : Tree Mark} :
    (group a inner).Idle ↔ inner.Idle ∧ (group a inner).isPending = false := by
  simp only [Idle, pendingDepth_group]
  cases inner.pendingDepth <;> simp

theorem idle_fork {a : Mark} {left right : Tree Mark} :
    (fork a left right).Idle ↔ left.Idle ∧ right.Idle ∧ (fork a left right).isPending = false := by
  by_cases first : deeper left.pendingDepth right.pendingDepth
  · have busy := not_idle_of_deeper first
    simp only [Idle, pendingDepth_fork, first, if_true, Option.map_eq_none_iff] at busy ⊢
    simp [busy]
  · have rest := idle_of_not_deeper first
    simp only [Idle, pendingDepth_fork, first] at rest ⊢
    cases found : right.pendingDepth with
    | none => simp [rest found]
    | some depth => simp

def Rested : Tree Mark → Prop
  | leaf _ => True
  | group _ inner => inner.Idle
  | fork _ left right => left.Idle ∧ right.Idle

theorem idle_mapTop {x : Tree Mark} {f : Mark → Mark} (rested : x.Rested)
    (done : (x.mapTop f).isPending = false) :
    (x.mapTop f).Idle := by
  cases x with
  | leaf a => exact idle_leaf.mpr done
  | group a inner => exact idle_group.mpr ⟨rested, done⟩
  | fork a left right => exact idle_fork.mpr ⟨rested.1, rested.2, done⟩

theorem idle_defer {x : Tree Mark} (rested : x.Rested) : x.defer.Idle :=
  idle_mapTop rested (by simp [isPending, Label.isSettled])

theorem idle_settleEquation {x : Tree Mark} (rested : x.Rested) : x.settleEquation.Idle :=
  idle_mapTop rested (by simp [isPending, Label.isSettled])

theorem idle_differentiate {x : Tree Mark} (rested : x.Rested) : x.differentiate.Idle := by
  unfold differentiate
  split
  · exact idle_leaf.mpr (by simp [isPending, Label.isSettled, Label.collapse])
  · exact idle_defer rested

theorem idle_value (q : Quantity) : (value q).Idle := idle_leaf.mpr rfl

/-- There is a step exactly when something is pending. -/
theorem step_none_iff (x : Tree Mark) : x.step? = none ↔ x.Idle := by
  induction x with
  | leaf a => simp [step?_leaf, idle_leaf]
  | group a inner ih =>
    rw [idle_group, ← ih, step?_group]
    cases inner.step? <;> simp
  | fork a left right ihl ihr =>
    rw [idle_fork, ← ihl, ← ihr, step?_fork]
    by_cases first : deeper left.pendingDepth right.pendingDepth
    · have busy : left.step? ≠ none := fun none => not_idle_of_deeper first (ihl.mp none)
      simp [first, busy]
    · cases here : right.step? with
      | none => simp [first, ihl.mpr (idle_of_not_deeper first (ihr.mp here))]
      | some result => simp [first]

theorem step_leaf_cases {a : Mark} {result : Except ComputationError (Tree Mark)}
    (stepped : (leaf a).step? = some result) : (leaf a).isPending ∧ result = (leaf a).reduceTop := by
  by_cases pending : (leaf a).isPending
  · simp only [step?_leaf, pending, if_true] at stepped
    exact ⟨pending, (Option.some.inj stepped).symm⟩
  · simp [step?_leaf, pending] at stepped

theorem step_group_cases {a : Mark} {inner : Tree Mark} {result : Except ComputationError (Tree Mark)}
    (stepped : (group a inner).step? = some result) :
    (∃ r, inner.step? = some r ∧ result = r.map (group a)) ∨
      (inner.Idle ∧ (group a inner).isPending ∧ result = (group a inner).reduceTop) := by
  rw [step?_group] at stepped
  cases here : inner.step? with
  | some r =>
    rw [here] at stepped
    exact .inl ⟨r, rfl, (Option.some.inj stepped).symm⟩
  | none =>
    rw [here] at stepped
    by_cases pending : (group a inner).isPending
    · simp only [pending, if_true] at stepped
      exact .inr ⟨(step_none_iff inner).mp here, pending, (Option.some.inj stepped).symm⟩
    · simp [pending] at stepped

theorem step_fork_cases {a : Mark} {left right : Tree Mark} {result : Except ComputationError (Tree Mark)}
    (stepped : (fork a left right).step? = some result) :
    (∃ r, left.step? = some r ∧ result = r.map fun y => fork a y right) ∨
      (∃ r, right.step? = some r ∧ result = r.map (fork a left)) ∨
      (left.Idle ∧ right.Idle ∧ (fork a left right).isPending ∧ result = (fork a left right).reduceTop) := by
  rw [step?_fork] at stepped
  by_cases first : deeper left.pendingDepth right.pendingDepth
  · rw [if_pos first] at stepped
    obtain ⟨r, here, rfl⟩ := Option.map_eq_some_iff.mp stepped
    exact .inl ⟨r, here, rfl⟩
  · rw [if_neg first] at stepped
    cases here : right.step? with
    | some r =>
      rw [here] at stepped
      exact .inr (.inl ⟨r, rfl, (Option.some.inj stepped).symm⟩)
    | none =>
      have rest : right.Idle := (step_none_iff right).mp here
      rw [here] at stepped
      by_cases pending : (fork a left right).isPending
      · simp only [pending, if_true] at stepped
        exact .inr (.inr ⟨idle_of_not_deeper first rest, rest, pending, (Option.some.inj stepped).symm⟩)
      · simp [pending] at stepped

end Tree

end Stepwise
