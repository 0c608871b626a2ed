import Stepwise.Proofs.Reduction.Again

/-! The loop of reductions ends by itself. Main statement: a formula that comes from a text takes at
most seven reductions for each node that parsing gave it, so the limit on the loop is never what ends it. -/
namespace Stepwise

namespace Tree

theorem size_foldFactorials (x : Tree Mark) : x.foldFactorials.1.size = x.size := by
  induction x with
  | leaf a =>
    simp only [foldFactorials]
    repeat' split
    all_goals rfl
  | group a inner ih => simp only [foldFactorials, size, ih]
  | fork a left right ihl ihr =>
    simp only [foldFactorials]
    cases folded : left.foldFactorials with
    | mk y ended =>
      rw [folded] at ihl
      have same : y.size = left.size := ihl
      cases ended with
      | error error => simp only [size, same]
      | ok done => simp only [size, same, ihr]

/-- A recognized term is one leaf. -/
theorem size_recognize (x : Tree Mark) : x.recognize.size ≤ x.size := by
  induction x with
  | leaf a =>
    simp only [recognize]
    split <;> exact Nat.le_refl _
  | group a inner ih => exact Nat.succ_le_succ ih
  | fork a left right ihl ihr =>
    simp only [recognize]
    split <;> simp only [size] <;> omega

theorem size_attachQuantities (x : Tree Mark) : x.attachQuantities.size = x.size := by
  induction x with
  | leaf a => rfl
  | group a inner ih => simp only [attachQuantities, size, ih]
  | fork a left right ihl ihr => simp only [attachQuantities, size, ihl, ihr]

/-- Preparing a tree does not enlarge it. -/
theorem size_prepare (x : Tree Mark) : x.prepare.1.size ≤ x.size := by
  have folded := x.size_foldFactorials
  unfold prepare
  split
  · next y outcome =>
    rw [outcome] at folded
    rw [size_attachQuantities, ← folded]
    exact y.size_recognize
  · exact Nat.le_of_eq folded

end Tree

namespace Formula

open Expression

/-- The loop of reductions started on the first formula makes `n` reductions, one that fails
included, and ends with the second formula. It ends only where the root is not pending or a reduction
fails: there is no case for a pending root without a node to reduce. -/
inductive Reductions : Formula → Nat → Formula → Except ComputationError Unit → Prop
  | done {e : Formula} (settled : isPending (e.node e.root) = false) : Reductions e 0 e (.ok ())
  | fails {e : Formula} {id : NodeId} {error : ComputationError} (pending : isPending (e.node e.root))
      (found : deepestPending e = some id) (failed : reduce e id = .error error) :
      Reductions e 1 e (.error error)
  | goes {e f g : Formula} {id : NodeId} {n : Nat} {ended : Except ComputationError Unit}
      (pending : isPending (e.node e.root)) (found : deepestPending e = some id)
      (reduced : reduce e id = .ok f)
      (rest : Reductions f n g ended) : Reductions e (n + 1) g ended

theorem record_formula (t : Trace) (e : Formula) : (t.record e).formula = e := by
  unfold Trace.record
  simp only
  split <;> rfl

/-- The loop does what the relation says as soon as its limit allows for that many reductions. -/
theorem Reductions.loop {e f : Formula} {n : Nat} {ended : Except ComputationError Unit}
    (reductions : Reductions e n f ended) {fuel : Nat} (enough : n ≤ fuel) {t : Trace}
    (start : t.formula = e) :
    (t.reduceWhilePending fuel).1.formula = f ∧ (t.reduceWhilePending fuel).2 = ended := by
  induction reductions generalizing fuel t with
  | done settled =>
    cases fuel with
    | zero => exact ⟨start, rfl⟩
    | succ fuel => simp [Trace.reduceWhilePending, start, settled]
  | fails pending found failed =>
    obtain ⟨fuel, rfl⟩ := Nat.exists_eq_add_of_le' enough
    simp [Trace.reduceWhilePending, start, pending, found, failed]
  | goes pending found reduced rest ih =>
    obtain ⟨fuel, rfl⟩ := Nat.exists_eq_add_of_le' (Nat.le_trans (Nat.le_add_left 1 _) enough)
    simp only [Trace.reduceWhilePending, start, pending, found, reduced, if_true]
    exact ih (Nat.le_of_succ_le_succ enough) (record_formula t _)

/-- The effort of the tree bounds the reductions. -/
theorem reductions_of_displays {e : Formula} {x : Tree Mark} (displays : e.Displays x) :
    ∃ n f ended, n ≤ x.effort ∧ Reductions e n f ended := by
  obtain ⟨root, alike⟩ := next_alike displays
  by_cases pending : x.isPending
  · have here : isPending (e.node e.root) := root.trans pending
    have next : x.next? = x.step? := by simp [Tree.next?, pending]
    cases found : deepestPending e with
    | none =>
      rw [found] at alike
      exact absurd ((Tree.step_none_iff x).mp alike) (Tree.not_idle_of_pending pending)
    | some id =>
      rw [found] at alike
      obtain ⟨result, stepped, alike⟩ := alike
      cases reduced : reduce e id with
      | error error => exact ⟨1, e, _, Tree.effort_pending pending, .fails here found reduced⟩
      | ok f =>
        cases result with
        | error error => simp [reduced, Alike] at alike
        | ok y =>
          have later : f.Displays y := by simpa [reduced, Alike] using alike
          have less := Tree.effort_next (next.trans stepped)
          obtain ⟨n, g, ended, few, rest⟩ := reductions_of_displays later
          exact ⟨n + 1, g, ended, Nat.lt_of_le_of_lt few less, .goes here found reduced rest⟩
  · exact ⟨0, e, .ok (), Nat.zero_le _, .done (root.trans (Bool.eq_false_iff.mpr pending))⟩
termination_by x.effort

/-- The loop on a formula that comes from a text ends after at most seven reductions for each node
that parsing gave it, with the root settled or in an error, whatever larger limit is set. A formula
that cannot be prepared does not reach the loop. -/
theorem reductions_bounded {text : String} {e : Formula} (parsed : Expression.ofText text = .ok e) :
    match prepare e with
    | (f, .error error) => trace e = (.opening f, .error error)
    | (f, .ok ()) => ∃ n g ended, n ≤ 7 * e.size ∧ n ≤ reductionLimit f ∧ Reductions f n g ended ∧
        ∀ (t : Trace) (fuel : Nat), t.formula = f → n ≤ fuel →
          (t.reduceWhilePending fuel).1.formula = g ∧ (t.reduceWhilePending fuel).2 = ended := by
  obtain ⟨x, _, displays, formed⟩ := displays_of_parsed parsed
  obtain ⟨shown, _⟩ := prepare_eq displays formed
  rw [trace]
  cases prepared : prepare e with
  | mk f outcome =>
    rw [prepared] at shown
    cases outcome with
    | error error => rfl
    | ok done =>
      cases done
      obtain ⟨n, g, ended, few, reductions⟩ := reductions_of_displays shown
      have size : x.size ≤ e.size := by
        obtain ⟨t, spans, _, rfl⟩ := displays
        exact Nat.le_trans (Nat.le_of_eq (Tree.size_map ..)) spans.size_le
      have bound := x.prepare.1.effort_le
      have smaller := x.size_prepare
      exact ⟨n, g, ended, by omega, Nat.le_trans few (effort_le_limit shown), reductions,
        fun t fuel start enough => reductions.loop enough start⟩

/-- An equation that is moved over, then freed of its offset, then of its slope. -/
theorem reductions_bounded_equation : ∃ e : Formula, Expression.ofText "9=2*x+3" = .ok e ∧
    match prepare e with
    | (f, .error error) => trace e = (.opening f, .error error)
    | (f, .ok ()) => ∃ n g ended, n ≤ 7 * e.size ∧ n ≤ reductionLimit f ∧ Reductions f n g ended ∧
        ∀ (t : Trace) (fuel : Nat), t.formula = f → n ≤ fuel →
          (t.reduceWhilePending fuel).1.formula = g ∧ (t.reduceWhilePending fuel).2 = ended := by
  have parses : (Expression.ofText "9=2*x+3" : Except GrammarError Formula).isOk := by cbv
  cases parsed : (Expression.ofText "9=2*x+3" : Except GrammarError Formula) with
  | error error => simp [parsed, Except.isOk, Except.toBool] at parses
  | ok e => exact ⟨e, rfl, reductions_bounded parsed⟩

end Formula

end Stepwise
