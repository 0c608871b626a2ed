import Stepwise.Proofs.Reduction.Effort
import Stepwise.Proofs.Reduction.Prepare

/-! The trace of a tree. Main statement: evaluating a formula leaves the tree, the lines and the value
that its tree alone determines, whatever else the array holds. -/
namespace Stepwise

namespace Tree

theorem effort_next {x y : Tree Mark} (goes : x.next? = some (.ok y)) : y.effort < x.effort := by
  unfold next? at goes
  split at goes
  · exact effort_step goes
  · simp at goes

def run (x : Tree Mark) : List (Tree Mark) × Except ComputationError Unit :=
  match _ : x.next? with
  | none => ([], .ok ())
  | some (.error error) => ([], .error error)
  | some (.ok y) => (y :: y.run.1, y.run.2)
termination_by x.effort
decreasing_by all_goals exact effort_next ‹_›

theorem run_done {x : Tree Mark} (stops : x.next? = none) : x.run = ([], .ok ()) := by
  rw [run]; split <;> simp_all

theorem run_fails {x : Tree Mark} {error : ComputationError} (fails : x.next? = some (.error error)) :
    x.run = ([], .error error) := by
  rw [run]; split <;> simp_all

theorem run_goes {x y : Tree Mark} (goes : x.next? = some (.ok y)) : x.run = (y :: y.run.1, y.run.2) := by
  rw [run]; split <;> simp_all

def reduct (x : Tree Mark) : Tree Mark := x.run.1.getLastD x

theorem reduct_goes {x y : Tree Mark} (goes : x.next? = some (.ok y)) : x.reduct = y.reduct := by
  rw [reduct, run_goes goes, List.getLastD_cons]
  rfl

/-- The lines that differ from the line before. -/
def fresh : String → List String → List String
  | _, [] => []
  | last, line :: rest => if line = last then fresh last rest else line :: fresh line rest

theorem fresh_append (last : String) (first second : List String) :
    fresh last (first ++ second) = fresh last first ++ fresh (first.getLastD last) second := by
  induction first generalizing last with
  | nil => rfl
  | cons line rest ih =>
    by_cases same : line = last
    · subst same
      simp only [List.cons_append, fresh, if_true, ih]
      cases rest <;> rfl
    · simp only [List.cons_append, fresh, same, if_false, ih]
      cases rest <;> rfl

def rootNumber? : Tree Mark → Option (Float × String)
  | leaf a =>
    if a.call.isSome then
      match a.value with
      | some (.trig t) => t.value?.map (·, t.function.name)
      | some (.log t) => t.value?.map (·, "log")
      | _ => none
    else none
  | _ => none

def simplifyRoot (x : Tree Mark) : Except ComputationError (Tree Mark) :=
  match x.rootNumber? with
  | some (n, name) =>
    (Quantity.ofNumber n name).map fun constant =>
      leaf ({ x.top with call := none }.collapse constant)
  | none => .ok x

structure Result where
  tree : Tree Mark
  lines : List String
  ended : Except ComputationError Unit

def opening (x : Tree Mark) : String := "Expression: " ++ x.text

def linesWith (x : Tree Mark) (more : List (Tree Mark)) : List String :=
  x.opening :: fresh x.text ((x.run.1 ++ more).map text)

theorem linesWith_nil (x : Tree Mark) : x.linesWith [] = [x.opening] ++ fresh x.text (x.run.1.map text) := by
  simp [linesWith]

theorem linesWith_one (x y : Tree Mark) :
    x.linesWith [y] = x.linesWith [] ++ fresh x.reduct.text [y.text] := by
  rw [linesWith_nil, linesWith, List.map_append, fresh_append, List.getLastD_map]
  rfl

def reduceFully (x : Tree Mark) : Result :=
  match x.run.2 with
  | .error error => ⟨x.reduct, x.linesWith [], .error error⟩
  | .ok () =>
    match x.reduct.simplifyRoot with
    | .error error => ⟨x.reduct, x.linesWith [], .error error⟩
    | .ok y =>
      let lines := x.linesWith [y]
      ⟨y, if lines.length = 1 then lines ++ [y.text] else lines, .ok ()⟩

def trace (x : Tree Mark) : Result :=
  match x.prepare with
  | (y, .error error) => ⟨y, [y.opening], .error error⟩
  | (y, .ok ()) => y.reduceFully

namespace Result

def value (r : Result) : Except Failure Float :=
  Except.mapError .computation do
    r.ended
    Formula.valueOfLine (r.lines.getLast?.getD "")

end Result

end Tree

namespace Formula

open Expression

structure Trace.Shows (t : Trace) (x : Tree Mark) (lines : List String) : Prop where
  displays : t.formula.Displays x
  steps : t.steps.toList = lines
  last : t.last = x.text

theorem opening_shows {e : Formula} {x : Tree Mark} (displays : e.Displays x) :
    (Trace.opening e).Shows x [x.opening] := by
  have text := render_eq displays
  exact ⟨displays, by simp [Trace.opening, Tree.opening, text], text⟩

theorem Trace.Shows.record {t : Trace} {x y : Tree Mark} {lines : List String} (shown : t.Shows x lines)
    {e : Formula} (displays : e.Displays y) : (t.record e).Shows y (lines ++ Tree.fresh x.text [y.text]) := by
  have text := render_eq displays
  unfold Trace.record Tree.fresh
  rw [text, shown.last]
  by_cases same : y.text = x.text
  · simp only [same, if_true, Tree.fresh, List.append_nil]
    exact ⟨displays, shown.steps, same.symm⟩
  · simp only [same, if_false]
    exact ⟨displays, by simp [shown.steps, Tree.fresh], rfl⟩

/-- The array takes the next reduction of the tree. -/
theorem next_alike {e : Formula} {x : Tree Mark} (displays : e.Displays x) :
    (isPending (e.node e.root) = x.isPending) ∧
      match deepestPending e with
      | none => x.step? = none
      | some id => ∃ result, x.step? = some result ∧ Alike Displays (reduce e id) result := by
  obtain ⟨t, spans, root, rfl⟩ := displays
  refine ⟨by rw [isPending_view spans.links, root], ?_⟩
  have alike := step_alike spans
  rw [deepestPending_eq spans root, target?]
  cases found : finding e t with
  | none =>
    rw [found] at alike
    exact alike
  | some hit =>
    rw [found] at alike
    obtain ⟨result, stepped, alike⟩ := alike
    exact ⟨result, stepped, alike.mono fun _ _ replaces => replaces.displays root⟩

/-- The loop runs as long as its tree does. -/
theorem reduceWhilePending_eq {x : Tree Mark} {t : Trace} {lines : List String}
    (shown : t.Shows x lines) {fuel : Nat} (enough : x.effort ≤ fuel) :
    (t.reduceWhilePending fuel).1.Shows x.reduct (lines ++ Tree.fresh x.text (x.run.1.map Tree.text)) ∧
      (t.reduceWhilePending fuel).2 = x.run.2 := by
  induction fuel generalizing x t lines with
  | zero =>
    have still : x.next? = none := by
      unfold Tree.next?
      rw [if_neg fun pending => Nat.not_lt_of_le enough (Tree.effort_pending pending)]
    simpa [Trace.reduceWhilePending, Tree.reduct, Tree.run_done still, Tree.fresh] using shown
  | succ fuel ih =>
    obtain ⟨root, alike⟩ := next_alike shown.displays
    simp only [Trace.reduceWhilePending, root]
    by_cases pending : x.isPending
    · simp only [pending, if_true]
      have next : x.next? = x.step? := by simp [Tree.next?, pending]
      cases found : deepestPending t.formula with
      | none =>
        rw [found] at alike
        have still := next.trans alike
        simpa [Tree.reduct, Tree.run_done still, Tree.fresh] using shown
      | some id =>
        rw [found] at alike
        obtain ⟨result, stepped, alike⟩ := alike
        rw [stepped] at next
        simp only
        cases reduced : reduce t.formula id with
        | error error =>
          cases result with
          | error error' =>
            obtain rfl : error = error' := by simpa [reduced, Alike] using alike
            simpa [Tree.reduct, Tree.run_fails next, Tree.fresh] using shown
          | ok y => simp [reduced, Alike] at alike
        | ok formula =>
          cases result with
          | error error => simp [reduced, Alike] at alike
          | ok y =>
            have displays : formula.Displays y := by simpa [reduced, Alike] using alike
            have less := Tree.effort_next next
            obtain ⟨later, ended⟩ := ih (shown.record displays) (by omega)
            have run := Tree.run_goes next
            refine ⟨?_, by rw [ended, run]⟩
            rw [List.append_assoc] at later
            rw [Tree.reduct_goes next, run, List.map_cons, ← List.singleton_append, Tree.fresh_append]
            exact later
    · have still : x.next? = none := by simp [Tree.next?, pending]
      simpa [pending, Tree.reduct, Tree.run_done still, Tree.fresh] using shown

/-- What every reduction keeps holds of the tree wherever the loop stands. -/
theorem reduceWhilePending_keeps {P : Tree Mark → Prop} (kept : ∀ x y, P x → x.next? = some (.ok y) → P y)
    {x : Tree Mark} (here : P x) {t : Trace} (displays : t.formula.Displays x) (fuel : Nat) :
    ∃ y, (t.reduceWhilePending fuel).1.formula.Displays y ∧ P y := by
  induction fuel generalizing x t with
  | zero => exact ⟨x, displays, here⟩
  | succ fuel ih =>
    obtain ⟨root, alike⟩ := next_alike displays
    simp only [Trace.reduceWhilePending, root]
    by_cases pending : x.isPending
    · simp only [pending, if_true]
      have next : x.next? = x.step? := by simp [Tree.next?, pending]
      cases found : deepestPending t.formula with
      | none => exact ⟨x, displays, here⟩
      | some id =>
        rw [found] at alike
        obtain ⟨result, stepped, alike⟩ := alike
        simp only
        cases reduced : reduce t.formula id with
        | error error => exact ⟨x, displays, here⟩
        | ok formula =>
          cases result with
          | error error => simp [reduced, Alike] at alike
          | ok y =>
            have later : formula.Displays y := by simpa [reduced, Alike] using alike
            refine ih (kept x y here (next.trans stepped)) ?_
            unfold Trace.record
            simp only
            split <;> exact later
    · simp only [pending]
      exact ⟨x, displays, here⟩

theorem rootNumber_eq {e : Formula} {t : Tree NodeId} (spans : e.Spans t) (root : t.top = e.root) :
    rootNumber? e = (e.view t).rootNumber? := by
  have isLeaf := spans.links.isLeaf_eq
  rw [rootNumber?, ← root]
  cases t with
  | leaf id =>
    simp only [Tree.top_leaf, Tree.isLeaf] at isLeaf ⊢
    simp only [isLeaf, view_leaf, Tree.rootNumber?, Bool.true_and]
    rfl
  | group id inner => simp only [isLeaf, Tree.isLeaf, Bool.false_and, view_group, Tree.rootNumber?]; rfl
  | fork id left right => simp only [isLeaf, Tree.isLeaf, Bool.false_and, view_fork, Tree.rootNumber?]; rfl

theorem simplifyRoot_alike {e : Formula} {x : Tree Mark} (displays : e.Displays x) :
    Alike Displays (simplifyRoot e) x.simplifyRoot := by
  obtain ⟨t, spans, root, rfl⟩ := displays
  rw [simplifyRoot, Tree.simplifyRoot, rootNumber_eq spans root]
  cases (e.view t).rootNumber? with
  | none => exact ⟨t, spans, root, rfl⟩
  | some hit =>
    simp only
    cases Quantity.ofNumber hit.1 hit.2 with
    | error error => rfl
    | ok constant =>
      have top : (e.view t).top = (e.node t.top).label := by simp [Expression.view]
      simp only [← root, top]
      exact (uncall_replaces spans constant).displays root

theorem effort_le_limit {e : Formula} {x : Tree Mark} (displays : e.Displays x) :
    x.effort ≤ reductionLimit e := by
  obtain ⟨t, spans, _, rfl⟩ := displays
  have few := (e.view t).effort_le
  have same : (e.view t).size = t.size := Tree.size_map ..
  have fits := spans.size_le
  rw [reductionLimit]
  omega

theorem trace_eq {e : Formula} {x : Tree Mark} (displays : e.Displays x) (formed : x.Formed) :
    (trace e).1.formula.Displays x.trace.tree ∧ (trace e).1.steps.toList = x.trace.lines ∧
      (trace e).2 = x.trace.ended := by
  obtain ⟨prepared, ended⟩ := prepare_eq displays formed
  unfold trace Tree.trace
  generalize prepare e = left at prepared ended ⊢
  generalize x.prepare = right at prepared ended ⊢
  obtain ⟨f, result⟩ := left
  obtain ⟨y, result'⟩ := right
  obtain rfl : result = result' := ended
  have opened := opening_shows prepared
  cases result with
  | error error => exact ⟨opened.displays, opened.steps, rfl⟩
  | ok done =>
    cases done
    obtain ⟨shown, ended'⟩ := reduceWhilePending_eq opened (effort_le_limit prepared)
    rw [← Tree.linesWith_nil] at shown
    simp only [Tree.reduceFully]
    generalize (Trace.opening f).reduceWhilePending (reductionLimit f) = reduced at shown ended' ⊢
    obtain ⟨t, result⟩ := reduced
    obtain rfl : result = y.run.2 := ended'
    cases y.run.2 with
    | error error => exact ⟨shown.displays, shown.steps, rfl⟩
    | ok done =>
      cases done
      simp only
      have alike := simplifyRoot_alike shown.displays
      cases left : simplifyRoot t.formula with
      | error error =>
        cases right : y.reduct.simplifyRoot with
        | error error' =>
          obtain rfl : error = error' := by simpa [left, right, Alike] using alike
          exact ⟨shown.displays, shown.steps, rfl⟩
        | ok z => simp [left, right, Alike] at alike
      | ok formula =>
        cases right : y.reduct.simplifyRoot with
        | error error => simp [left, right, Alike] at alike
        | ok z =>
          have final : formula.Displays z := by simpa [left, right, Alike] using alike
          have recorded := shown.record final
          rw [← Tree.linesWith_one] at recorded
          have length : (t.record formula).steps.size = (y.linesWith [z]).length := by
            rw [← recorded.steps, Array.length_toList]
          simp only [length]
          by_cases single : (y.linesWith [z]).length = 1
          · rw [if_pos single, if_pos single]
            exact ⟨recorded.displays, by rw [Array.toList_push, recorded.steps, recorded.last], rfl⟩
          · rw [if_neg single, if_neg single]
            exact ⟨recorded.displays, recorded.steps, rfl⟩

/-- Evaluating a formula gives what its tree gives. -/
theorem evaluate_eq {e : Formula} {x : Tree Mark} (displays : e.Displays x) (formed : x.Formed) :
    (evaluate e).formula.Displays x.trace.tree ∧ (evaluate e).steps.toList = x.trace.lines ∧
      (evaluate e).value = x.trace.value := by
  obtain ⟨shown, steps, ended⟩ := trace_eq displays formed
  refine ⟨shown, steps, ?_⟩
  have last : (trace e).1.steps.back?.getD "" = x.trace.lines.getLast?.getD "" := by
    rw [← steps, Array.getLast?_toList]
  rw [Tree.Result.value, ← ended, ← last]
  rfl

end Formula

end Stepwise
