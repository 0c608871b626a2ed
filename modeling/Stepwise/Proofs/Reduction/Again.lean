import Stepwise.Proofs.Reduction.Prepared
import Stepwise.Proofs.Reduction.Trace
import Stepwise.Proofs.Tree.Building

/-! Evaluating what an evaluation has left. Preparation takes up the settled derivatives of equations
again. They settle again without a change of the text, and what stopped the first evaluation, an
error or a root that is not pending, stops the second one at the same place. -/
namespace Stepwise

namespace Tree

theorem Solved.idle {a : Mark} {left right : Tree Mark} (solved : Solved a left right) :
    (fork a left right).Idle :=
  idle_fork.mpr ⟨solved.first, solved.second, by simp [isPending, Label.isSettled, solved.reduced]⟩

/-- An equation that is taken up again settles as it was. -/
theorem Solved.settles {a : Mark} {left right : Tree Mark} (solved : Solved a left right) :
    (fork { a with reduced := false } left right).step? = some (.ok (fork a left right)) := by
  have here : (fork { a with reduced := false } left right).isPending := by
    simp [isPending, Label.isSettled, solved.deferred, isLeaf]
  have still : ¬ deeper left.pendingDepth right.pendingDepth :=
    fun deeper => not_idle_of_deeper deeper solved.first
  have label : { a with reduced := true, deferred := false } = a := by
    have reduced := solved.reduced
    have deferred := solved.deferred
    cases a
    simp_all
  have equation : (fork { a with reduced := false } left right).top.token.kind = .equals := solved.equation
  rw [step?, if_neg still, (step_none_iff right).mpr solved.second]
  simp only [here, if_true, reduceTop, isLeaf, equation, Bool.false_eq_true, if_false]
  rw [solved.isolated, settleEquation, mapTop]
  exact congrArg (fun b => some (Except.ok (fork b left right))) label

/-- The second tree is the first one with some settled equations taken up again. -/
inductive Reopened : Tree Mark → Tree Mark → Prop
  | leaf (a : Mark) : Reopened (leaf a) (leaf a)
  | group (a : Mark) {x y : Tree Mark} (inner : Reopened x y) : Reopened (group a x) (group a y)
  | fork (a : Mark) {left right l r : Tree Mark} (first : Reopened left l) (second : Reopened right r) :
      Reopened (fork a left right) (fork a l r)
  | equation {a : Mark} {left right l r : Tree Mark} (first : Reopened left l) (second : Reopened right r)
      (solved : Solved a left right) : Reopened (fork a left right) (fork { a with reduced := false } l r)

namespace Reopened

variable {x y : Tree Mark}

theorem refl (x : Tree Mark) : Reopened x x := by
  induction x with
  | leaf a => exact .leaf a
  | group a inner ih => exact .group a ih
  | fork a left right ihl ihr => exact .fork a ihl ihr

/-- What preparation makes of a prepared tree. -/
theorem of_prepared (prepared : x.Prepared) : Reopened x (x.map Label.reopen) := by
  induction x with
  | leaf a =>
    simp only [map, Label.reopen_of_outstanding prepared.2.2]
    exact .leaf a
  | group a inner ih =>
    simp only [map, Label.reopen_of_outstanding prepared.2.2.1]
    exact .group a (ih prepared.2.2.2)
  | fork a left right ihl ihr =>
    obtain ⟨_, _, outstandingOrSolved, l, r⟩ := prepared
    rcases outstandingOrSolved with outstanding | solved
    · simp only [map, Label.reopen_of_outstanding outstanding]
      exact .fork a (ihl l) (ihr r)
    · by_cases derivative : a.isDerivative
      · simp only [map, Label.reopen, derivative, if_true]
        exact .equation (ihl l) (ihr r) solved
      · simp only [map, Label.reopen, derivative]
        exact .fork a (ihl l) (ihr r)

/-- Both trees are written alike, also as the left operand of a product. -/
theorem rendered (reopened : Reopened x y) :
    y.rendered = x.rendered ∧ ∀ a : Mark, isUnit a y = isUnit a x := by
  have operator (a : Mark) {left l : Tree Mark} (same : ∀ a : Mark, isUnit a l = isUnit a left)
      (m n : Rendered) : operatorRendered a l m n = operatorRendered a left m n := by
    unfold operatorRendered
    rw [same a]
  induction reopened with
  | leaf a => exact ⟨rfl, fun _ => rfl⟩
  | group a inner ih => exact ⟨by rw [Tree.rendered, ih.1, operator a ih.2]; rfl, fun _ => rfl⟩
  | fork a first second ihl ihr =>
    exact ⟨by rw [Tree.rendered, ihl.1, ihr.1, operator a ihl.2]; rfl, fun _ => rfl⟩
  | equation first second _ ihl ihr =>
    exact ⟨by rw [Tree.rendered, ihl.1, ihr.1, operator _ ihl.2]; rfl, fun _ => rfl⟩

theorem text (reopened : Reopened x y) : y.text = x.text := congrArg Rendered.text reopened.rendered.1

theorem isPending (reopened : Reopened x y) (pending : x.isPending) : y.isPending := by
  cases reopened with
  | leaf a => exact pending
  | group a inner => exact pending
  | fork a first second => exact pending
  | equation first second solved => simp [Tree.isPending, Label.isSettled, solved.reduced] at pending

/-- Nothing was taken up where nothing is pending. -/
theorem eq_of_idle (reopened : Reopened x y) (idle : y.Idle) : y = x := by
  induction reopened with
  | leaf a => rfl
  | group a inner ih => rw [ih (idle_group.mp idle).1]
  | fork a first second ihl ihr => rw [ihl (idle_fork.mp idle).1, ihr (idle_fork.mp idle).2.1]
  | equation first second solved =>
    have here := (idle_fork.mp idle).2.2
    simp [Tree.isPending, Label.isSettled, solved.deferred, isLeaf] at here

end Reopened

def height (x : Tree Mark) : Nat := x.pendingDepth.elim 0 (· + 1)

theorem deeper_iff (left right : Tree Mark) :
    deeper left.pendingDepth right.pendingDepth ↔ right.height < left.height := by
  unfold height
  cases left.pendingDepth <;> cases right.pendingDepth <;> simp [deeper]

theorem idle_iff_height (x : Tree Mark) : x.Idle ↔ x.height = 0 := by
  unfold Idle height
  cases x.pendingDepth <;> simp

theorem height_group (a : Mark) (inner : Tree Mark) :
    (group a inner).height =
      if inner.height = 0 then (if (group a inner).isPending then 1 else 0) else inner.height + 1 := by
  cases found : inner.pendingDepth with
  | none => by_cases pending : (group a inner).isPending <;> simp [height, pendingDepth, found, pending]
  | some depth => simp [height, pendingDepth, found]

theorem height_fork (a : Mark) (left right : Tree Mark) :
    (fork a left right).height =
      if left.height = 0 ∧ right.height = 0 then (if (fork a left right).isPending then 1 else 0)
      else max left.height right.height + 1 := by
  by_cases first : deeper left.pendingDepth right.pendingDepth
  · have less := (deeper_iff left right).mp first
    have here : (fork a left right).height = left.height + 1 := by
      have busy : left.height ≠ 0 := by omega
      simp only [height, pendingDepth, first, if_true] at busy ⊢
      cases found : left.pendingDepth with
      | none => simp [found] at busy
      | some depth => simp
    rw [here, if_neg (by omega), Nat.max_eq_left (Nat.le_of_lt less)]
  · have most : left.height ≤ right.height :=
      Nat.le_of_not_lt fun less => first ((deeper_iff left right).mpr less)
    have here : (fork a left right).height =
        if right.height = 0 then (if (fork a left right).isPending then 1 else 0) else right.height + 1 := by
      cases found : right.pendingDepth with
      | none =>
        rw [found] at first
        by_cases pending : (fork a left right).isPending <;>
          simp [height, pendingDepth, found, first, pending]
      | some depth =>
        rw [found] at first
        simp [height, pendingDepth, found, first]
    by_cases rest : right.height = 0
    · have rest' : left.height = 0 := by omega
      rw [here, if_pos rest, if_pos (And.intro rest' rest)]
    · rw [here, if_neg rest, if_neg fun both => rest both.2, Nat.max_eq_right most]

theorem isPending_relabel (a : Mark) (left right l r : Tree Mark) :
    (fork a left right).isPending = (fork a l r).isPending := rfl

/-- Taking up an equation makes nothing less deep. -/
theorem Reopened.height {x y : Tree Mark} (reopened : Reopened x y) : x.height ≤ y.height := by
  induction reopened with
  | leaf a => exact Nat.le_refl _
  | @group a x y inner ih =>
    have same : (Tree.group a x).isPending = (Tree.group a y).isPending := rfl
    rw [height_group, height_group, same]
    repeat' split
    all_goals omega
  | @fork a left right l r first second ihl ihr =>
    rw [height_fork, height_fork, isPending_relabel a left right l r]
    repeat' split
    all_goals omega
  | equation first second solved => exact (idle_iff_height _).mp solved.idle ▸ Nat.zero_le _

theorem step_group {a : Mark} {inner : Tree Mark} (busy : inner.height ≠ 0) :
    (group a inner).step? = inner.step?.map fun result => result.map (group a) := by
  rw [step?]
  cases stepped : inner.step? with
  | none => exact absurd ((idle_iff_height inner).mp ((step_none_iff inner).mp stepped)) busy
  | some result => rfl

theorem step_left {a : Mark} {left right : Tree Mark} (first : right.height < left.height) :
    (fork a left right).step? = left.step?.map fun result => result.map (fork a · right) := by
  rw [step?, if_pos ((deeper_iff left right).mpr first)]

theorem step_right {a : Mark} {left right : Tree Mark} (second : left.height ≤ right.height)
    (busy : right.height ≠ 0) :
    (fork a left right).step? = right.step?.map fun result => result.map (fork a left) := by
  rw [step?, if_neg fun first => Nat.not_lt_of_le second ((deeper_iff left right).mp first)]
  cases stepped : right.step? with
  | none => exact absurd ((idle_iff_height right).mp ((step_none_iff right).mp stepped)) busy
  | some result => rfl

def FailsAlike (x y : Tree Mark) : Prop :=
  ∀ error, x.step? = some (.error error) → y.step? = some (.error error)

/-- Of a tree and the same tree with equations taken up again, the second one settles one of those,
or both come to the same. -/
theorem Reopened.step {x y : Tree Mark} (reopened : Reopened x y) :
    (∃ z, y.step? = some (.ok z) ∧ Reopened x z) ∨ (y.height = x.height ∧ FailsAlike x y) := by
  have failed {x y : Tree Mark}
      (alike : FailsAlike x y) (f : Tree Mark → Tree Mark) {error : ComputationError}
      (fails : (x.step?.map fun result => result.map f) = some (.error error)) :
      y.step? = some (.error error) := by
    obtain ⟨result, stepped, mapped⟩ := Option.map_eq_some_iff.mp fails
    cases result with
    | error other => exact alike error (by rw [stepped, ← mapped]; rfl)
    | ok z => simp [Except.map] at mapped
  induction reopened with
  | leaf a => exact .inr ⟨rfl, fun _ fails => fails⟩
  | @group a x y inner ih =>
    by_cases idle : y.height = 0
    · rw [inner.eq_of_idle ((idle_iff_height y).mpr idle)]
      exact .inr ⟨rfl, fun _ fails => fails⟩
    · rcases ih with ⟨z, stepped, later⟩ | ⟨height, alike⟩
      · exact .inl ⟨Tree.group a z, by rw [step_group idle, stepped]; rfl, .group a later⟩
      · refine .inr ⟨by rw [height_group, height_group, height, if_neg (height ▸ idle),
          if_neg (height ▸ idle)], ?_⟩
        intro error fails
        rw [step_group (height ▸ idle)] at fails
        rw [step_group idle, failed alike _ fails]
        rfl
  | @fork a left right l r first second ihl ihr =>
    have monotonel := first.height
    have monotoner := second.height
    by_cases deeper : r.height < l.height
    · rcases ihl with ⟨z, stepped, later⟩ | ⟨height, alike⟩
      · exact .inl ⟨Tree.fork a z r, by rw [step_left deeper, stepped]; rfl, .fork a later second⟩
      · have deeper' : right.height < left.height := by omega
        refine .inr ⟨?_, fun error fails => ?_⟩
        · rw [height_fork, height_fork, if_neg (by omega), if_neg (by omega)]
          omega
        · rw [step_left deeper'] at fails
          rw [step_left deeper, failed alike _ fails]
          rfl
    · by_cases idle : r.height = 0
      · have same := first.eq_of_idle ((idle_iff_height l).mpr (by omega))
        have same' := second.eq_of_idle ((idle_iff_height r).mpr idle)
        rw [same, same']
        exact .inr ⟨rfl, fun _ fails => fails⟩
      · rcases ihr with ⟨z, stepped, later⟩ | ⟨height, alike⟩
        · exact .inl ⟨Tree.fork a l z, by rw [step_right (by omega) idle, stepped]; rfl, .fork a first later⟩
        · refine .inr ⟨?_, fun error fails => ?_⟩
          · rw [height_fork, height_fork, if_neg (by omega), if_neg (by omega)]
            omega
          · rw [step_right (by omega) (by omega)] at fails
            rw [step_right (by omega) idle, failed alike _ fails]
            rfl
  | @equation a left right l r first second solved ihl ihr =>
    have restl := (idle_iff_height left).mp solved.first
    have restr := (idle_iff_height right).mp solved.second
    by_cases deeper : r.height < l.height
    · rcases ihl with ⟨z, stepped, later⟩ | ⟨height, _⟩
      · exact .inl ⟨Tree.fork _ z r, by rw [step_left deeper, stepped]; rfl, .equation later second solved⟩
      · omega
    · by_cases idle : r.height = 0
      · have same := first.eq_of_idle ((idle_iff_height l).mpr (by omega))
        have same' := second.eq_of_idle ((idle_iff_height r).mpr idle)
        rw [same, same']
        exact .inl ⟨Tree.fork a left right, solved.settles, .refl _⟩
      · rcases ihr with ⟨z, stepped, later⟩ | ⟨height, _⟩
        · exact .inl ⟨Tree.fork _ l z, by rw [step_right (by omega) idle, stepped]; rfl,
            .equation first later solved⟩
        · omega

theorem not_idle_of_pending {x : Tree Mark} (pending : x.isPending) : ¬ x.Idle := fun idle =>
  absurd (effort_idle idle) (Nat.ne_of_gt (effort_pending pending))

/-- A root that was not taken up is pending in both trees. -/
theorem Reopened.pending_of_height {x y : Tree Mark} (reopened : Reopened x y) (pending : y.isPending)
    (height : y.height = x.height) : x.isPending := by
  cases reopened with
  | leaf a => exact pending
  | group a inner => exact pending
  | fork a first second => exact pending
  | equation first second solved =>
    rw [(idle_iff_height _).mp solved.idle] at height
    exact absurd ((idle_iff_height _).mpr height) (not_idle_of_pending pending)

theorem run_nil_cases {x : Tree Mark} {ended : Except ComputationError Unit} (stopped : x.run = ([], ended)) :
    x.next? = none ∧ ended = .ok () ∨ ∃ error, x.next? = some (.error error) ∧ ended = .error error := by
  cases next : x.next? with
  | none => exact .inl ⟨rfl, by rw [run_done next] at stopped; exact (Prod.mk.inj stopped).2.symm⟩
  | some result =>
    cases result with
    | error error =>
      exact .inr ⟨error, rfl, by rw [run_fails next] at stopped; exact (Prod.mk.inj stopped).2.symm⟩
    | ok y => simp [run_goes next] at stopped

/-- What comes next in the second tree: an equation settles, or it stops like the first tree. -/
theorem Reopened.next {x y : Tree Mark} (reopened : Reopened x y) {ended : Except ComputationError Unit}
    (stopped : x.run = ([], ended)) :
    (∃ z, y.next? = some (.ok z) ∧ Reopened x z) ∨ y.run = ([], ended) := by
  cases pending : y.isPending with
  | false =>
    have still : x.isPending = false := by
      cases here : x.isPending with
      | false => rfl
      | true => exact absurd (reopened.isPending here) (by simp [pending])
    rw [run_done (by simp [next?, still])] at stopped
    rw [run_done (by simp [next?, pending])]
    exact .inr stopped
  | true =>
    have next : y.next? = y.step? := by simp [next?, pending]
    rw [next]
    rcases reopened.step with silent | ⟨height, alike⟩
    · exact .inl silent
    · have here := reopened.pending_of_height pending height
      have next' : x.next? = x.step? := by simp [next?, here]
      rcases run_nil_cases stopped with ⟨stops, _⟩ | ⟨error, fails, rfl⟩
      · exact absurd ((step_none_iff x).mp (next' ▸ stops)) (not_idle_of_pending here)
      · exact .inr (run_fails (next.trans (alike error (next' ▸ fails))))

/-- A run of the second tree settles equations until it stops like the first tree. -/
theorem Reopened.run {x y : Tree Mark} (reopened : Reopened x y)
    {ended : Except ComputationError Unit} (stopped : x.run = ([], ended)) :
    y.run.2 = ended ∧ Reopened x y.reduct ∧ ∀ z ∈ y.run.1, z.text = x.text := by
  rcases reopened.next stopped with ⟨z, goes, later⟩ | stopped'
  · obtain ⟨sameEnd, last, texts⟩ := later.run stopped
    rw [run_goes goes, reduct_goes goes]
    refine ⟨sameEnd, last, fun u member => ?_⟩
    rcases List.mem_cons.mp member with rfl | member
    · exact later.text
    · exact texts u member
  · rw [reduct, stopped']
    exact ⟨rfl, reopened, fun _ member => absurd member List.not_mem_nil⟩
termination_by y.effort
decreasing_by exact effort_next goes

theorem fresh_same {last : String} {lines : List String} (same : ∀ line ∈ lines, line = last) :
    fresh last lines = [] := by
  induction lines with
  | nil => rfl
  | cons line rest ih =>
    rw [fresh, if_pos (same line (List.mem_cons_self ..))]
    exact ih fun other member => same other (List.mem_cons_of_mem _ member)

theorem rootNumber_inner {x : Tree Mark} (inner : x.isLeaf = false) : x.rootNumber? = none := by
  cases x with
  | leaf a => simp [isLeaf] at inner
  | group a inner => rfl
  | fork a left right => rfl

theorem simplifyRoot_inner {x : Tree Mark} (inner : x.isLeaf = false) : x.simplifyRoot = .ok x := by
  simp [simplifyRoot, rootNumber_inner inner]

/-- The second tree is simplified as little as the first one. -/
theorem Reopened.simplifyRoot {x y : Tree Mark} (reopened : Reopened x y) :
    y = x ∨ x.simplifyRoot = .ok x ∧ y.simplifyRoot = .ok y := by
  cases reopened with
  | leaf a => exact .inl rfl
  | group a inner => exact .inr ⟨simplifyRoot_inner rfl, simplifyRoot_inner rfl⟩
  | fork a first second => exact .inr ⟨simplifyRoot_inner rfl, simplifyRoot_inner rfl⟩
  | equation first second solved => exact .inr ⟨simplifyRoot_inner rfl, simplifyRoot_inner rfl⟩

/-- A tree that goes no further, and how evaluating it ends. -/
inductive Finished (x : Tree Mark) : Except ComputationError Unit → Prop
  | unfolded {error : ComputationError} (formed : x.Formed) (folded : x.foldFactorials = (x, .error error)) :
      Finished x (.error error)
  | unreduced {error : ComputationError} (prepared : x.Prepared) (stopped : x.run = ([], .error error)) :
      Finished x (.error error)
  | unsimplified {error : ComputationError} (prepared : x.Prepared) (stopped : x.run = ([], .ok ()))
      (simplified : x.simplifyRoot = .error error) : Finished x (.error error)
  | done (prepared : x.Prepared) (stopped : x.run = ([], .ok ())) (simplified : x.simplifyRoot = .ok x) :
      Finished x (.ok ())

def finalLines (x : Tree Mark) : Except ComputationError Unit → List String
  | .ok () => [x.opening, x.text]
  | .error _ => [x.opening]

theorem Finished.formed {x : Tree Mark} {ended : Except ComputationError Unit} (finished : Finished x ended) :
    x.Formed := by
  cases finished with
  | unfolded formed _ => exact formed
  | unreduced prepared _ => exact prepared.formed
  | unsimplified prepared _ _ => exact prepared.formed
  | done prepared _ _ => exact prepared.formed

/-- A finished tree is shown as it is and ends as before. -/
theorem Finished.again {x : Tree Mark} {ended : Except ComputationError Unit} (finished : Finished x ended) :
    x.trace.tree.text = x.text ∧ x.trace.ended = ended ∧ x.trace.lines = x.finalLines ended := by
  have once (prepared : x.Prepared) {stop : Except ComputationError Unit} (stopped : x.run = ([], stop)) :
      ∃ y, x.prepare = (y, .ok ()) ∧ y.run.2 = stop ∧ Reopened x y.reduct ∧ y.linesWith [] = [x.opening] ∧
        ∀ z, z.text = x.text → y.linesWith [z] = [x.opening] := by
    have reopened := Reopened.of_prepared prepared
    obtain ⟨stop, last, texts⟩ := reopened.run stopped
    have opening : (x.map Label.reopen).opening = x.opening := by rw [Tree.opening, reopened.text]; rfl
    have lines : (x.map Label.reopen).linesWith [] = [x.opening] := by
      rw [linesWith_nil, opening, reopened.text, fresh_same fun line member => ?_]
      · rfl
      · obtain ⟨z, passed, rfl⟩ := List.mem_map.mp member
        exact texts z passed
    refine ⟨_, prepared.again, stop, last, lines, fun z same => ?_⟩
    rw [linesWith_one, lines, last.text, same]
    simp [fresh]
  cases finished with
  | unfolded _ folded => simp [trace, prepare, folded, finalLines]
  | unreduced prepared stopped =>
    obtain ⟨y, prepared, stop, last, lines, _⟩ := once prepared stopped
    simp only [trace, prepared, reduceFully, stop]
    exact ⟨last.text, trivial, lines⟩
  | unsimplified prepared stopped simplified =>
    obtain ⟨y, prepared, stop, last, lines, _⟩ := once prepared stopped
    rcases last.simplifyRoot with same | ⟨whole, _⟩
    · simp only [trace, prepared, reduceFully, stop, same, simplified]
      exact ⟨trivial, trivial, lines⟩
    · rw [whole] at simplified
      cases simplified
  | done prepared stopped simplified =>
    obtain ⟨y, prepared, stop, last, _, lines⟩ := once prepared stopped
    have simplified' : y.reduct.simplifyRoot = .ok y.reduct := by
      rcases last.simplifyRoot with same | ⟨_, whole⟩
      · rw [same, simplified]
      · exact whole
    simp only [trace, prepared, reduceFully, stop, simplified', lines y.reduct last.text]
    exact ⟨last.text, trivial, by simp [finalLines, last.text]⟩

theorem Prepared.next {x y : Tree Mark} (prepared : x.Prepared) (goes : x.next? = some (.ok y)) :
    y.Prepared := by
  unfold next? at goes
  split at goes
  · exact prepared.step goes
  · simp at goes

/-- A run leads to a prepared tree that goes no further. -/
theorem Prepared.reduct {x : Tree Mark} (prepared : x.Prepared) :
    x.reduct.Prepared ∧ x.reduct.run = ([], x.run.2) := by
  fun_induction Tree.run x with
  | case1 x stops =>
    rw [Tree.reduct, run_done stops]
    exact ⟨prepared, run_done stops⟩
  | case2 x error fails =>
    rw [Tree.reduct, run_fails fails]
    exact ⟨prepared, run_fails fails⟩
  | case3 x y goes ih =>
    rw [reduct_goes goes]
    exact ih (prepared.next goes)

theorem foldFactorials_again {x : Tree Mark} (formed : x.Formed) {error : ComputationError}
    (failed : x.foldFactorials.2 = .error error) :
    x.foldFactorials.1.Formed ∧ x.foldFactorials.1.foldFactorials = (x.foldFactorials.1, .error error) := by
  have whole {y : Tree Mark} (formed : y.Formed) (folded : y.foldFactorials.2 = .ok ()) :
      y.foldFactorials.1.foldFactorials = (y.foldFactorials.1, .ok ()) := by
    have leaves := (foldFactorials_leaves formed folded).2
    generalize y.foldFactorials.1 = z at leaves
    induction z with
    | leaf a => simp [foldFactorials, show a.token.kind ≠ .factorial from leaves]
    | group a inner ih => simp [foldFactorials, ih leaves]
    | fork a left right ihl ihr => simp [foldFactorials, ihl leaves.1, ihr leaves.2]
  induction x with
  | leaf a =>
    simp only [foldFactorials] at failed ⊢
    by_cases kind : a.token.kind = .factorial
    · simp only [kind, if_true] at failed ⊢
      cases outcome : factorial ((Decimal.read? a.token.text).getD Decimal.nan) with
      | ok value => simp [outcome] at failed
      | error other =>
        simp only [outcome] at failed ⊢
        exact ⟨trivial, by simp [foldFactorials, kind, outcome, Except.error.inj failed]⟩
    · simp [kind] at failed
  | group a inner ih =>
    obtain ⟨inside, again⟩ := ih formed.2 failed
    exact ⟨⟨formed.1, inside⟩, by simp only [foldFactorials, again]⟩
  | fork a left right ihl ihr =>
    simp only [foldFactorials] at failed ⊢
    cases first : left.foldFactorials with
    | mk l ended =>
      rw [first] at failed ihl
      cases ended with
      | error other =>
        obtain ⟨inside, again⟩ := ihl formed.2.1 failed
        refine ⟨⟨formed.1, inside, formed.2.2⟩, ?_⟩
        simp only at again
        simp only [foldFactorials, again]
      | ok done =>
        obtain ⟨inside, again⟩ := ihr formed.2.2 failed
        have kept := (foldFactorials_leaves formed.2.1 (by rw [first])).1
        have same := whole formed.2.1 (by rw [first])
        rw [first] at kept same
        refine ⟨⟨formed.1, kept, inside⟩, ?_⟩
        simp only at same
        simp only [foldFactorials, same, again]

/-- An evaluation leaves a tree that goes no further. -/
theorem trace_finished {x : Tree Mark} (formed : x.Formed) : Finished x.trace.tree x.trace.ended := by
  unfold trace
  cases result : x.prepare with
  | mk y ended =>
    cases ended with
    | error error =>
      have folded : x.foldFactorials = (y, .error error) := by
        unfold prepare at result
        split at result
        · simp at result
        · exact result
      obtain ⟨formed, again⟩ := foldFactorials_again formed (congrArg Prod.snd folded)
      rw [folded] at formed again
      exact .unfolded formed again
    | ok done =>
      cases done
      obtain ⟨prepared, stopped⟩ := (prepare_prepared formed result).reduct
      simp only [reduceFully]
      cases stop : y.run.2 with
      | error error =>
        rw [stop] at stopped
        exact .unreduced prepared stopped
      | ok done =>
        cases done
        rw [stop] at stopped
        cases simplified : y.reduct.simplifyRoot with
        | error error => exact .unsimplified prepared stopped simplified
        | ok z =>
          simp only
          unfold simplifyRoot at simplified
          cases number : y.reduct.rootNumber? with
          | none =>
            rw [number] at simplified
            obtain rfl := Except.ok.inj simplified
            exact .done prepared stopped (by simp [simplifyRoot, number])
          | some hit =>
            rw [number] at simplified
            obtain ⟨constant, _, rfl⟩ := of_map_ok simplified
            refine .done (prepared_collapse rfl constant) (run_done rfl) ?_
            simp [simplifyRoot, rootNumber?, Label.collapse]

theorem fresh_getLastD (last : String) (lines : List String) :
    (fresh last lines).getLastD last = lines.getLastD last := by
  induction lines generalizing last with
  | nil => rfl
  | cons line rest ih =>
    by_cases same : line = last
    · subst same
      simp only [fresh, if_true, ih, List.getLastD_cons]
    · simp only [fresh, same, if_false, List.getLastD_cons, ih]

/-- The last line shows the whole of what is left. -/
theorem trace_last {x : Tree Mark} (ended : x.trace.ended = .ok ()) :
    x.trace.lines.getLast? = some x.trace.tree.text := by
  unfold trace at ended ⊢
  cases result : x.prepare with
  | mk y stop =>
    rw [result] at ended
    cases stop with
    | error error => simp at ended
    | ok done =>
      cases done
      simp only [reduceFully] at ended ⊢
      cases stop : y.run.2 with
      | error error => simp [stop] at ended
      | ok done =>
        cases done
        rw [stop] at ended
        cases simplified : y.reduct.simplifyRoot with
        | error error => simp [simplified] at ended
        | ok z =>
          simp only
          by_cases single : (y.linesWith [z]).length = 1
          · simp [single]
          · have last := fresh_getLastD y.text ((y.run.1 ++ [z]).map text)
            simp only [single, if_false]
            rw [linesWith] at single ⊢
            cases shown : fresh y.text ((y.run.1 ++ [z]).map text) with
            | nil => exact absurd (by rw [shown]; rfl) single
            | cons line rest =>
              rw [shown, List.getLastD_cons] at last
              rw [List.getLast?_cons_cons, List.getLast?_cons, ← List.getLastD_eq_getLast?, last]
              simp

end Tree

namespace Formula

open Expression

/-- A formula that comes from a text displays a tree whose operators stand over their operands. -/
theorem displays_of_parsed {text : String} {e : Formula} (parsed : Expression.ofText text = .ok e) :
    ∃ x : Tree Mark, Tree.ofText text = .ok x ∧ e.Displays x ∧ x.Formed := by
  obtain ⟨x, built, displays⟩ := ofText_displays parsed
  exact ⟨x, built, displays, Tree.ofText_formed built⟩

/-- Evaluating what an evaluation has left gives the same number or error once more, does not change
the text that is left, and shows that text twice, or once when the reductions end in an error. -/
theorem evaluate_again {text : String} {e : Formula} (parsed : Expression.ofText text = .ok e) :
    (evaluate (evaluate e).formula).value = (evaluate e).value ∧
      (evaluate (evaluate e).formula).formula.render = (evaluate e).formula.render ∧
      (evaluate (evaluate e).formula).steps.toList =
        match (trace e).2 with
        | .ok () => ["Expression: " ++ (evaluate e).formula.render, (evaluate e).formula.render]
        | .error _ => ["Expression: " ++ (evaluate e).formula.render] := by
  obtain ⟨x, _, displays, formed⟩ := displays_of_parsed parsed
  obtain ⟨first, _, value⟩ := evaluate_eq displays formed
  have finished := Tree.trace_finished formed
  obtain ⟨text, ended, lines⟩ := finished.again
  obtain ⟨second, lines', value'⟩ := evaluate_eq first finished.formed
  have written := render_eq first
  refine ⟨?_, by rw [render_eq second, text, written], ?_⟩
  · rw [value', value, Tree.Result.value, Tree.Result.value, ended, lines]
    cases stop : x.trace.ended with
    | error error => rfl
    | ok done =>
      cases done
      rw [Tree.trace_last stop]
      rfl
  · rw [lines', lines, (trace_eq displays formed).2.2, written]
    cases x.trace.ended <;> rfl

/-- An equation that a derivative stands around is taken up again and settles once more. -/
theorem evaluate_again_derivative : ∃ e : Formula, Expression.ofText "diff(x=1)+2" = .ok e ∧
    (evaluate (evaluate e).formula).value = (evaluate e).value ∧
      (evaluate (evaluate e).formula).formula.render = (evaluate e).formula.render ∧
      (evaluate (evaluate e).formula).steps.toList =
        match (trace e).2 with
        | .ok () => ["Expression: " ++ (evaluate e).formula.render, (evaluate e).formula.render]
        | .error _ => ["Expression: " ++ (evaluate e).formula.render] := by
  have parses : (Expression.ofText "diff(x=1)+2" : Except GrammarError Formula).isOk := by cbv
  cases parsed : (Expression.ofText "diff(x=1)+2" : Except GrammarError Formula) with
  | error error => simp [parsed, Except.isOk, Except.toBool] at parses
  | ok e => exact ⟨e, rfl, evaluate_again parsed⟩

end Formula

end Stepwise
