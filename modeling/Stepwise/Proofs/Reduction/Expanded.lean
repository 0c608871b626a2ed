import Stepwise.Proofs.Quantity.Display
import Stepwise.Proofs.Reduction.Equation

/-! Expansions are shown. Main statement: evaluating an expression that expands to a polynomial
shows the terms of the polynomial last, and a polynomial without the letter is the value. -/
section

open Polynomial (C X)
open scoped Polynomial

namespace Stepwise

open Decimal (IsWhole)

namespace Tree

variable {v : Char} {f : ℤ[X]} {x : Tree Mark}

namespace Expands

theorem next (expands : x.Expands v f) :
    (∃ y, x.next? = some (.ok y) ∧ y.Expands v f) ∨ x.next? = none ∧ x.Idle := by
  cases stepped : x.step? with
  | none =>
    have idle := (step_none_iff x).mp stepped
    exact .inr ⟨by simp [next?, stepped], idle⟩
  | some result =>
    obtain ⟨y, rfl, kept⟩ := expands.step stepped
    refine .inl ⟨y, ?_, kept⟩
    cases expands with
    | value call deferred value expands => simp [(Expands.value call deferred value expands).still] at stepped
    | operator call reduced deferred kind l r expandable unrounded =>
      rw [next?, if_pos (by simp [Tree.isPending, isLeaf, Label.isSettled, reduced, deferred]), stepped]

/-- A run never fails, and ends in a leaf that holds the expansion. -/
theorem run {x : Tree Mark} (expands : x.Expands v f) :
    x.run.2 = .ok () ∧ ∃ a q, x.reduct = leaf a ∧ a.call = none ∧ a.deferred = false ∧
      a.value = some q ∧ q.Expands v f := by
  rcases expands.next with ⟨y, goes, later⟩ | ⟨stops, idle⟩
  · rw [reduct_goes goes, run_goes goes]
    exact later.run
  · rw [reduct, run_done stops]
    exact ⟨rfl, expands.of_idle idle⟩
termination_by x.effort
decreasing_by exact effort_next goes

/-- What the trace of an expansion ends in. -/
theorem trace {y : Tree Mark} (prepared : x.prepare = (y, .ok ())) (expands : y.Expands v f) :
    x.trace.ended = .ok () ∧ x.trace.lines.getLast? = some (Term.sumText v (terms f)) ∧
      ∃ a q, x.trace.tree = leaf a ∧ a.call = none ∧ a.deferred = false ∧ a.value = some q ∧
      q.Expands v f := by
  obtain ⟨ended, a, q, last, call, deferred, value, shown⟩ := expands.run
  have plain : y.reduct.simplifyRoot = .ok y.reduct := by simp [simplifyRoot, rootNumber?, last, call]
  have stop : x.trace.ended = .ok () := by simp [Tree.trace, prepared, reduceFully, ended, plain]
  have left : x.trace.tree = leaf a := by
    rw [← last]
    simp [Tree.trace, prepared, reduceFully, ended, plain]
  have text : x.trace.tree.text = Term.sumText v (terms f) := by
    rw [left, text, rendered, leafRendered, call, value]
    exact shown.text
  exact ⟨stop, by rw [trace_last stop, text], a, q, left, call, deferred, value, shown⟩

end Expands

/-- An expandable tree is prepared to one with its expansion. -/
theorem Expandable.prepare (expandable : x.Expandable v) (unrounded : x.ExpandsExactly) (fresh : x.Fresh) :
    ∃ y, x.prepare = (y, .ok ()) ∧ y.Expands v x.expansion := by
  refine ⟨_, ?_, expandable.attachQuantities unrounded fresh⟩
  simp only [Tree.prepare, expandable.foldFactorials]

end Tree

namespace Formula

open Expression

/-- An expression of whole numbers and one letter under signs, sums, differences, products and
powers of at most 32 is expanded. The last line shows the terms of the expanded polynomial, and a
polynomial without the letter is the value. -/
theorem evaluate_expansion {text : String} {e : Formula}
    {x : Tree Mark} {v : Char} (parsed : Expression.ofText text = .ok e) (displays : e.Displays x)
    (expandable : x.Expandable v) (unrounded : x.ExpandsExactly) :
    (evaluate e).steps.back? = some (Term.sumText v (terms x.expansion)) ∧
      ∀ n, x.expansion = C n → (evaluate e).value = .ok (Decimal.ofInt n) := by
  obtain ⟨y, built, displays', formed⟩ := displays_of_parsed parsed
  obtain rfl := displays.unique displays'
  obtain ⟨y, prepared, expands⟩ := expandable.prepare unrounded (Tree.ofText_grammatical built).fresh
  obtain ⟨ended, last, a, q, _, _, _, _, shown⟩ := expands.trace prepared
  obtain ⟨_, lines, value⟩ := evaluate_eq displays formed
  rw [value, ← Array.getLast?_toList, lines]
  refine ⟨last, fun n constant => ?_⟩
  have small : Exact n := by
    rw [constant] at shown
    cases shown with
    | whole value flat => exact Polynomial.C_injective flat ▸ value.small
    | proper letter spells positive => simp at positive
  have read := valueOfLine_toString (r := n) small (show Exact 1 by decide)
  have unit : Decimal.ofInt n / Decimal.ofInt 1 = Decimal.ofInt n := by
    rw [(Decimal.ofInt_whole (a := 1) (by decide)).eq_one, (Decimal.ofInt_whole small).div_one]
  have written : toString (n : Rat) = toString n := by
    rw [toString_rat, if_pos (Rat.den_intCast n), Rat.num_intCast]
  rw [constant, sumText_constant, ← written] at last
  simp only [Tree.Result.value, ended, last, Option.getD_some, read, bind, Except.bind, Except.mapError]
  exact congrArg _ unit

/-- A square of a difference. -/
theorem evaluate_expansion_square : ∃ (e : Formula) (x : Tree Mark),
    Expression.ofText "(x-1)^2" = .ok e ∧ e.Displays x ∧ x.Expandable 'x' ∧ x.ExpandsExactly ∧
      (evaluate e).steps.back? = some "x^2-2x+1" ∧ ∀ n, x.expansion = C n →
      (evaluate e).value = .ok (Decimal.ofInt n) := by
  have built : (Tree.ofText "(x-1)^2" : Except GrammarError (Tree Mark)) = .ok .shiftedSquare := by cbv
  have parses : (Expression.ofText "(x-1)^2" : Except GrammarError Formula).isOk := by cbv
  cases parsed : (Expression.ofText "(x-1)^2" : Except GrammarError Formula) with
  | error error => simp [parsed, Except.isOk, Except.toBool] at parses
  | ok e =>
    obtain ⟨y, built', displays, _⟩ := displays_of_parsed parsed
    obtain rfl := Except.ok.inj (built'.symm.trans built)
    have square := Tree.shiftedSquare_expandsTo
    have sum : (C 1 * X + C (-1) : ℤ[X]) ^ 2 = Term.sum [⟨1, 2⟩, ⟨-2, 1⟩, ⟨1, 0⟩] := by
      simp only [Term.sum, List.map_cons, List.map_nil, List.sum_cons, List.sum_nil, map_neg,
        map_one, map_ofNat]
      ring
    have descending : Term.Descending [⟨1, 2⟩, ⟨-2, 1⟩, ⟨1, 0⟩] := ⟨by decide, by decide⟩
    have shown : Term.sumText 'x' [⟨1, 2⟩, ⟨-2, 1⟩, ⟨1, 0⟩] = "x^2-2x+1" := by decide +kernel
    have expanded := evaluate_expansion parsed displays square.expandable square.unrounded
    have last := square.value.trans sum ▸ expanded.1
    rw [descending.terms_sum, shown] at last
    exact ⟨e, _, rfl, displays, square.expandable, square.unrounded, last, expanded.2⟩

end Formula

end Stepwise

end
