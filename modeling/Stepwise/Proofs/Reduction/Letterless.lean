import Stepwise.Proofs.Reduction.Equation

/-! Equations whose letter cancels. Main statement: an equation whose sides differ by a number once
they are expanded is reduced to an equation of numbers, which has no value. -/
section

open Polynomial (C X)
open scoped Polynomial

namespace Stepwise

open Decimal (IsWhole)

namespace Tree

variable {v : Char} {a b c : Mark}

inductive Cancels (v : Char) : Tree Mark → Prop
  | sides {a : Mark} {left right : Tree Mark} {f g : ℤ[X]} {n : Int} (equation : a.Equation)
      (l : left.Expands v f)
      (r : right.Expands v g) (difference : f - g = C n) (small : Exact n) : Cancels v (fork a left right)
  | settled {a b c : Mark} {k : Int} {g : ℤ[X]} (equation : a.Equation) (l : (leaf b).Expands v (C k))
      (r : (leaf c).Expands v g) : Cancels v ((fork a (leaf b) (leaf c)).settleEquation)

/-- A letter on the right is moved over, and a number on both sides is left as it is. -/
theorem isolate_cancels {f g : ℤ[X]} {n : Int} (equation : a.Equation) (l : (leaf b).Expands v f)
    (r : (leaf c).Expands v g) (difference : f - g = C n) (small : Exact n) :
    ((fork a (leaf b) (leaf c)).isolate).Cancels v := by
  obtain ⟨w, value, expands⟩ := r.quantity
  cases expands with
  | proper letter spells positive =>
    have moved : (fork a (leaf b) (leaf c)).isolate = moveOver a (leaf b) (leaf c) := by
      simp [isolate, value, (Quantity.value_polynomial spells positive).2]
    have kept : (fork { token := .inserted .minus "-" } (leaf b) (leaf c)).Expands v (f - g) :=
      inserted_expands .subtract rfl l r trivial fun i => by
        rw [difference]
        exact exact_C small i
    rw [moved]
    exact .sides equation kept (value_expands (.whole .zero rfl))
      (by rw [difference, Polynomial.C_0, sub_zero]) small
  | @whole _ k _ whole flat =>
    have number : f = C (n + k) := by rw [Polynomial.C_add, ← difference, flat, sub_add_cancel]
    subst number
    obtain ⟨u, value', expands'⟩ := l.quantity
    have none : (leaf b).linear? = none := by
      cases expands' with
      | whole value flat => simp [linear?, value']
      | proper letter spells positive => exact absurd positive (by rw [Polynomial.natDegree_C]; omega)
    have settled : (fork a (leaf b) (leaf c)).isolate = (fork a (leaf b) (leaf c)).settleEquation := by
      simp [isolate, value, Quantity.isConstant, none]
    rw [settled]
    exact .settled equation l r

theorem Expands.leaf_idle {f : ℤ[X]} (expands : (leaf b).Expands v f) : (leaf b).Idle := by
  cases expands with
  | value call deferred value expands =>
    exact idle_leaf.mpr (by simp [Tree.isPending, isLeaf, Label.isDerivative, call])

namespace Cancels

variable {x : Tree Mark}

/-- A reduction never fails, and goes on to such an equation. -/
theorem step (cancels : x.Cancels v) {result : Except ComputationError (Tree Mark)}
    (stepped : x.step? = some result) :
    ∃ y, result = .ok y ∧ y.Cancels v := by
  cases cancels with
  | @sides a left right f g n equation l r difference small =>
    rcases step_fork_cases stepped with ⟨next, here, rfl⟩ | ⟨next, here, rfl⟩ | ⟨restl, restr, _, rfl⟩
    · obtain ⟨y, rfl, kept⟩ := l.step here
      exact ⟨_, rfl, .sides equation kept r difference small⟩
    · obtain ⟨y, rfl, kept⟩ := r.step here
      exact ⟨_, rfl, .sides equation l kept difference small⟩
    · obtain ⟨b, _, rfl, _⟩ := l.of_idle restl
      obtain ⟨c, _, rfl, _⟩ := r.of_idle restr
      exact ⟨_, Solves.reduceTop_equation equation _ _, isolate_cancels equation l r difference small⟩
  | @settled a b c k g equation l r =>
    have idle : ((fork a (leaf b) (leaf c)).settleEquation).Idle :=
      idle_fork.mpr ⟨l.leaf_idle, r.leaf_idle, rfl⟩
    rw [(step_none_iff _).mpr idle] at stepped
    cases stepped

theorem next (cancels : x.Cancels v) {result : Except ComputationError (Tree Mark)}
    (goes : x.next? = some result) :
    ∃ y, result = .ok y ∧ y.Cancels v := by
  unfold next? at goes
  split at goes
  · exact cancels.step goes
  · simp at goes

/-- A run ends with a number on the left. -/
theorem run {x : Tree Mark} (cancels : x.Cancels v) :
    x.run.2 = .ok () ∧ ∃ a b c k, a.Equation ∧ (leaf b).Expands v (C k) ∧
    x.reduct = (fork a (leaf b) (leaf c)).settleEquation := by
  cases goes : x.next? with
  | none =>
    rw [reduct, run_done goes]
    refine ⟨rfl, ?_⟩
    cases cancels with
    | sides equation l r difference small => exact absurd goes (Solves.next_equation equation _ _)
    | settled equation l r => exact ⟨_, _, _, _, equation, l, rfl⟩
  | some result =>
    obtain ⟨y, rfl, later⟩ := cancels.next goes
    rw [reduct_goes goes, run_goes goes]
    exact later.run
termination_by x.effort
decreasing_by exact effort_next goes

end Cancels

/-- An equation with a number on its left is written behind that number. -/
theorem text_settled {k : Int} (equation : a.Equation) (l : (leaf b).Expands v (C k)) :
    ((fork a (leaf b) (leaf c)).settleEquation).text = toString k ++ " = " ++ (leaf c).rendered.text := by
  have left : (leaf b).rendered.text = toString k := by
    cases l with
    | value call deferred value expands =>
      rw [rendered, leafRendered, call, value]
      cases expands with
      | whole whole flat => exact Polynomial.C_injective flat ▸ Quantity.text_whole whole
      | proper letter spells positive => exact absurd positive (by rw [Polynomial.natDegree_C]; omega)
  have sign : (Token.Kind.equals == .times) = false := rfl
  simp only [settleEquation, mapTop, text, rendered, innerRendered, equation.call, operatorRendered,
    equation.unary, isUnit, equation.kind, sign, Bool.false_and, Bool.false_eq_true,
    if_false] at left ⊢
  rw [left]

/-- The trace of such an equation ends with a number on the left. -/
theorem trace_cancels {x y : Tree Mark} (prepared : x.prepare = (y, .ok ())) (cancels : y.Cancels v) :
    x.trace.ended = .ok () ∧
      ∃ (k : Int) (side : String), x.trace.lines.getLast? = some (toString k ++ " = " ++ side) := by
  obtain ⟨ended, a, b, c, k, equation, l, last⟩ := cancels.run
  have plain : y.reduct.simplifyRoot = .ok y.reduct := by
    rw [last]
    rfl
  have stop : x.trace.ended = .ok () := by simp [Tree.trace, prepared, reduceFully, ended, plain]
  have left : x.trace.tree = (fork a (leaf b) (leaf c)).settleEquation := by
    rw [← last]
    simp [Tree.trace, prepared, reduceFully, ended, plain]
  exact ⟨stop, k, _, by rw [trace_last stop, left, text_settled equation l]⟩

end Tree

namespace Formula

/-- A line with a number on the left of an equals sign shows no value. -/
theorem valueOfLine_equation (k : Int) (side : String) :
    valueOfLine (toString k ++ " = " ++ side) = .error (.nonNumericResult (toString k ++ " = " ++ side)) := by
  have cut : Text.cut? " = " (toString k ++ " = " ++ side) = some (toString k, side) :=
    Text.cut_mark (show " = ".toList = [' ', '=', ' '] by decide) (not_mem_toString k rfl (by decide))
  have none : solvedSide? (toString k ++ " = " ++ side) = none := by
    rw [solvedSide?, cut]
    simp only
    split
    · next letter alone =>
      rw [if_neg]
      rintro ⟨low, high⟩
      refine Text.not_numeric_of_small low high ?_
      rcases mem_toString (alone ▸ List.mem_singleton_self letter) with digit | rfl
      · exact .inl digit
      · exact .inr (.inl (by decide))
    · rfl
  rw [valueOfLine, none]

/-- An equation whose letter cancels has no value. -/
theorem value_cancels {v : Char} {x y : Tree Mark} (prepared : x.prepare = (y, .ok ()))
    (cancels : y.Cancels v) (q : Float) :
    x.trace.value ≠ .ok q := by
  obtain ⟨ended, k, side, last⟩ := Tree.trace_cancels prepared cancels
  simp only [Tree.Result.value, ended, last, Option.getD_some, valueOfLine_equation, bind,
    Except.bind, Except.mapError, ne_eq, reduceCtorEq, not_false_eq_true]

end Formula

end Stepwise

end
