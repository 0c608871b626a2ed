import Stepwise.Proofs.Quantity.Constant
import Stepwise.Proofs.Reduction.Idle

/-! Every reduction lowers the effort that is left. An operator takes one reduction, and a second one
when it is the argument of a derivative. An equation is moved at most three times, because its right
side is a number from the first move on. -/
namespace Stepwise.Tree

def isNumeric (x : Tree Mark) : Bool := x.top.value.any Quantity.isConstant

/-- A number, or an operator over numbers that will be one. -/
def firm : Tree Mark → Bool
  | leaf a => (leaf a).isNumeric
  | group _ _ => false
  | fork a left right =>
    (fork a left right).isPending && a.call.isNone &&
      (a.token.kind == .plus || a.token.kind == .minus || a.token.kind == .divide) &&
      left.isNumeric && right.isNumeric && decide left.Idle && decide right.Idle

def movesLeft (left : Tree Mark) : Nat :=
  match left.linear? with
  | some p => if p.coefficient 0 != 0.0 then 7 else if p.coefficient 1 != 1.0 then 4 else 1
  | none => 1

def equationEffort (left right : Tree Mark) : Nat :=
  if right.firm then (if left.Idle then left.movesLeft else 7) else 10

/-- A bound on the number of reductions. -/
def effort : Tree Mark → Nat
  | leaf a => if (leaf a).isPending then 1 else 0
  | group a inner => inner.effort + if (group a inner).isPending then 2 else 0
  | fork a left right =>
    left.effort + right.effort +
      if (fork a left right).isPending then
        if a.token.kind = .equals then equationEffort left right else 2
      else 0

theorem movesLeft_le (left : Tree Mark) : left.movesLeft ≤ 7 := by
  unfold movesLeft
  repeat' split
  all_goals omega

theorem movesLeft_pos (left : Tree Mark) : 0 < left.movesLeft := by
  unfold movesLeft
  repeat' split
  all_goals omega

theorem equationEffort_le (left right : Tree Mark) : equationEffort left right ≤ 10 := by
  have := left.movesLeft_le
  unfold equationEffort
  repeat' split
  all_goals omega

theorem equationEffort_pos (left right : Tree Mark) : 0 < equationEffort left right := by
  have := left.movesLeft_pos
  unfold equationEffort
  repeat' split
  all_goals omega

/-- A fork takes ten reductions at most, and one of its leaves none. -/
theorem effort_le (x : Tree Mark) : x.effort + 3 ≤ 7 * x.size := by
  induction x with
  | leaf a => simp only [effort, size]; split <;> omega
  | group a inner ih => simp only [effort, size]; split <;> omega
  | fork a left right ihl ihr =>
    have := equationEffort_le left right
    simp only [effort, size]
    repeat' split
    all_goals omega

theorem effort_idle {x : Tree Mark} (idle : x.Idle) : x.effort = 0 := by
  induction x with
  | leaf a => simp [effort, idle_leaf.mp idle]
  | group a inner ih =>
    obtain ⟨below, here⟩ := idle_group.mp idle
    simp [effort, here, ih below]
  | fork a left right ihl ihr =>
    obtain ⟨l, r, here⟩ := idle_fork.mp idle
    simp [effort, here, ihl l, ihr r]

theorem effort_leaf (a : Mark) : (leaf a).effort ≤ 1 := by
  simp only [effort]; split <;> omega

theorem effort_settled (a : Mark) (v : Quantity) : (settled a v).effort ≤ 1 := by
  unfold settled
  split <;> exact effort_leaf _

/-- A term has no offset, and its slope is its coefficient. -/
theorem monomial_cases (c : Float) (letter : Char) :
    (Polynomial.monomial c 1 letter).degree = 0 ∨
      (Polynomial.monomial c 1 letter).coefficient 0 = 0.0 ∧
      (Polynomial.monomial c 1 letter).coefficient 1 = c := by
  have array : (Array.replicate 1 (0.0 : Float)).push c = #[0.0, c] := rfl
  have filled : (#[0.0, c] : Array Float).isEmpty = false := rfl
  simp only [Polynomial.monomial, Polynomial.make, array, filled, Bool.false_eq_true, if_false]
  rw [Polynomial.dropZeros]
  split
  · rw [Polynomial.dropZeros_of_size_le_one (by simp)]
    exact .inl rfl
  · exact .inr ⟨rfl, rfl⟩

theorem movesLeft_term (c : Float) (letter : Char) :
    (value (.polynomial (.monomial c 1 letter))).movesLeft ≤ 4 := by
  have zero : ((0.0 : Float) != 0.0) = false := rfl
  rcases monomial_cases c letter with flat | ⟨offset, _⟩
  · simp [movesLeft, linear?, value, Label.ofValue, flat]
  · by_cases line : (Polynomial.monomial c 1 letter).degree = 1
    · simp only [movesLeft, linear?, value, Label.ofValue, top_leaf, line, if_true, offset, zero,
        Bool.false_eq_true, if_false]
      split <;> omega
    · simp [movesLeft, linear?, value, Label.ofValue, line]

theorem movesLeft_letter (letter : Char) : (value (.polynomial (.monomial 1.0 1 letter))).movesLeft = 1 := by
  have zero : ((0.0 : Float) != 0.0) = false := rfl
  have one : ((1.0 : Float) != 1.0) = false := rfl
  rcases monomial_cases 1.0 letter with flat | ⟨offset, slope⟩
  · simp [movesLeft, linear?, value, Label.ofValue, flat]
  · by_cases line : (Polynomial.monomial 1.0 1 letter).degree = 1
    · simp [movesLeft, linear?, value, Label.ofValue, line, offset, slope, zero, one]
    · simp [movesLeft, linear?, value, Label.ofValue, line]

theorem effort_moved {a : Mark} {left right : Tree Mark}
    (token : Token) (term amount : Quantity) (pending : (fork a left right).isPending)
    (equation : a.token.kind = .equals) (numeric : right.isNumeric)
    (idle : right.Idle) (shift : token.kind = .plus ∨ token.kind = .minus ∨ token.kind = .divide)
    (constant : amount.isConstant) :
    (fork a (value term) (fork { token } right (value amount))).effort = 2 + (value term).movesLeft := by
  have inner : (fork { token } right (value amount)).isPending := rfl
  have outer : (fork a (value term) (fork { token } right (value amount))).isPending := pending
  have idle' := idle_value amount
  have other : token.kind ≠ .equals := by rcases shift with h | h | h <;> simp [h]
  have firm : (fork { token } right (value amount)).firm := by
    have numeric' : (value amount).isNumeric := by simpa [isNumeric, value, Label.ofValue] using constant
    rcases shift with h | h | h <;> simp [Tree.firm, inner, numeric, numeric', idle, idle', h]
  simp only [effort, outer, inner, equation, if_true, equationEffort, firm, idle_value, other, if_false,
    effort_idle idle, effort_idle idle']
  simp [value, effort, isPending, Label.ofValue, Label.isSettled]

theorem effort_pending {x : Tree Mark} (pending : x.isPending) : 0 < x.effort := by
  cases x with
  | leaf a => simp [effort, pending]
  | group a inner => simp [effort, pending]
  | fork a left right =>
    have := equationEffort_pos left right
    simp only [effort, pending, if_true]
    split <;> omega

theorem isNumeric_of_firm {x : Tree Mark} (firm : x.firm) (idle : x.Idle) : x.isNumeric := by
  cases x with
  | leaf a => exact firm
  | group a inner => simp [Tree.firm] at firm
  | fork a left right => simp [Tree.firm, (idle_fork.mp idle).2.2] at firm

/-- A move of an equation costs more than what is left after it. -/
theorem effort_isolate {x : Tree Mark} (rested : x.Rested) (pending : x.isPending)
    (equation : x.top.token.kind = .equals) : x.isolate.effort < x.effort := by
  have done (y : Tree Mark) (below : y.Rested) (unsettled : y.isPending) :
      y.settleEquation.effort < y.effort := by
    rw [effort_idle (idle_settleEquation below)]
    exact effort_pending unsettled
  cases x with
  | leaf a => exact done _ rested pending
  | group a inner => exact done _ rested pending
  | fork a left right =>
    obtain ⟨l, r⟩ := rested
    have whole : (fork a left right).effort = equationEffort left right := by
      have kind : a.token.kind = .equals := equation
      simp [effort, pending, kind, effort_idle l, effort_idle r]
    by_cases numeric : right.isNumeric
    · have least : left.movesLeft ≤ equationEffort left right := by
        have := movesLeft_le left
        unfold equationEffort
        repeat' split
        all_goals omega
      have numeric' : (right.top.value.any Quantity.isConstant) = true := numeric
      simp only [isolate, numeric', Bool.not_true, Bool.false_eq_true, if_false]
      cases linear : left.linear? with
      | none => exact done _ ⟨l, r⟩ pending
      | some p =>
        simp only [movesLeft, linear] at least
        simp only
        split
        · next offset =>
          have after := effort_moved (offsetMove p).1 (.polynomial (.monomial (p.coefficient 1) 1 p.letter))
            (.constant (offsetMove p).2) pending equation numeric r
            (by unfold offsetMove; split <;> simp [Token.inserted]) rfl
          have := movesLeft_term (p.coefficient 1) p.letter
          rw [if_pos offset] at least
          rw [moveOffset, after, whole]
          omega
        · next offset =>
          rw [if_neg offset] at least
          split
          · next slope =>
            have after := effort_moved (.inserted .divide "/") (.polynomial (.monomial 1.0 1 p.letter))
              (.constant (p.coefficient 1)) pending equation numeric r (by simp [Token.inserted]) rfl
            rw [if_pos slope] at least
            rw [divideSlope, after, whole, movesLeft_letter]
            omega
          · exact done _ ⟨l, r⟩ pending
    · have loose : right.firm = false := by
        cases firm : right.firm with
        | false => rfl
        | true => exact absurd (isNumeric_of_firm firm r) numeric
      have numeric' : (right.top.value.any Quantity.isConstant) = false := Bool.eq_false_iff.mpr numeric
      have inner : (fork { token := .inserted .minus "-" } left right : Tree Mark).isPending := rfl
      have firm : (value (.constant 0.0)).firm := rfl
      have busy : ¬ (fork { token := .inserted .minus "-" } left right : Tree Mark).Idle := fun idle => by
        simp [(idle_fork.mp idle).2.2] at inner
      have after : (moveOver a left right).effort = 9 := by
        have kind : a.token.kind = .equals := equation
        have outer : (moveOver a left right).isPending := pending
        have zero : (value (.constant 0.0)).effort = 0 := rfl
        have minus : ¬ (Token.inserted .minus "-").kind = .equals := by simp [Token.inserted]
        unfold moveOver at outer ⊢
        simp only [effort, outer, inner, kind, equationEffort, firm, busy, zero, minus,
          effort_idle l, effort_idle r, if_true, if_false]
      simp only [isolate, numeric', Bool.not_false, if_true]
      rw [after, whole]
      simp [equationEffort, loose]

theorem effort_reduceTop {x y : Tree Mark} (rested : x.Rested) (pending : x.isPending)
    (reduced : x.reduceTop = .ok y) :
    y.effort < x.effort := by
  have idle : x.defer.effort < x.effort := by
    rw [effort_idle (idle_defer rested)]
    exact effort_pending pending
  unfold reduceTop at reduced
  split at reduced
  · obtain rfl := Except.ok.inj reduced
    rw [effort_idle (idle_differentiate rested)]
    exact effort_pending pending
  · next inner =>
    split at reduced
    · next equation =>
      obtain rfl := Except.ok.inj reduced
      exact effort_isolate rested pending equation
    · next other =>
      split at reduced
      · obtain rfl := Except.ok.inj reduced
        refine Nat.lt_of_le_of_lt (effort_settled _ _) ?_
        cases x with
        | leaf a => simp [isLeaf] at inner
        | group a inner => simp [effort, pending]
        | fork a left right =>
          have kind : ¬ a.token.kind = .equals := other
          simp [effort, pending, kind]
      · obtain rfl := Except.ok.inj reduced
        exact idle
      · simp at reduced

/-- What is a number, or will be one, stays so. -/
theorem firm_step {x y : Tree Mark} (firm : x.firm) (stepped : x.step? = some (.ok y)) : y.firm := by
  cases x with
  | leaf a =>
    obtain ⟨_, reduced⟩ := step_leaf_cases stepped
    obtain ⟨q, value, constant⟩ := (Option.any_eq_true _ _).mp firm
    obtain ⟨d, derived, constant'⟩ := Quantity.derivative_constant constant
    obtain rfl := Except.ok.inj reduced
    have value' : (leaf a).top.value = some q := value
    simp only [differentiate, value', Option.bind_some, derived]
    simpa [Tree.firm, isNumeric, Label.collapse] using constant'
  | group a inner => simp [Tree.firm] at firm
  | fork a left right =>
    simp only [Tree.firm, Bool.and_eq_true, Bool.or_eq_true, decide_eq_true_eq, Option.isNone_iff_eq_none,
      beq_iff_eq] at firm
    obtain ⟨⟨⟨⟨⟨⟨_, call⟩, shift⟩, first⟩, second⟩, l⟩, r⟩ := firm
    rcases step_fork_cases stepped with ⟨_, here, _⟩ | ⟨_, here, _⟩ | ⟨_, _, _, reduced⟩
    · simp [(step_none_iff left).mpr l] at here
    · simp [(step_none_iff right).mpr r] at here
    · obtain ⟨p, pvalue, pconstant⟩ := (Option.any_eq_true _ _).mp first
      obtain ⟨q, qvalue, qconstant⟩ := (Option.any_eq_true _ _).mp second
      obtain ⟨operation, kind, other⟩ : ∃ operation, Operation.ofKind? a.token.kind = some operation ∧
          operation ≠ .power := by
        rcases shift with (h | h) | h <;> rw [h] <;> exact ⟨_, rfl, by simp⟩
      have equals : a.token.kind ≠ .equals := by
        rcases shift with (h | h) | h <;> simp [h]
      have combines := Quantity.apply_combines (k := max p.depth q.depth) ⟨pconstant, Nat.le_max_left ..⟩
        ⟨qconstant, Nat.le_max_right ..⟩ other
      have combined : combination a (fork a left right).operands.1 (fork a left right).operands.2 =
          p.apply operation q := by
        simp only [combination, operands, kind, pvalue, qvalue]
      simp only [reduceTop, isLeaf, Bool.false_eq_true, if_false, top_fork, equals, combined] at reduced
      cases outcome : p.apply operation q with
      | error error => simp [outcome] at reduced
      | ok result =>
        rw [outcome] at combines reduced
        cases result with
        | none => exact combines.elim
        | some v =>
          obtain rfl := Except.ok.inj reduced
          have constant : v.isConstant := combines.1
          simp [settled, Label.termKeyword?, Label.isDerivative, call, Tree.firm, isNumeric,
            Label.collapse, constant]

/-- A step lowers the effort that is left. -/
theorem effort_step {x y : Tree Mark} (stepped : x.step? = some (.ok y)) : y.effort < x.effort := by
  induction x generalizing y with
  | leaf a =>
    obtain ⟨pending, reduced⟩ := step_leaf_cases stepped
    exact effort_reduceTop trivial pending reduced.symm
  | group a inner ih =>
    rcases step_group_cases stepped with ⟨r, here, result⟩ | ⟨idle, pending, reduced⟩
    · obtain ⟨z, rfl, rfl⟩ := of_map_ok result.symm
      have := ih here
      have same : (group a z).isPending = (group a inner).isPending := rfl
      simp only [effort, same]
      omega
    · exact effort_reduceTop idle pending reduced.symm
  | fork a left right ihl ihr =>
    rcases step_fork_cases stepped with ⟨r, here, result⟩ | ⟨r, here, result⟩ | ⟨l, r, pending, reduced⟩
    · obtain ⟨z, rfl, rfl⟩ := of_map_ok result.symm
      have less := ihl here
      have busy : ¬ left.Idle := fun idle => by simp [(step_none_iff left).mpr idle] at here
      have same : (fork a z right).isPending = (fork a left right).isPending := rfl
      have moves : equationEffort z right ≤ equationEffort left right := by
        have := movesLeft_le z
        unfold equationEffort
        repeat' split
        all_goals omega
      simp only [effort, same]
      repeat' split
      all_goals omega
    · obtain ⟨z, rfl, rfl⟩ := of_map_ok result.symm
      have less := ihr here
      have same : (fork a left z).isPending = (fork a left right).isPending := rfl
      have moves : equationEffort left z ≤ equationEffort left right := by
        have := movesLeft_le left
        by_cases firm : right.firm
        · simp [equationEffort, firm, firm_step firm here]
        · have := equationEffort_le left z
          simp only [equationEffort, firm] at this ⊢
          simpa using this
      simp only [effort, same]
      repeat' split
      all_goals omega
    · exact effort_reduceTop ⟨l, r⟩ pending reduced.symm

end Stepwise.Tree
