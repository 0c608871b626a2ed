import Stepwise.Proofs.LinearSystem.Balance
import Stepwise.Proofs.Quantity.Reduced
import Stepwise.Proofs.Reduction.Replace

/-! What isolating a letter does to the solutions of an equation. A formula has an exact reading for
every choice of its variables: a number is the fraction that it stores, a pending operator does what
it stands for, and what has no exact value, a term, a power or a derivative that is still to be
taken, is left open. Main statement: a move in an equation keeps the choices that satisfy it,
divides by no zero, and changes nothing outside the equation. -/
namespace Stepwise

open Decimal (IsRational)

/-- A way to read what has no exact value of its own. -/
structure Reading where
  trig : TrigTerm → (Char → ℚ) → Option ℝ
  log : LogTerm → (Char → ℚ) → Option ℝ
  power : ℝ → ℝ → Option ℝ
  derivative : ((Char → ℚ) → Option ℝ) → (Char → ℚ) → Option ℝ

variable {R : Reading} {v : Char → ℚ}

/-- The exact reading for a choice of the variables. A quotient by zero has none. -/
noncomputable def Quantity.reading? (R : Reading) (v : Char → ℚ) : Quantity → Option ℝ
  | constant x => (Decimal.rational? x).map (Rat.cast : ℚ → ℝ)
  | polynomial p => (horner (v p.letter) p.coefficients.toList).map (Rat.cast : ℚ → ℝ)
  | trig t => R.trig t v
  | log t => R.log t v
  | fraction n d => do
    let p ← n.reading? R v
    let q ← d.reading? R v
    if q = 0 then none else return p / q

noncomputable def Reading.combine? (R : Reading) : Token.Kind → ℝ → ℝ → Option ℝ
  | .plus, p, q => some (p + q)
  | .minus, p, q => some (p - q)
  | .times, p, q => some (p * q)
  | .divide, p, q => if q = 0 then none else some (p / q)
  | .power, p, q => R.power p q
  | _, _, _ => none

def Label.isOpenDerivative (a : Mark) : Bool :=
  a.isDerivative && (!a.isSettled || (a.value.bind Quantity.derivative?).isNone)

/-- A node is read by its value, and without one by its operation. -/
noncomputable def Reading.label (R : Reading) (a : Mark) (operation : (Char → ℚ) → Option ℝ) :
    (Char → ℚ) → Option ℝ :=
  let held (v : Char → ℚ) := match a.value with
    | some q => q.reading? R v
    | none => operation v
  if a.isOpenDerivative then R.derivative held else held

namespace Tree

noncomputable def reading? (R : Reading) : Tree Mark → (Char → ℚ) → Option ℝ
  | leaf a => R.label a fun _ => none
  | group a inner => R.label a (inner.reading? R)
  | fork a left right => R.label a fun v => do
    let p ← left.reading? R v
    let q ← right.reading? R v
    R.combine? a.token.kind p q

def Balanced (R : Reading) (v : Char → ℚ) (left right : Tree Mark) : Prop :=
  ∃ x, left.reading? R v = some x ∧ right.reading? R v = some x

def Satisfied (R : Reading) (v : Char → ℚ) : Tree Mark → Prop
  | fork a left right => a.token.kind = .equals ∧ Balanced R v left right
  | leaf _ | group _ _ => False

end Tree

def Polynomial.IsTrimmed (p : Polynomial) : Prop := ∃ coefficients letter, p = make coefficients letter

section Amounts

variable {p : Polynomial} {x : ℝ}

theorem Polynomial.coefficients_of_degree_one (degree : p.degree = 1) :
    p.coefficients.toList = [p.coefficient 0, p.coefficient 1] := by
  have size : p.coefficients.toList.length = 2 := by
    unfold Polynomial.degree at degree
    rw [Array.length_toList]
    omega
  obtain ⟨b, a, list⟩ := List.length_eq_two.mp size
  have array : p.coefficients = #[b, a] := by rw [← list]
  simp [Polynomial.coefficient, array]

theorem Quantity.reading_constant {c : Float} :
    (Quantity.constant c).reading? R v = some x ↔ ∃ q, IsRational c q ∧ x = q := by
  simp [Quantity.reading?, IsRational, eq_comm]

/-- The amount of a polynomial of degree one. -/
theorem Polynomial.reading_linear (degree : p.degree = 1) :
    (Quantity.polynomial p).reading? R v = some x ↔
      ∃ a b, IsRational (p.coefficient 1) a ∧ IsRational (p.coefficient 0) b ∧ x = a * v p.letter + b := by
  rw [Quantity.reading?, coefficients_of_degree_one degree]
  constructor
  · intro amount
    simp only [horner, Option.map_eq_some_iff, Option.bind_eq_bind, Option.bind_eq_some_iff, Option.pure_def,
      Option.some.injEq] at amount
    obtain ⟨_, ⟨b, offset, _, ⟨a, slope, _, rfl, rfl⟩, rfl⟩, rfl⟩ := amount
    exact ⟨a, b, slope, offset, by push_cast; ring⟩
  · rintro ⟨a, b, slope, offset, rfl⟩
    simp only [IsRational] at slope offset
    simp only [horner, slope, offset, Option.bind_eq_bind, Option.bind_some, Option.pure_def, Option.map_some,
      Option.some.injEq]
    push_cast
    ring

theorem Polynomial.reading_monomial (c : Float) (letter : Char) :
    (Quantity.polynomial (.monomial c 1 letter)).reading? R v = some x ↔
      ∃ a, IsRational c a ∧ x = a * v letter := by
  by_cases zero : c == 0.0
  · have made : Polynomial.monomial c 1 letter = ⟨#[0.0], letter⟩ := by
      simp [monomial, make, dropZeros, zero]
    have known := Decimal.isRational_of_zero zero
    have stored : Decimal.rational? 0.0 = some 0 := IsRational.zero
    have nothing : (Quantity.polynomial ⟨#[0.0], letter⟩).reading? R v = some 0 := by
      simp [Quantity.reading?, horner, stored]
    rw [made, nothing, Option.some.injEq]
    constructor
    · rintro rfl
      exact ⟨0, known, by simp⟩
    · rintro ⟨a, value, rfl⟩
      simp [value.unique known]
  · have made : Polynomial.monomial c 1 letter = ⟨#[0.0, c], letter⟩ := by
      simp [monomial, make, dropZeros, zero]
    rw [made, Polynomial.reading_linear rfl]
    constructor
    · rintro ⟨a, b, slope, offset, rfl⟩
      obtain rfl := IsRational.zero.unique offset
      exact ⟨a, slope, by simp⟩
    · rintro ⟨a, slope, rfl⟩
      exact ⟨a, 0, slope, .zero, by simp⟩

/-- The highest coefficient of a polynomial that shows its letter is not zero. -/
theorem Polynomial.IsTrimmed.slope (trimmed : p.IsTrimmed) (degree : p.degree = 1) :
    ¬IsRational (p.coefficient 1) 0 := by
  obtain ⟨coefficients, letter, rfl⟩ := trimmed
  unfold Polynomial.make at degree ⊢
  split at degree
  · cases degree
  · next nonempty =>
    rw [if_neg nonempty]
    have size : (dropZeros coefficients).size = 2 := by
      simp only [Polynomial.degree] at degree
      omega
    have top := dropZeros_top coefficients (by omega)
    rw [Array.back?_eq_getElem?, size, Array.getElem?_eq_getElem (by omega), Option.any_some] at top
    intro zero
    have equal := (zero.beq_iff .zero).mpr rfl
    simp [Polynomial.coefficient, size, top] at equal

end Amounts

namespace Tree

variable {a : Mark} {left right : Tree Mark} {p : Polynomial}

theorem reading_value (q : Quantity) : (value q).reading? R v = q.reading? R v := rfl

/-- An inserted operator does what it stands for. -/
theorem reading_inserted (token : Token) :
    (fork { token } left right).reading? R v =
      (do R.combine? token.kind (← left.reading? R v) (← right.reading? R v)) := rfl

theorem linear_eq_some : left.linear? = some p ↔ left.top.value = some (.polynomial p) ∧ p.degree = 1 := by
  unfold linear?
  constructor
  · intro linear
    split at linear
    · next value =>
      split at linear
      · next degree => exact Option.some.inj linear ▸ ⟨value, degree⟩
      · cases linear
    · cases linear
  · rintro ⟨value, degree⟩
    simp [value, degree]

/-- A settled side that has a polynomial for its value is read as that polynomial. -/
theorem reading_polynomial (settled : left.top.isSettled) (held : left.top.value = some (.polynomial p)) :
    left.reading? R v = (Quantity.polynomial p).reading? R v := by
  have closed : left.top.isOpenDerivative = false := by
    simp [Label.isOpenDerivative, settled, held, Quantity.derivative?]
  cases left with
  | leaf a | group a _ | fork a _ _ =>
    rw [top] at held closed
    simp only [reading?, Reading.label, closed, held, Bool.false_eq_true, if_false]

theorem satisfied_moveOver : (moveOver a left right).Satisfied R v ↔ (fork a left right).Satisfied R v := by
  have zero : (Quantity.constant 0.0).reading? R v = some 0 :=
    Quantity.reading_constant.mpr ⟨0, .zero, by simp⟩
  simp only [moveOver, Satisfied, Balanced, reading_inserted, reading_value, zero, Option.some.injEq]
  refine and_congr_right fun _ => ?_
  constructor
  · rintro ⟨_, difference, rfl⟩
    obtain ⟨l, onLeft, difference⟩ := Option.bind_eq_some_iff.mp difference
    obtain ⟨r, onRight, difference⟩ := Option.bind_eq_some_iff.mp difference
    obtain rfl : l = r := sub_eq_zero.mp (Option.some.inj difference)
    exact ⟨l, onLeft, onRight⟩
  · rintro ⟨x, onLeft, onRight⟩
    exact ⟨0, by simp [onLeft, onRight, Reading.combine?, Token.inserted], rfl⟩

/-- An inserted operator over an amount that is stored as a number. -/
theorem reading_inserted_constant (token : Token) {c : Float} {x : ℝ} :
    (fork { token } right (value (.constant c))).reading? R v = some x ↔
      ∃ r q, right.reading? R v = some r ∧ IsRational c q ∧ R.combine? token.kind r q = some x := by
  rw [reading_inserted, reading_value]
  simp only [Option.bind_eq_bind, Option.bind_eq_some_iff, Quantity.reading_constant]
  constructor
  · rintro ⟨r, onRight, _, ⟨q, stored, rfl⟩, result⟩
    exact ⟨r, q, onRight, stored, result⟩
  · rintro ⟨r, q, onRight, stored, result⟩
    exact ⟨r, onRight, _, ⟨q, stored, rfl⟩, result⟩

theorem reading_offsetMove {x : ℝ} :
    (fork { token := (offsetMove p).1 } right (value (.constant (offsetMove p).2))).reading? R v = some x ↔
      ∃ r b, right.reading? R v = some r ∧ IsRational (p.coefficient 0) b ∧ x = r - b := by
  rw [reading_inserted_constant, offsetMove]
  split
  · constructor
    · rintro ⟨r, b, onRight, negated, sum⟩
      refine ⟨r, -b, onRight, negated.of_neg, ?_⟩
      rw [← Option.some.inj sum, Rat.cast_neg, sub_neg_eq_add]
    · rintro ⟨r, b, onRight, offset, rfl⟩
      exact ⟨r, -b, onRight, offset.neg, by simp [Reading.combine?, Token.inserted, sub_eq_add_neg]⟩
  · constructor
    · rintro ⟨r, b, onRight, offset, difference⟩
      exact ⟨r, b, onRight, offset, (Option.some.inj difference).symm⟩
    · rintro ⟨r, b, onRight, offset, rfl⟩
      exact ⟨r, b, onRight, offset, rfl⟩

theorem satisfied_moveOffset (settled : left.top.isSettled) (held : left.top.value = some (.polynomial p))
    (degree : p.degree = 1) : (moveOffset a right p).Satisfied R v ↔ (fork a left right).Satisfied R v := by
  simp only [moveOffset, Satisfied, Balanced, reading_polynomial settled held, reading_value,
    reading_offsetMove, Polynomial.reading_monomial, Polynomial.reading_linear degree]
  refine and_congr_right fun _ => ?_
  constructor
  · rintro ⟨_, ⟨s, slope, rfl⟩, r, b, onRight, offset, balance⟩
    exact ⟨r, ⟨s, b, slope, offset, by rw [balance]; ring⟩, onRight⟩
  · rintro ⟨_, ⟨s, b, slope, offset, rfl⟩, onRight⟩
    exact ⟨_, ⟨s, slope, rfl⟩, _, b, onRight, offset, by ring⟩

theorem satisfied_divideSlope (settled : left.top.isSettled) (held : left.top.value = some (.polynomial p))
    (degree : p.degree = 1) (slope : ¬IsRational (p.coefficient 1) 0) (flat : p.coefficient 0 == 0.0) :
    (divideSlope a right p).Satisfied R v ↔ (fork a left right).Satisfied R v := by
  have offset := Decimal.isRational_of_zero flat
  simp only [divideSlope, Satisfied, Balanced, reading_polynomial settled held,
    reading_inserted_constant, reading_value, Polynomial.reading_monomial,
    Polynomial.reading_linear degree]
  refine and_congr_right fun _ => ?_
  constructor
  · rintro ⟨_, ⟨one, unit, rfl⟩, r, s, onRight, known, quotient⟩
    obtain rfl := IsRational.one.unique unit
    have nonzero : (s : ℝ) ≠ 0 := fun zero => slope (by rwa [Rat.cast_eq_zero.mp zero] at known)
    have equal : r / s = v p.letter := by simpa [Reading.combine?, Token.inserted, nonzero] using quotient
    refine ⟨r, ⟨s, 0, known, offset, ?_⟩, onRight⟩
    rw [Rat.cast_zero, add_zero, ← equal, mul_div_cancel₀ r nonzero]
  · rintro ⟨_, ⟨s, b, known, stored, rfl⟩, onRight⟩
    obtain rfl := offset.unique stored
    have nonzero : (s : ℝ) ≠ 0 := fun zero => slope (by rwa [Rat.cast_eq_zero.mp zero] at known)
    exact ⟨_, ⟨1, .one, rfl⟩, _, s, onRight, known, by simp [Reading.combine?, Token.inserted, nonzero]⟩

/-- A move keeps the choices of the variables that satisfy an equation. -/
theorem satisfied_isolate (settled : left.top.isSettled)
    (trimmed : ∀ p, left.top.value = some (.polynomial p) → p.IsTrimmed) :
    (fork a left right).isolate.Satisfied R v ↔ (fork a left right).Satisfied R v := by
  simp only [isolate]
  split
  · exact satisfied_moveOver
  · split
    · next p linear =>
      obtain ⟨held, degree⟩ := linear_eq_some.mp linear
      split
      · exact satisfied_moveOffset settled held degree
      · next flat =>
        split
        · exact satisfied_divideSlope settled held degree ((trimmed p held).slope degree)
            (by simpa [bne] using flat)
        · exact Iff.rfl
    · exact Iff.rfl

end Tree

namespace Formula

open Expression

variable {e f : Formula} {id : NodeId} {left right : Tree NodeId}

/-- Every quotient that is new in `f` has a number other than zero for its divisor. -/
def DividesSafely (e f : Formula) : Prop :=
  ∀ j : Nat, e.size ≤ j → (f.node j).token.kind = .divide →
    ∃ k x, (f.node j).right = some k ∧ (f.node k).value = some (.constant x) ∧ ¬IsRational x 0

theorem node_absent {j : NodeId} (beyond : f.size ≤ j) : f.node j = default := by
  rw [node_eq, Array.getElem?_eq_none (show f.nodes.size ≤ j from beyond)]
  rfl

theorem dividesSafely_of_size (same : f.size = e.size) : DividesSafely e f := by
  intro j new kind
  rw [node_absent (same ▸ new)] at kind
  cases kind

theorem kind_token (q : Quantity) : q.token.kind ≠ .divide := by
  cases q <;> exact Token.Kind.noConfusion

theorem size_pushValue (e : Formula) (q : Quantity) : (e.pushValue q).size = e.size + 1 := size_push ..

theorem label_pushValue_self (e : Formula) (q : Quantity) :
    ((e.pushValue q).node e.size).label = .ofValue q := by
  rw [pushValue, node_push_self]
  rfl

theorem node_pushValue_other (q : Quantity) {j : NodeId} (inside : j < e.size) :
    (e.pushValue q).node j = e.node j :=
  node_push_other e _ inside

/-- Nodes other than the one that gets new operands change their parents at most. -/
theorem same_replaceChildren {j : NodeId} (apart : j ≠ id) (first second : NodeId) :
    f.Same (f.replaceChildren id first second) j :=
  ((same_modify _ apart).setParent ..).setParent ..

/-- What is written on the nodes behind the old ones when two values and an operator are added. -/
theorem transfer_fresh (spans : e.Spans (.fork id left right)) (term amount : Quantity)
    (operator : Token)
    (moved : f = (((e.pushValue term).pushValue amount).pushBinary operator right.top
      (e.size + 1)).replaceChildren id e.size (e.size + 2)) :
    f.size = e.size + 3 ∧ (f.node e.size).label = .ofValue term ∧
      (f.node (e.size + 1)).label = .ofValue amount ∧
      (f.node (e.size + 2)).label = { token := operator } ∧
      (f.node (e.size + 2)).right = some (e.size + 1) := by
  have inside : id < e.size := spans.inside id (List.mem_cons_self ..)
  have within : right.top < e.size := spans.right.inside _ right.top_mem
  have grown : ((e.pushValue term).pushValue amount).size = e.size + 2 := by
    rw [size_pushValue, size_pushValue]
  have third :
      (((e.pushValue term).pushValue amount).pushBinary operator right.top (e.size + 1)).node
      (e.size + 2) = { token := operator, left := some right.top, right := some (e.size + 1) } := by
    rw [← grown]
    exact node_pushBinary _ operator (grown ▸ Nat.lt_add_right 2 within) (grown ▸ Nat.lt_succ_self _)
  have kept (j : Nat) (old : e.size ≤ j) : Same _ f j :=
    moved ▸ same_replaceChildren (Nat.ne_of_gt (Nat.lt_of_lt_of_le inside old)) ..
  have kept' (j : Nat) (old : e.size ≤ j) (new : j < e.size + 2) :
      (f.node j).label = (((e.pushValue term).pushValue amount).node j).label :=
    (kept j old).2.2.trans (same_pushBinary operator _ _ (grown ▸ new)).2.2
  refine ⟨?_, ?_, ?_, ?_, ?_⟩
  · rw [moved, replaceChildren, size_setParent, size_setParent, size_modify, size_pushBinary, grown]
  · rw [kept' _ (Nat.le_refl _) (by omega), node_pushValue_other
      _ (by rw [size_pushValue]; exact Nat.lt_succ_self _), label_pushValue_self]
  · rw [kept' (e.size + 1) (Nat.le_succ _) (Nat.lt_succ_self _), ← size_pushValue e term,
      label_pushValue_self]
  · rw [(kept _ (Nat.le_add_right e.size 2)).2.2, third]
    rfl
  · rw [(kept _ (Nat.le_add_right e.size 2)).2.1, third]

theorem token_label (j : NodeId) : (f.node j).token = (f.node j).label.token := rfl

theorem dividesSafely_transfer (spans : e.Spans (.fork id left right)) (term : Quantity) (x : Float)
    (operator : Token) (divisor : operator.kind = .divide → ¬IsRational x 0)
    (moved : f = (((e.pushValue term).pushValue (.constant x)).pushBinary operator right.top
      (e.size + 1)).replaceChildren id e.size (e.size + 2)) : DividesSafely e f := by
  obtain ⟨size, first, second, third, operand⟩ := transfer_fresh spans term (.constant x) operator moved
  intro j new kind
  rcases Nat.lt_or_ge j (e.size + 3) with small | beyond
  · rw [token_label] at kind
    obtain rfl | rfl | rfl : j = e.size ∨ j = e.size + 1 ∨ j = e.size + 2 := by omega
    · rw [first] at kind
      exact absurd kind (kind_token term)
    · rw [second] at kind
      exact absurd kind (kind_token (.constant x))
    · rw [third] at kind
      exact ⟨_, x, operand, congrArg Label.value second, divisor kind⟩
  · rw [node_absent (size ▸ beyond)] at kind
    cases kind

theorem dividesSafely_moveOver (spans : e.Spans (.fork id left right)) :
    DividesSafely e (moveOver e id left.top right.top) := by
  have inside : id < e.size := spans.inside id (List.mem_cons_self ..)
  have grown : (e.pushBinary (.inserted .minus "-") left.top right.top).size = e.size + 1 :=
    size_pushBinary ..
  intro j new kind
  have kept : ((moveOver e id left.top right.top).node j).label =
      (((e.pushBinary (.inserted .minus "-") left.top right.top).pushValue (.constant 0.0)).node j).label :=
    (same_replaceChildren (Nat.ne_of_gt (Nat.lt_of_lt_of_le inside new)) ..).2.2
  rw [token_label, kept] at kind
  rcases Nat.lt_or_ge j (e.size + 2) with small | beyond
  · obtain rfl | rfl : j = e.size ∨ j = e.size + 1 := by omega
    · rw [node_pushValue_other _ (grown ▸ Nat.lt_succ_self _),
        node_pushBinary e _ (spans.left.inside _ left.top_mem) (spans.right.inside _ right.top_mem)] at kind
      exact Token.Kind.noConfusion kind
    · rw [← grown, label_pushValue_self] at kind
      exact absurd kind (kind_token (.constant 0.0))
  · rw [node_absent (by rw [size_pushValue, grown]; exact beyond)] at kind
    exact Token.Kind.noConfusion kind

theorem isolate_dividesSafely (spans : e.Spans (.fork id left right))
    (trimmed : ∀ p, (e.node left.top).value = some (.polynomial p) → p.IsTrimmed) :
    DividesSafely e (isolate e id).1 := by
  have linear : linear? e left.top = (e.view left).linear? := by
    rw [linear?, Tree.linear?, Expression.view, Tree.top_map]
    rfl
  simp only [isolate, spans.links.1, spans.links.2.1]
  split
  · exact dividesSafely_moveOver spans
  · split
    · next p found =>
      rw [linear, Tree.linear_eq_some, Expression.view, Tree.top_map] at found
      split
      · refine dividesSafely_transfer spans _ _ _ ?_ (moveOffset_eq e id right.top p)
        rw [Tree.offsetMove]
        split <;> exact Token.Kind.noConfusion
      · split
        · exact dividesSafely_transfer spans _ _ _ (fun _ => (trimmed p found.1).slope found.2) rfl
        · exact dividesSafely_of_size (size_modify ..)
    · exact dividesSafely_of_size (size_modify ..)

/-- One move in an equation, in any formula that holds it, with its left side settled: the equation
it becomes is satisfied by the same choices of the variables, however terms, powers and open
derivatives are read. What is new divides by no zero, and the nodes outside the equation are what
they were. -/
theorem isolate_keeps_solutions {e : Formula} {id : NodeId} {left right : Tree NodeId}
    (spans : e.Spans (.fork id left right)) (settled : (e.node left.top).isSettled)
    (trimmed : ∀ p, (e.node left.top).value = some (.polynomial p) → p.IsTrimmed) :
    ∃ u : Tree NodeId, u.top = id ∧ (isolate e id).1.Spans u ∧
      (∀ R v, ((isolate e id).1.view u).Satisfied R v ↔ (e.view (.fork id left right)).Satisfied R v) ∧
      DividesSafely e (isolate e id).1 ∧ (isolate e id).1.root = e.root ∧
      (∀ j ∈ u.flatten, j ∈ (Tree.fork id left right).flatten ∨ e.size ≤ j) ∧
      ∀ j < e.size, j ∉ (Tree.fork id left right).flatten → (isolate e id).1.node j = e.node j := by
  obtain ⟨u, top, regrown, view, root⟩ := isolate_replaces spans
  refine ⟨u, top, regrown.spans, fun R v => ?_, isolate_dividesSafely spans trimmed, root,
    regrown.known, regrown.frame⟩
  have side : (e.view left).top = (e.node left.top).label := by rw [Expression.view, Tree.top_map]
  rw [Tree.top_fork] at view
  rw [view, view_fork]
  exact Tree.satisfied_isolate (side ▸ settled) (side ▸ trimmed)

/-- The equation `2*x + 6 = 10`, its sides settled. -/
def linearEquation : Formula :=
  ((({ nodes := #[], root := 2 } : Formula).pushValue (.polynomial (.make #[6.0, 2.0] 'x'))).pushValue
    (.constant 10.0)).pushBinary (.inserted .equals "=") 0 1

/-- The offset of the sample equation is moved to its right side. -/
theorem isolate_keeps_solutions_linear :
    ∃ u : Tree NodeId, u.top = 2 ∧ (isolate linearEquation 2).1.Spans u ∧
      (∀ R v, ((isolate linearEquation 2).1.view u).Satisfied R v ↔
        (linearEquation.view (.fork 2 (.leaf 0) (.leaf 1))).Satisfied R v) ∧
      DividesSafely linearEquation (isolate linearEquation 2).1 ∧
      (isolate linearEquation 2).1.root = linearEquation.root ∧
      (∀ j ∈ u.flatten, j ∈ (Tree.fork 2 (.leaf 0) (.leaf 1)).flatten ∨ linearEquation.size ≤ j) ∧
      ∀ j < linearEquation.size, j ∉ (Tree.fork 2 (.leaf 0) (.leaf 1)).flatten →
        (isolate linearEquation 2).1.node j = linearEquation.node j :=
  isolate_keeps_solutions ⟨⟨rfl, rfl, ⟨rfl, rfl⟩, rfl, rfl⟩, by decide, by decide⟩ rfl fun p held =>
    ⟨_, _, (Quantity.polynomial.inj (Option.some.inj held)).symm⟩

end Formula

end Stepwise
