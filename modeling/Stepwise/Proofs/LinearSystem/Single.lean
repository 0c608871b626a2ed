import Stepwise.Proofs.LinearSystem.Classify
import Stepwise.Proofs.Decimal.Quotient

/-! A system of one equation in one letter. Main statement: it has one line, for that letter, and
what the line shows is the solution of the equation but for rounding, unless that is so small that
it is set to zero. -/
namespace Stepwise

namespace Matrix

open Decimal (IsRational IsNear IsModerate)

variable {m : Matrix}

def soleEntry (lead x : Float) : Float :=
  let scaled := if lead != 1.0 then snap (x * (1.0 / lead)) else x
  if scaled == 0.0 then 0.0 else scaled

/-- A row on its own is only scaled. -/
theorem get_rref_sole (rows : m.rows = 1) (cols : m.cols = 2) (pivot : (m.get 0 0 == 0.0) = false)
    {j : ℕ} (inside : j < 2) :
    m.rref.rows = 1 ∧ m.rref.cols = 2 ∧ m.rref.get 0 j = soleEntry (m.get 0 0) (m.get 0 j) := by
  have first : (Elimination.column ⟨m, []⟩ 0) = ⟨(m.swapRows 0 0).clearBelow 0 0, [(0, 0)]⟩ := by
    have best : m.pivotRow 0 0 = 0 := by
      have spec := m.pivotRow_spec 0 (show 0 < m.rows by omega)
      omega
    simp [Elimination.column, rows, best, pivot]
  have swapped (j : ℕ) (inside : j < 2) : ((m.swapRows 0 0).clearBelow 0 0).get 0 j = m.get 0 j := by
    rw [get_clearBelow (by simp; omega) (by simp; omega) (by simp; omega) (by simp; omega),
      if_neg (Nat.lt_irrefl 0), get_swapRows 0 0 (by omega) (by omega)]
    simp
  have eliminated : m.eliminate = ⟨(m.swapRows 0 0).clearBelow 0 0, [(0, 0)]⟩ := by
    have columns : List.range 2 = [0, 1] := rfl
    rw [eliminate, cols, columns, List.foldl_cons, first, List.foldl_cons, List.foldl_nil]
    simp [Elimination.column, rows]
  have shape : ((m.swapRows 0 0).clearBelow 0 0).rows = 1 ∧
      ((m.swapRows 0 0).clearBelow 0 0).cols = 2 := by
    simp [rows, cols]
  generalize (m.swapRows 0 0).clearBelow 0 0 = forward at *
  have scaled : m.rref = (forward.normalizePivot 0 0).unsignedZeros := by
    rw [rref, eliminated]
    simp [clearAbove]
  rw [scaled, get_unsignedZeros (by simp [shape]) (by simp [shape, inside]),
    get_normalizePivot 0 0 (by simp [shape]) (by simp [shape, inside]), swapped 0 (by omega),
    swapped j inside]
  exact ⟨by simp [unsignedZeros, shape], by simp [unsignedZeros, shape], by simp [soleEntry]⟩

/-- What is near the number is not set to zero. -/
def IsKept (q : ℚ) : Prop := q = 0 ∨ epsilon ≤ |q| - |q| / 2 ^ 50

theorem isKept_of_le {q : ℚ} (large : 1 / 2 ≤ |q|) : IsKept q := by
  have := epsilon_lt.2
  exact .inr (by linarith)

/-- An entry stands for the quotient by the pivot. -/
theorem soleEntry_isNear {lead x : Float} {p q : ℚ} (first : IsRational x p) (second : IsRational lead q)
    (moderate : p = 0 ∨ IsModerate p) (divisor : IsModerate q) (kept : IsKept (p / q)) :
    IsNear (soleEntry lead x) (p / q) := by
  have unsigned {z : Float} (near : IsNear z (p / q)) : IsNear (if z == 0.0 then 0.0 else z) (p / q) := by
    split
    · next zero =>
      obtain ⟨r, value, close⟩ := near
      obtain rfl := (isRational_of_beq_zero zero).unique value
      exact ⟨0, .zero, close⟩
    · exact near
  refine unsigned ?_
  split
  · obtain ⟨r, value, close⟩ := first.mul_reciprocal_isNear second moderate divisor
    refine ⟨r, isRational_snap value (kept.imp (fun zero => ?_) fun large => ?_), close⟩
    · rw [zero] at close
      simpa using close
    · have := (abs_le.mp ((abs_abs_sub_abs_le r _).trans close)).1
      linarith
  · next unit =>
    have one : q = 1 := (second.beq_iff .one).mp (by simpa [bne] using unit)
    rw [one, div_one]
    exact first.isNear

theorem basicRow_sole (rows : m.rows = 1) (lead : m.get 0 0 != 0.0) :
    m.leadingColumn? 1 0 = some 0 ∧ m.basicRow? 1 0 = some 0 := by
  have range : List.range 1 = [0] := rfl
  have column : m.leadingColumn? 1 0 = some 0 := by simp [leadingColumn?, range, lead]
  exact ⟨column, by simp [basicRow?, rows, range, column]⟩

/-- The line of the only letter. -/
theorem generalSolution_sole (rows : m.rows = 1) (cols : m.cols = 2) (lead : m.get 0 0 != 0.0) (v : Char) :
    m.generalSolution [v] =
      [v.toString ++ " = " ++ if m.get 0 1 != 0.0 then Decimal.sixPlaces (m.get 0 1) else "0"] := by
  obtain ⟨column, basic⟩ := basicRow_sole rows lead
  have range : List.range 1 = [0] := rfl
  have consistent : m.isInconsistent 1 = false := by simp [isInconsistent, rows, range, column]
  have side : m.basicSide 0 [none] = if m.get 0 1 != 0.0 then Decimal.sixPlaces (m.get 0 1) else "0" := by
    by_cases nonzero : m.get 0 1 != 0.0 <;> simp [basicSide, constantOf, cols, nonzero]
  simp [generalSolution, cols, consistent, range, basic, nameParameters, side]

end Matrix

namespace Tree

variable {ν : Type}

def solution (x : Tree (Label ν)) (v : Char) : ℚ := -x.exact 0 / x.coefficient v

end Tree

namespace LinearSystem

open Decimal (IsRational rational? IsNear IsModerate)

theorem Terms.exists_sum {terms : Terms} {v : Char → ℚ} {s : ℚ} (total : terms.total? v = some s)
    (key : Key) :
    ∃ p, IsRational (terms.sum key) p := by
  induction terms generalizing s with
  | nil => exact ⟨0, .zero⟩
  | cons term rest ih =>
    obtain ⟨k, x⟩ := term
    obtain ⟨p, value, q, others, -⟩ := total_cons.mp total
    by_cases same : k = key
    · subst same
      exact ⟨p, by rwa [sum_cons_self]⟩
    · rw [sum_cons_other same]
      exact ih others

variable {text : String} {x : Tree Mark} {terms : Terms} {v : Char}

/-- The terms of an equation in one letter are its coefficient and its constant. -/
theorem exists_coefficients (spells : Spells x terms) (single : ∀ letter ∈ x.letters, letter = v) :
    IsRational (terms.sum (.letter v)) (x.coefficient v) ∧ IsRational (terms.sum .constant) (-x.exact 0) := by
  obtain ⟨a, slope⟩ := Terms.exists_sum (spells.total 0) (.letter v)
  obtain ⟨b, constant⟩ := Terms.exists_sum (spells.total 0) .constant
  have all : ∀ key ∈ terms.keys, key ∈ [Key.letter v, Key.constant] := fun key member => by
    cases key with
    | constant => simp
    | letter name => simp [single name ((spells.keys name).mp member)]
  have value (w : Char → ℚ) : x.exact w = a * w v - b := by
    have slope : rational? (terms.sum (.letter v)) = some a := slope
    have constant : rational? (terms.sum .constant) = some b := constant
    rw [Terms.total_eq_sum spells.distinct (by simp) all (spells.total w)]
    simp [slope, constant, Terms.weight, sub_eq_add_neg]
  have first : x.coefficient v = a := by simp [Tree.coefficient, value]
  have second : -x.exact 0 = b := by simp [value]
  rw [first, second]
  exact ⟨slope, constant⟩

theorem letters_sole (member : v ∈ x.letters) (single : ∀ letter ∈ x.letters, letter = v) :
    letters [x] = [v] := by
  refine letters_of_perm
    ((List.perm_ext_iff_of_nodup (List.nodup_dedup _) (List.nodup_singleton v)).mpr fun letter =>
    ?_) (List.pairwise_singleton ..)
  simp only [List.mem_dedup, List.flatMap_singleton, List.mem_singleton]
  exact ⟨single letter, fun same => same ▸ member⟩

/-- A linear equation in one letter has one line, which shows its solution up to rounding. -/
theorem solve_sole (parsed : Tree.ofText text = .ok x)
    (equation : x.IsLinearEquation) (reads : x.ReadsExactly) (collects : CollectsExactly text)
    (single : ∀ letter ∈ x.letters, letter = v) (slope : IsModerate (x.coefficient v))
    (offset : x.exact 0 = 0 ∨ IsModerate (x.exact 0)) :
    v ∈ x.letters ∧ ∃ c, solve [text] = .ok [v.toString ++ " = " ++ Decimal.sixPlaces c] ∧
      (Matrix.IsKept (x.solution v) → IsNear c (x.solution v)) := by
  obtain ⟨terms, collected, distinct, keys, total⟩ := termsOfText_linear parsed equation reads collects
  have spells : Spells x terms := ⟨distinct, keys, total⟩
  obtain ⟨first, second⟩ := exists_coefficients spells single
  have member : v ∈ x.letters := by
    by_contra absent
    have none : Key.letter v ∉ terms.keys := mt (keys v).mp absent
    rw [Terms.sum_of_not_mem none] at first
    exact slope.ne_zero (first.unique .zero)
  refine ⟨member, ?_⟩
  obtain ⟨table, pushed, tabulates⟩ := Table.Tabulates.empty.pushTexts (.cons collected .nil)
  have named : table.letters = [v] :=
    (letters_eq (.cons spells .nil) tabulates).trans (letters_sole member single)
  obtain ⟨m, formed, rows, cols, entries⟩ := tabulates.toMatrix_ok (by simp)
  obtain ⟨values, constant⟩ := entries 0 (by simp)
  have lead : m.get 0 0 = terms.sum (.letter v) := by simpa [named] using values 0 (by simp [named])
  have last : m.get 0 1 = terms.sum .constant := by simpa [named] using constant
  have width : m.cols = 2 := by simpa [named] using cols
  have nonzero : (m.get 0 0 == 0.0) = false := by
    rw [lead, first.beq .zero, decide_eq_false slope.ne_zero]
  obtain ⟨rows', cols', pivot⟩ := Matrix.get_rref_sole rows width nonzero (j := 0) (by omega)
  obtain ⟨-, -, entry⟩ := Matrix.get_rref_sole rows width nonzero (j := 1) (by omega)
  rw [lead] at pivot entry
  rw [last] at entry
  have unit := Matrix.soleEntry_isNear first first (.inr slope) slope
    (Matrix.isKept_of_le (by rw [div_self slope.ne_zero]; norm_num))
  have near (kept : Matrix.IsKept (x.solution v)) : IsNear (m.rref.get 0 1) (x.solution v) :=
    entry ▸ Matrix.soleEntry_isNear second first (offset.imp (by simp [·]) IsModerate.neg) slope kept
  rw [← pivot, div_self slope.ne_zero] at unit
  have one : m.rref.get 0 0 != 0.0 := by
    obtain ⟨p, value, close⟩ := unit
    have other : p ≠ 0 := by
      rintro rfl
      norm_num at close
    rw [bne, value.beq .zero, decide_eq_false other]
    rfl
  refine ⟨_, ?_, near⟩
  rw [solve, if_neg (by simp), pushed]
  simp only [formed, named, Matrix.generalSolution_sole rows' cols' one]
  split
  · rfl
  · next zero =>
    rw [Decimal.sixPlaces_zero (Matrix.isRational_of_beq_zero (by simpa [bne] using zero))]

end LinearSystem

end Stepwise
