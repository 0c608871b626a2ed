import Stepwise.Proofs.Matrix.Discern
import Stepwise.Proofs.Matrix.Solution

/-! How many solutions a system has. As long as zeros are told apart while its matrix is reduced, the
lines of the general solution say whether there is a solution, and they have one parameter for
each variable that the rank leaves free. -/
namespace Stepwise.Matrix

/-- The parameters on the right sides of the lines. -/
def occurring (m : Matrix) (letters : List Char) : List String :=
  ((List.range letters.length).flatMap fun col => (m.solutionForm letters col).terms.map Prod.snd).dedup

section Count

variable {m : Matrix} {letters : List Char}

/-- Every parameter occurs, on the line of its own variable. -/
theorem length_occurring : (m.occurring letters).length = (m.parameters letters).length := by
  refine List.Perm.length_eq
    ((List.perm_ext_iff_of_nodup (List.nodup_dedup _) (m.parameters_nodup letters)).mpr fun name =>
    ?_)
  rw [List.mem_dedup, List.mem_flatMap]
  constructor
  · rintro ⟨col, inside, member⟩
    obtain ⟨term, here, rfl⟩ := List.mem_map.mp member
    exact terms_parameters (List.mem_range.mp inside) term here
  · intro member
    obtain ⟨col, inside, named⟩ := mem_parameters.mp member
    refine ⟨col, List.mem_range.mpr inside, List.mem_map.mpr ⟨(1.0, name), ?_, rfl⟩⟩
    rw [solutionForm, named]
    exact List.mem_singleton_self _

end Count

section Pivots

variable {m : Matrix} {n : ℕ} {pivots : List (ℕ × ℕ)} (finite : m.IsFinite) (width : m.cols = n + 1)
  (echelon : Echelon (m.value · · = 0) m.rows (n + 1) pivots)

include echelon

theorem leads_iff {row col : ℕ} (inside : row < m.rows) (here : col < n + 1) :
    m.Leads row col ↔ (row, col) ∈ pivots := by
  rw [← isLeadingEntry_iff inside here]
  exact echelon.isLeadingEntry_iff ⟨row, inside⟩ ⟨col, here⟩

include finite width

theorem isInconsistent_of_pivots : m.isInconsistent n ↔ ∃ row, (row, n) ∈ pivots := by
  rw [isInconsistent_iff finite width]
  constructor
  · rintro ⟨row, inside, zeros, other⟩
    exact ⟨row, (leads_iff echelon inside (Nat.lt_succ_self n)).mp ⟨zeros, other⟩⟩
  · rintro ⟨row, member⟩
    have inside := (echelon.descending.row_lt member).trans_le echelon.few
    exact ⟨row, inside, (leads_iff echelon inside (Nat.lt_succ_self n)).mpr member⟩

theorem isSome_basicRow_iff {col : ℕ} (here : col < n) :
    (m.basicRow? n col).isSome ↔ col ∈ pivots.map Prod.snd := by
  rw [Option.isSome_iff_ne_none, ne_eq, basicRow_eq_none finite (by omega) here]
  push Not
  constructor
  · rintro ⟨row, inside, leads⟩
    exact List.mem_map.mpr ⟨_, (leads_iff echelon inside (by omega)).mp leads, rfl⟩
  · intro member
    obtain ⟨⟨row, _⟩, earlier, rfl⟩ := List.mem_map.mp member
    have inside := (echelon.descending.row_lt earlier).trans_le echelon.few
    exact ⟨row, inside, (leads_iff echelon inside (by omega)).mpr earlier⟩

/-- A column is free or has a pivot. -/
theorem count_free (short : ∀ pivot ∈ pivots, pivot.2 < n) :
    ((List.range n).countP fun col => (m.basicRow? n col).isNone) + pivots.length = n := by
  have basic : ((List.range n).filter fun col => (m.basicRow? n col).isSome).Perm (pivots.map Prod.snd) := by
    refine (List.perm_ext_iff_of_nodup (List.nodup_range.filter _)
      echelon.descending.nodup_cols).mpr fun col => ?_
    rw [List.mem_filter, List.mem_range]
    constructor
    · rintro ⟨here, isBasic⟩
      exact (isSome_basicRow_iff finite width echelon here).mp isBasic
    · intro member
      obtain ⟨pivot, earlier, rfl⟩ := List.mem_map.mp member
      have here := short pivot earlier
      exact ⟨here, (isSome_basicRow_iff finite width echelon here).mpr member⟩
  have total := List.length_eq_countP_add_countP (fun col => (m.basicRow? n col).isNone) (l := List.range n)
  have pivoted : (List.range n).countP (fun col => ¬ (m.basicRow? n col).isNone) = pivots.length := by
    rw [← List.length_map Prod.snd, ← basic.length_eq, List.countP_eq_length_filter]
    congr 2
    funext col
    cases m.basicRow? n col <;> rfl
  rw [pivoted, List.length_range] at total
  exact total.symm

end Pivots

/-- When zeros are told apart and no number overflows, the lines say whether there is a solution,
and the variables that they leave free are those that the rank leaves free. -/
theorem rref_classified {m : Matrix} {letters : List Char} (finite : m.rref.IsFinite)
    (discerning : m.Discerning) (width : m.cols = letters.length + 1) :
    (m.rref.generalSolution letters = [noSolution] ↔ ¬ ∃ x, Solves (m.values m.rows (letters.length + 1)) x) ∧
      ((∃ x, Solves (m.values m.rows (letters.length + 1)) x) →
      m.rref.generalSolution letters = m.rref.solutionLines letters ∧
        (m.rref.occurring letters).length + (m.values m.rows letters.length).rank = letters.length) := by
  obtain ⟨A, pivots, equivalent, fractions, rows, cols, doubles⟩ := rref_discerned finite discerning
  rw [width] at equivalent fractions doubles cols
  rw [← rows] at doubles
  have solutions (x : Fin letters.length → ℚ) :
      Solves (block m.rows (letters.length + 1) A) x ↔
      Solves (m.values m.rows (letters.length + 1)) x := equivalent.solves x
  have rank : (block m.rows letters.length A).rank = (m.values m.rows letters.length).rank :=
    equivalent.init.rank_eq
  have inconsistent := isInconsistent_of_pivots finite cols doubles
  rcases fractions.dropLast with ⟨coefficients, short⟩ | ⟨above, rfl, -⟩
  · have consistent : ¬ m.rref.isInconsistent letters.length := fun found => by
      obtain ⟨row, member⟩ := inconsistent.mp found
      exact absurd (short _ member) (Nat.lt_irrefl _)
    obtain ⟨x, solves⟩ := fractions.exists_solves short
    refine ⟨iff_of_false (mt (generalSolution_eq_noSolution cols).mp consistent)
      (not_not.mpr ⟨x, (solutions x).mp solves⟩), fun _ => ⟨generalSolution_eq cols consistent, ?_⟩⟩
    rw [length_occurring, length_parameters, ← rank, coefficients.rank_eq]
    exact count_free finite cols doubles short
  · have member := List.mem_cons_self (a := (above.length, letters.length)) (l := above)
    have unsolvable : ¬ ∃ x, Solves (m.values m.rows (letters.length + 1)) x := fun ⟨x, solves⟩ =>
      fractions.not_solves member x ((solutions x).mpr solves)
    exact ⟨iff_of_true ((generalSolution_eq_noSolution cols).mpr (inconsistent.mpr ⟨_, member⟩)) unsolvable,
      fun solvable => absurd solvable unsolvable⟩

end Stepwise.Matrix
