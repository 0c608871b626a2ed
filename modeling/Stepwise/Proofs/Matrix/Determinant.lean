import Stepwise.Proofs.Decimal.Sum
import Stepwise.Proofs.Matrix.Cofactor

/-! Determinants of integers. The doubles of a matrix may be integers of any size, as long as the
products and partial sums of the expansion are represented without loss. Main statement: the
expansion is then the determinant, and a cofactor the signed determinant of its minor, for matrices
of every size. -/

abbrev IntegerMatrix (n : ℕ) := Matrix (Fin n) (Fin n) ℤ

namespace Stepwise

open Decimal (IsRational)

abbrev without {n : ℕ} (A : IntegerMatrix (n + 1)) (i j : Fin (n + 1)) : IntegerMatrix n :=
  A.submatrix i.succAbove j.succAbove

/-- The products and the partial sums of the expansion along the first row, and of those of its
minors, are represented without loss. -/
def ExpandsExactly : {n : ℕ} → IntegerMatrix n → Prop
  | 0, _ | 1, _ => True
  | 2, A => Exact (A 0 0 * A 1 1) ∧ Exact (A 0 1 * A 1 0) ∧ Exact (A 0 0 * A 1 1 - A 0 1 * A 1 0)
  | _ + 3, A => (∀ j, ExpandsExactly (without A 0 j)) ∧
      SumsExactly 0 (List.ofFn fun j => A 0 j * ((-1) ^ (j : ℕ) * (without A 0 j).det))

instance decidableExpandsExactly : ∀ {n : ℕ} (A : IntegerMatrix n), Decidable (ExpandsExactly A)
  | 0, _ | 1, _ => inferInstanceAs (Decidable True)
  | 2, A => inferInstanceAs (Decidable
      (Exact (A 0 0 * A 1 1) ∧ Exact (A 0 1 * A 1 0) ∧ Exact (A 0 0 * A 1 1 - A 0 1 * A 1 0)))
  | n + 3, A =>
    have (j : Fin (n + 3)) := decidableExpandsExactly (without A 0 j)
    inferInstanceAs (Decidable ((∀ j, ExpandsExactly (without A 0 j)) ∧ SumsExactly 0 _))

/-- The expansion along the first row, with the sign at the minor. -/
theorem det_expanded {n : ℕ} (A : IntegerMatrix (n + 1)) :
    A.det = ∑ j, A 0 j * ((-1) ^ (j : ℕ) * (without A 0 j).det) := by
  rw [Matrix.det_succ_row_zero]
  refine Finset.sum_congr rfl fun j _ => ?_
  rw [without, Fin.succAbove_zero, mul_left_comm, mul_assoc]

theorem Exact.signed {a : ℤ} (small : Exact a) (k : ℕ) : Exact ((-1) ^ k * a) := by
  rcases neg_one_pow_eq_or ℤ k with same | same <;> rw [same]
  · rwa [one_mul]
  · rwa [neg_one_mul, Exact, Int.natAbs_neg]

theorem exact_zero : Exact 0 := Nat.two_pow_pos 53

namespace Matrix

structure HoldsIntegers (m : Matrix) {n : ℕ} (A : IntegerMatrix n) : Prop where
  rows : m.rows = n
  cols : m.cols = n
  entries : ∀ i j : Fin n, IsRational (m.get i j) (A i j)

theorem sign_value (row col : ℕ) : IsRational (sign row col) ((-1) ^ (row + col) : ℤ) := by
  unfold sign
  split
  · next even =>
    rw [(Nat.even_iff.mpr even).neg_one_pow]
    simpa using IsRational.one
  · next odd =>
    rw [(Nat.odd_iff.mpr (by omega)).neg_one_pow]
    simpa using IsRational.one.neg

theorem signed_value {x : Float} {a : ℤ} (value : IsRational x a) (small : Exact a) (row col : ℕ) :
    IsRational (sign row col * x) ((-1) ^ (row + col) * a : ℤ) :=
  (sign_value row col).mul_exact value (small.signed _)

namespace HoldsIntegers

variable {n : ℕ} {m : Matrix}

theorem isSquare {A : IntegerMatrix n} (holds : m.HoldsIntegers A) : m.IsSquare :=
  holds.rows.trans holds.cols.symm

theorem minor {A : IntegerMatrix (n + 1)} (holds : m.HoldsIntegers A) (i j : Fin (n + 1)) :
    (m.minor i j).HoldsIntegers (without A i j) where
  rows := congrArg (· - 1) holds.rows
  cols := congrArg (· - 1) holds.cols
  entries k l := by
    have past (cut : Fin (n + 1)) (k : Fin n) :
        (if (k : ℕ) < cut then (k : ℕ) else k + 1) = cut.succAbove k := by
      unfold Fin.succAbove
      split <;> split <;> simp_all [Fin.lt_def]; omega
    have entry := holds.entries (i.succAbove k) (j.succAbove l)
    rw [← past i k, ← past j l] at entry
    have row : (k : ℕ) < m.rows - 1 := by rw [holds.rows]; exact k.isLt
    have col : (l : ℕ) < m.cols - 1 := by rw [holds.cols]; exact l.isLt
    rw [Matrix.minor, get_ofFn _ row col]
    exact entry

/-- The determinant of a minor is multiplied by a sign before it enters a sum, so that it has to be
small itself. With one row it is an entry, and entries may be large. -/
theorem expansion_value {A : IntegerMatrix n} (holds : m.HoldsIntegers A) (fits : ExpandsExactly A) :
    IsRational (expansion n m) A.det ∧ (2 ≤ n → Exact A.det) := by
  induction n generalizing m with
  | zero => exact ⟨by rw [Matrix.det_fin_zero, Int.cast_one]; exact IsRational.one, by omega⟩
  | succ n ih =>
    match n, A with
    | 0, A => exact ⟨by rw [Matrix.det_fin_one]; exact holds.entries 0 0, by omega⟩
    | 1, A =>
      obtain ⟨first, second, difference⟩ := fits
      rw [Matrix.det_fin_two]
      refine ⟨?_, fun _ => difference⟩
      exact ((holds.entries 0 0).mul_exact (holds.entries 1 1) first).sub_exact
        ((holds.entries 0 1).mul_exact (holds.entries 1 0) second) first second difference
    | n + 2, A =>
      obtain ⟨minors, sum⟩ := fits
      have cofactor (j : Fin (n + 3)) : IsRational (sign 1 (j + 1) * expansion (n + 2) (m.minor 0 j))
          ((-1) ^ (j : ℕ) * (without A 0 j).det : ℤ) := by
        obtain ⟨value, small⟩ := ih (holds.minor 0 j) (minors j)
        have parity : (-1 : ℤ) ^ (1 + (j + 1 : ℕ)) = (-1) ^ (j : ℕ) := by
          rw [← add_assoc, add_right_comm, pow_add]
          norm_num
        exact parity ▸ signed_value value (small (by omega)) 1 (j + 1)
      have terms (j : Fin (n + 3)) := (holds.entries 0 j).mul_exact (cofactor j)
        (sum.term (List.mem_ofFn.mpr ⟨j, rfl⟩))
      have zero : IsRational 0.0 (0 : ℤ) := by simpa using IsRational.zero
      obtain ⟨value, small⟩ :=
        foldl_exact (f := fun j => m.get 0 j * (sign 1 (j + 1) * expansion (n + 2) (m.minor 0 j)))
          zero exact_zero terms sum
      rw [det_expanded, ← zero_add (∑ j, _)]
      exact ⟨value, fun _ => small⟩

theorem signedMinor_value {A : IntegerMatrix (n + 3)} (holds : m.HoldsIntegers A) (i j : Fin (n + 3))
    (fits : ExpandsExactly (without A i j)) :
    IsRational (m.signedMinor i j) ((-1) ^ (i + j : ℕ) * (without A i j).det : ℤ) := by
  obtain ⟨value, small⟩ := (holds.minor i j).expansion_value fits
  have parity : (-1 : ℤ) ^ ((i + 1) + (j + 1) : ℕ) = (-1) ^ (i + j : ℕ) := by
    rw [add_add_add_comm, pow_add]
    norm_num
  have rows : m.rows - 1 = n + 2 := by rw [holds.rows]; rfl
  have cofactor := signed_value value (small (by omega)) (i + 1) (j + 1)
  rw [parity] at cofactor
  rwa [signedMinor, rows]

end HoldsIntegers

/-- While nothing is rounded the expansion is the determinant, the signed sum over all permutations,
and every cofactor is the signed determinant of its minor. -/
theorem determinant_exact :
    (∀ {n : ℕ} {m : Matrix} {A : IntegerMatrix n}, m.HoldsIntegers A → ExpandsExactly A →
      ∃ d, m.determinant = .ok d ∧ IsRational d A.det) ∧
    ∀ {n : ℕ} {m : Matrix} {A : IntegerMatrix (n + 3)}, m.HoldsIntegers A →
      ∀ i j, ExpandsExactly (without A i j) →
      ∃ c, m.cofactor (i + 1) (j + 1) = .ok c ∧
      IsRational c ((-1) ^ (i + j : ℕ) * (without A i j).det : ℤ) := by
  constructor
  · intro n m A holds fits
    refine ⟨_, determinant_ok holds.isSquare, ?_⟩
    rw [holds.rows]
    exact (holds.expansion_value fits).1
  · intro n m A holds i j fits
    have inside (k : Fin (n + 3)) : (k : ℕ) < m.rows := k.isLt.trans_eq holds.rows.symm
    refine ⟨_, cofactor_ok holds.isSquare (by have := holds.rows; omega) (inside i) (inside j), ?_⟩
    exact holds.signedMinor_value i j fits

/-- A cofactor in the last row expands the first two, which the determinant never does. -/
def skewed : Matrix :=
  ofFn 3 3 fun i j => ([[2.0, 0.0, -1.0], [5.0, 3.0, 4.0], [-7.0, 1.0, 6.0]].getD i []).getD j 0.0

theorem determinant_exact_skewed : ∃ A : IntegerMatrix 3,
    skewed.HoldsIntegers A ∧ ExpandsExactly A ∧ ExpandsExactly (without A 2 1) ∧
    (∃ d, skewed.determinant = .ok d ∧ IsRational d 2) ∧ ∃ c, skewed.cofactor 3 2 = .ok c ∧
    IsRational c (-13) := by
  let A : IntegerMatrix 3 := !![2, 0, -1; 5, 3, 4; -7, 1, 6]
  have holds : skewed.HoldsIntegers A := ⟨rfl, rfl, by decide +kernel⟩
  have fits : ExpandsExactly A := by decide +kernel
  have fits' : ExpandsExactly (without A 2 1) := by decide +kernel
  have determinant : A.det = 2 := by decide +kernel
  have cofactor : (-1) ^ (2 + 1) * (without A 2 1).det = -13 := by decide +kernel
  obtain ⟨d, found, value⟩ := determinant_exact.1 holds fits
  obtain ⟨c, found', value'⟩ := determinant_exact.2 holds 2 1 fits'
  refine ⟨A, holds, fits, fits', ⟨d, found, ?_⟩, c, found', ?_⟩
  · simpa [determinant] using value
  · have same : ((-13 : ℤ) : ℚ) = -13 := by norm_num
    exact same ▸ cofactor ▸ value'

end Matrix

end Stepwise
