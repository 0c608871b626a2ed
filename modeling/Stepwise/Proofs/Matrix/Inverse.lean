import Stepwise.Proofs.Matrix.Determinant

/-! Inverses of matrices of integers. A determinant of one or minus one is its own reciprocal, so
that the inverse has integers as entries. Main statement: as long as nothing on the way is rounded,
the inverse is one on both sides, and a matrix whose determinant is zero has none. -/
namespace Stepwise

open Decimal (IsRational)

def MultipliesExactly {n : ℕ} (A B : IntegerMatrix n) : Prop :=
  ∀ i j, SumsExactly 0 (List.ofFn fun k => A i k * B k j)

instance {n : ℕ} (A B : IntegerMatrix n) : Decidable (MultipliesExactly A B) :=
  inferInstanceAs (Decidable (∀ _ _, _))

/-- The inverse and the products with it are computed without loss. -/
structure InvertsExactly {n : ℕ} (A : IntegerMatrix (n + 1)) : Prop where
  determinant : ExpandsExactly A
  /-- No more than that with one or two rows, where minors are not expanded. -/
  cofactors : ∀ i j, ExpandsExactly (without A i j)
  right : MultipliesExactly A A⁻¹
  left : MultipliesExactly A⁻¹ A

/-- The inverse of a matrix that has integers in its inverse. -/
theorem inv_eq_adjugate {n : ℕ} {A : IntegerMatrix n} (unit : A.det = 1 ∨ A.det = -1) :
    A⁻¹ = A.det • A.adjugate := by
  refine Matrix.inv_eq_right_inv ?_
  rw [Matrix.mul_smul, Matrix.mul_adjugate, smul_smul]
  rcases unit with same | same <;> rw [same] <;> norm_num

namespace Matrix

structure SameAs (a b : Matrix) : Prop where
  rows : a.rows = b.rows
  cols : a.cols = b.cols
  entries : ∀ i < a.rows, ∀ j < a.cols, a.get i j == b.get i j

/-- A determinant of one or minus one is its own reciprocal. -/
theorem reciprocal_unit {d : Float} {u : ℤ} (value : IsRational d u) (unit : u = 1 ∨ u = -1) :
    1.0 / d = d := by
  rcases unit with rfl | rfl
  · have same : d = 1.0 := value.eq_of_ne_zero (by simpa using IsRational.one) (by norm_num)
    rw [same]
    decide +kernel
  · have same : d = -1.0 := value.eq_of_ne_zero (by simpa using IsRational.one.neg) (by norm_num)
    rw [same]
    decide +kernel

theorem mul_unit {x d : Float} {a u : ℤ} (left : IsRational x a) (value : IsRational d u)
    (unit : u = 1 ∨ u = -1) :
    IsRational (x * d) (u * a : ℤ) := by
  rcases unit with rfl | rfl
  · have same : d = 1.0 := value.eq_of_ne_zero (by simpa using IsRational.one) (by norm_num)
    rw [same, one_mul]
    exact left.mul_one
  · have same : d = -1.0 := value.eq_of_ne_zero (by simpa using IsRational.one.neg) (by norm_num)
    rw [same, neg_one_mul, Int.cast_neg]
    exact left.mul_minus_one

theorem holds_ofFn {n : ℕ} {f : ℕ → ℕ → Float} {A : IntegerMatrix n}
    (entries : ∀ i j : Fin n, IsRational (f i j) (A i j)) :
    (ofFn n n f).HoldsIntegers A where
  rows := rfl
  cols := rfl
  entries i j := by
    rw [get_ofFn f i.isLt j.isLt]
    exact entries i j

theorem holds_identity (n : ℕ) : (identity n).HoldsIntegers (1 : IntegerMatrix n) :=
  holds_ofFn fun i j => by
    by_cases same : i = j
    · subst same
      simpa using IsRational.one
    · have other : (i : ℕ) ≠ j := fun equal => same (Fin.ext equal)
      rw [if_neg other, Matrix.one_apply_ne same, Int.cast_zero]
      exact IsRational.zero

namespace HoldsIntegers

variable {n : ℕ} {a b m : Matrix} {A B : IntegerMatrix n} {d : Float}

theorem sameAs (first : a.HoldsIntegers A) (second : b.HoldsIntegers A) : a.SameAs b where
  rows := first.rows.trans second.rows.symm
  cols := first.cols.trans second.cols.symm
  entries i row j col :=
    ((first.entries ⟨i, row.trans_eq first.rows⟩ ⟨j, col.trans_eq first.cols⟩).beq_iff
      (second.entries ⟨i, row.trans_eq first.rows⟩ ⟨j, col.trans_eq first.cols⟩)).mpr rfl

theorem mul (first : a.HoldsIntegers A) (second : b.HoldsIntegers B) (fits : MultipliesExactly A B) :
    ∃ c, a.mul b = .ok c ∧ c.HoldsIntegers (A * B) := by
  have zero : IsRational (-0.0) (0 : ℤ) := by simpa using IsRational.zero.neg
  refine ⟨_, if_pos (first.cols.trans second.rows.symm), ?_⟩
  rw [first.rows, second.cols]
  refine holds_ofFn fun i j => ?_
  have products (k : Fin n) :=
    (first.entries i k).mul_exact (second.entries k j) ((fits i j).term (List.mem_ofFn.mpr ⟨k, rfl⟩))
  have sum := foldl_exact (f := fun k => a.get i k * b.get k j) zero exact_zero products (fits i j)
  rw [zero_add] at sum
  rw [dot, first.cols, Matrix.mul_apply]
  exact sum.1

theorem scale {u : ℤ} (holds : m.HoldsIntegers A) (value : IsRational d u) (unit : u = 1 ∨ u = -1) :
    (m.scale d).HoldsIntegers (u • A) := by
  have shape : m.scale d = ofFn n n fun i j => m.get i j * d := by rw [Matrix.scale, holds.rows, holds.cols]
  rw [shape]
  exact holds_ofFn fun i j => mul_unit (holds.entries i j) value unit

/-- The inverse over a determinant of one or minus one is the integer inverse. -/
theorem inverted {A : IntegerMatrix (n + 1)} (holds : m.HoldsIntegers A) (value : IsRational d A.det)
    (unit : A.det = 1 ∨ A.det = -1) (cofactors : ∀ i j, ExpandsExactly (without A i j)) :
    (m.inverted d).HoldsIntegers A⁻¹ := by
  have rows := holds.rows
  rw [inv_eq_adjugate unit]
  match n, A with
  | 0, A =>
    have sole : m.inverted d = ofFn 1 1 fun _ _ => d := by
      simp only [Matrix.inverted, rows, reciprocal_unit value unit]
      rfl
    rw [sole]
    refine holds_ofFn fun i j => ?_
    rw [Matrix.adjugate_fin_one, Subsingleton.elim i j]
    simpa using value
  | 1, A =>
    have swapped : m.inverted d =
        (ofFn 2 2 fun i j => if i = j then m.get (1 - i) (1 - j) else -m.get i j).scale d := by
      simp only [Matrix.inverted, rows, reciprocal_unit value unit]
    rw [swapped, Matrix.adjugate_fin_two]
    refine scale (holds_ofFn fun i j => ?_) value unit
    have entries := holds.entries
    fin_cases i <;> fin_cases j <;> simp
    · exact entries 1 1
    · exact (entries 0 1).neg
    · exact (entries 1 0).neg
    · exact entries 0 0
  | n + 2, A =>
    have general : m.inverted d = (ofFn (n + 3) (n + 3) fun i j => m.signedMinor j i).scale d := by
      simp only [Matrix.inverted, rows, reciprocal_unit value unit]
    rw [general]
    refine scale (holds_ofFn fun i j => ?_) value unit
    rw [Matrix.adjugate_fin_succ_eq_det_submatrix]
    exact holds.signedMinor_value j i (cofactors j i)

end HoldsIntegers

/-- Where nothing is rounded, a matrix whose determinant is one or minus one has an inverse on both
sides, and one whose determinant is zero has none. -/
theorem inverse_twoSided {n : ℕ} {m : Matrix} {A : IntegerMatrix (n + 1)} (holds : m.HoldsIntegers A) :
    (ExpandsExactly A → A.det = 0 → m.inverse = .error .singularMatrix) ∧
    (InvertsExactly A → A.det = 1 ∨ A.det = -1 → ∃ inverse first second, m.inverse = .ok inverse ∧
      m.mul inverse = .ok first ∧ first.SameAs (identity (n + 1)) ∧
      inverse.mul m = .ok second ∧ second.SameAs (identity (n + 1))) := by
  have determinant (fits : ExpandsExactly A) : IsRational (expansion m.rows m) A.det := by
    rw [holds.rows]
    exact (holds.expansion_value fits).1
  rw [inverse_square holds.isSquare]
  constructor
  · intro fits singular
    have zero : expansion m.rows m == 0.0 :=
      ((determinant fits).beq_iff .zero).mpr (by exact_mod_cast singular)
    rw [if_pos zero]
  · intro fits unit
    have value := determinant fits.determinant
    have nonzero : ¬ expansion m.rows m == 0.0 := fun zero => by
      have none : A.det = 0 := by exact_mod_cast (value.beq_iff .zero).mp zero
      omega
    have inverted := holds.inverted value unit fits.cofactors
    have invertible : IsUnit A.det := Int.isUnit_iff.mpr unit
    obtain ⟨first, product, same⟩ := holds.mul inverted fits.right
    obtain ⟨second, product', same'⟩ := inverted.mul holds fits.left
    rw [Matrix.mul_nonsing_inv A invertible] at same
    rw [Matrix.nonsing_inv_mul A invertible] at same'
    exact ⟨_, first, second, if_neg nonzero, product, same.sameAs (holds_identity _), product',
      same'.sameAs (holds_identity _)⟩

/-- A matrix that is not symmetric, with a determinant of minus one. -/
def unimodular : Matrix :=
  ofFn 3 3 fun i j => ([[0.0, 1.0, 4.0], [1.0, 2.0, 3.0], [5.0, 6.0, 0.0]].getD i []).getD j 0.0

def progression : Matrix :=
  ofFn 3 3 fun i j => ([[1.0, 2.0, 3.0], [4.0, 5.0, 6.0], [7.0, 8.0, 9.0]].getD i []).getD j 0.0

theorem inverse_twoSided_unimodular : ∃ A B : IntegerMatrix 3,
    progression.HoldsIntegers A ∧ ExpandsExactly A ∧ A.det = 0 ∧
      progression.inverse = .error .singularMatrix ∧
    unimodular.HoldsIntegers B ∧ InvertsExactly B ∧ B.det = -1 ∧
      ∃ inverse first second, unimodular.inverse = .ok inverse ∧
      unimodular.mul inverse = .ok first ∧ first.SameAs (identity 3) ∧
      inverse.mul unimodular = .ok second ∧ second.SameAs (identity 3) := by
  let A : IntegerMatrix 3 := !![1, 2, 3; 4, 5, 6; 7, 8, 9]
  let B : IntegerMatrix 3 := !![0, 1, 4; 1, 2, 3; 5, 6, 0]
  have holds : progression.HoldsIntegers A := ⟨rfl, rfl, by decide +kernel⟩
  have fits : ExpandsExactly A := by decide +kernel
  have singular : A.det = 0 := by decide +kernel
  have holds' : unimodular.HoldsIntegers B := ⟨rfl, rfl, by decide +kernel⟩
  have unit : B.det = -1 := by decide +kernel
  have inverse : B⁻¹ = !![18, -24, 5; -15, 20, -4; 4, -5, 1] := Matrix.inv_eq_right_inv (by decide +kernel)
  have fits' : InvertsExactly B :=
    ⟨by decide +kernel, by decide +kernel, by rw [inverse]; decide +kernel, by rw [inverse]; decide +kernel⟩
  exact ⟨A, B, holds, fits, singular, (inverse_twoSided holds).1 fits singular, holds', fits', unit,
    (inverse_twoSided holds').2 fits' (.inr unit)⟩

end Matrix

end Stepwise
