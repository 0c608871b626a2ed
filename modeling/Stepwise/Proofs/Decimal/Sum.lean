import Stepwise.Proofs.Decimal.Difference
import Stepwise.Proofs.Quantity.Rational

/-! Sums of integers in doubles. The integers may be of any size, as long as each product and each
partial sum is below `2^53`. Main statement: a sum that is taken from left to right is then
exact. -/
namespace Stepwise

open Decimal (IsRational IsWhole)

namespace Decimal.IsRational

variable {x y : Float} {a b : ℤ}

/-- An integer below `2^53` is a whole number, zero with either sign. -/
theorem isWhole_of_exact (value : IsRational x a) (small : Exact a) : IsWhole x a := by
  by_cases none : a = 0
  · subst none
    obtain ⟨s, unpacked⟩ := zero_iff.mp (Int.cast_zero (R := ℚ) ▸ value)
    have same : x = whole s 0 := eq_of_unpack (by rw [unpacked, unpack_whole s (by decide)]; rfl)
    exact ⟨s, 0, by decide, same, by cases s <;> rfl⟩
  · exact value.ofInt_eq none ▸ ofInt_whole small

/-- Neither factor is larger than a product that is not zero. -/
theorem mul_exact (left : IsRational x a) (right : IsRational y b) (small : Exact (a * b)) :
    IsRational (x * y) (a * b : ℤ) := by
  by_cases first : a = 0
  · subst first
    rw [Int.zero_mul, Int.cast_zero]
    exact (Int.cast_zero (R := ℚ) ▸ left).zero_mul right
  by_cases second : b = 0
  · subst second
    rw [Int.mul_zero, Int.cast_zero]
    exact left.mul_zero (Int.cast_zero (R := ℚ) ▸ right)
  have product : a.natAbs * b.natAbs < 2 ^ 53 := by rwa [← Int.natAbs_mul]
  have smalla : Exact a := (Nat.le_mul_of_pos_right _ (Int.natAbs_pos.mpr second)).trans_lt product
  have smallb : Exact b := (Nat.le_mul_of_pos_left _ (Int.natAbs_pos.mpr first)).trans_lt product
  exact ((left.isWhole_of_exact smalla).mul (right.isWhole_of_exact smallb) small).isRational

theorem add_exact (left : IsRational x a) (right : IsRational y b) (first : Exact a) (second : Exact b)
    (small : Exact (a + b)) : IsRational (x + y) (a + b : ℤ) :=
  ((left.isWhole_of_exact first).add (right.isWhole_of_exact second) small).isRational

theorem sub_exact (left : IsRational x a) (right : IsRational y b) (first : Exact a) (second : Exact b)
    (small : Exact (a - b)) : IsRational (x - y) (a - b : ℤ) :=
  ((left.isWhole_of_exact first).sub (right.isWhole_of_exact second) small).isRational

end Decimal.IsRational

/-- The terms that are added to `sum`, and what there is after each of them, are represented without loss. -/
def SumsExactly (sum : ℤ) : List ℤ → Prop
  | [] => True
  | term :: rest => Exact term ∧ Exact (sum + term) ∧ SumsExactly (sum + term) rest

instance decidableSumsExactly : ∀ sum terms, Decidable (SumsExactly sum terms)
  | _, [] => inferInstanceAs (Decidable True)
  | sum, term :: rest =>
    have := decidableSumsExactly (sum + term) rest
    inferInstanceAs (Decidable (Exact term ∧ Exact (sum + term) ∧ SumsExactly (sum + term) rest))

theorem SumsExactly.term {sum term : ℤ} {terms : List ℤ} (fits : SumsExactly sum terms)
    (member : term ∈ terms) : Exact term := by
  induction terms generalizing sum with
  | nil => cases member
  | cons first rest ih =>
    obtain ⟨small, -, later⟩ := fits
    rcases List.mem_cons.mp member with rfl | member
    · exact small
    · exact ih later member

/-- A sum from left to right, one term for each index. -/
theorem foldl_exact {n : ℕ} {f : ℕ → Float}
    {terms : Fin n → ℤ} {x : Float} {sum : ℤ} (start : IsRational x sum) (small : Exact sum)
    (values : ∀ j : Fin n, IsRational (f j) (terms j)) (fits : SumsExactly sum (List.ofFn terms)) :
    IsRational ((List.range n).foldl (fun sum j => sum + f j) x) (sum + ∑ j, terms j : ℤ) ∧
      Exact (sum + ∑ j, terms j) := by
  induction n generalizing f x sum with
  | zero => exact ⟨by simpa using start, by simpa using small⟩
  | succ n ih =>
    rw [List.ofFn_succ] at fits
    obtain ⟨first, next, later⟩ := fits
    have step := start.add_exact (values 0) small first next
    have rest := ih (f := fun j => f (j + 1)) step next (fun j => values j.succ) later
    rwa [List.range_succ_eq_map, List.foldl_cons, List.foldl_map, Fin.sum_univ_succ, ← add_assoc]

end Stepwise
