import Mathlib

/-! Mantissas and what was shifted out of them. Two bits are kept of it, which tell on which side of
the middle the exact number lies. Main statement: a mantissa that is rounded by these bits is off by
one half at most. -/
namespace Stepwise.Decimal

open Float.Model UnpackedFloat

def half (bit : Bool) : ℚ := if bit then 1 / 2 else 0

@[simp] theorem half_true : half true = 1 / 2 := rfl
@[simp] theorem half_false : half false = 0 := rfl

/-- The number that an extended mantissa was cut off from: the round bit tells whether it has
reached the middle, and the sticky bit whether there is anything beyond that. -/
structure Describes (em : ExtendedMantissa) (u : ℚ) : Prop where
  low : em.mantissa + half em.roundBit ≤ u
  high : u < em.mantissa + half em.roundBit + 1 / 2
  exact_iff : em.stickyBit = false ↔ u = em.mantissa + half em.roundBit

variable {em : ExtendedMantissa} {u : ℚ}

theorem Describes.shiftRightOne (describes : Describes em u) : Describes em.shiftRightOne (u / 2) := by
  obtain ⟨m, round, sticky⟩ := em
  obtain ⟨low, high, exact_iff⟩ := describes
  have split : (m : ℚ) / 2 = (m / 2 : Nat) + half (m % 2 != 0) := by
    have parts : (m : ℚ) = 2 * (m / 2 : Nat) + (m % 2 : Nat) := by exact_mod_cast (Nat.div_add_mod m 2).symm
    rcases Nat.mod_two_eq_zero_or_one m with even | odd
    · rw [parts, even]
      simp
    · rw [parts, odd]
      simp
      ring
  have bit : (0 : ℚ) ≤ half round ∧ half round ≤ 1 / 2 := by cases round <;> norm_num
  simp only at low high exact_iff
  refine ⟨?_, ?_, ?_⟩ <;> simp only [ExtendedMantissa.shiftRightOne, ← split]
  · linarith
  · linarith
  · rw [Bool.or_eq_false_iff, exact_iff]
    constructor
    · rintro ⟨rfl, same⟩
      rw [same, half_false, add_zero]
    · intro same
      cases round
      · exact ⟨rfl, by rw [half_false]; linarith⟩
      · rw [half_true] at low
        linarith

theorem Describes.shiftRight (describes : Describes em u) (k : Nat) : Describes (em >>> k) (u / 2 ^ k) := by
  change Describes (Nat.repeat ExtendedMantissa.shiftRightOne k em) _
  induction k with
  | zero => simpa [Nat.repeat] using describes
  | succ k ih =>
    rw [pow_succ, ← div_div]
    exact ih.shiftRightOne

theorem Describes.bounds (describes : Describes em u) : em.mantissa ≤ u ∧ u < em.mantissa + 1 := by
  obtain ⟨low, high, -⟩ := describes
  cases bit : em.roundBit <;> simp only [bit, half_true, half_false] at low high <;> constructor <;> linarith

/-- The rounded mantissa is off by one half at most. -/
theorem Describes.rounded_near (describes : Describes em u) : |(em.roundedMantissa : ℚ) - u| ≤ 1 / 2 := by
  obtain ⟨m, round, sticky⟩ := em
  obtain ⟨low, high, exact_iff⟩ := describes
  have even := Nat.mod_lt m Nat.two_pos
  have bit : ((m % 2 : Nat) : ℚ) ≤ 1 := by exact_mod_cast (by omega : m % 2 ≤ 1)
  have bit' : (0 : ℚ) ≤ (m % 2 : Nat) := Nat.cast_nonneg _
  rw [abs_le]
  cases round <;> cases sticky <;>
    simp only [ExtendedMantissa.roundedMantissa, ExtendedMantissa.accuracy,
      Accuracy.roundToNearestEven, half_true, half_false, Nat.cast_add, Nat.cast_one, reduceCtorEq,
      true_iff] at low high exact_iff ⊢ <;>
    constructor <;> linarith

theorem describes_exact (m : Nat) : Describes (.ofMantissaAndAccuracy m .exact) m := by
  constructor <;> simp [ExtendedMantissa.ofMantissaAndAccuracy, half]

/-- A division keeps what it leaves over. -/
theorem describes_fraction (m : Nat) {n : Nat} (positive : 0 < n) :
    Describes (.ofMantissaAndAccuracy (m / n) (accuracyOfFraction (m % n) n)) (m / n) := by
  have divisor : (0 : ℚ) < n := by exact_mod_cast positive
  have split : (m : ℚ) / n = (m / n : Nat) + (m % n : Nat) / n := by
    have parts : (m : ℚ) = n * (m / n : Nat) + (m % n : Nat) := by exact_mod_cast (Nat.div_add_mod m n).symm
    conv_lhs => rw [parts]
    field_simp
  have less := Nat.mod_lt m positive
  rw [split]
  unfold accuracyOfFraction
  generalize m / n = quotient
  generalize m % n = rest at less
  split
  · next none =>
    rw [none, Nat.cast_zero, zero_div, add_zero]
    exact describes_exact quotient
  · next nonzero =>
    have above : (0 : ℚ) < rest / n := div_pos (by exact_mod_cast Nat.pos_of_ne_zero nonzero) divisor
    have below : (rest : ℚ) / n < 1 := (div_lt_one divisor).mpr (by exact_mod_cast less)
    cases order : compare (2 * rest) n with
    | lt =>
      have middle : (rest : ℚ) / n < 1 / 2 := by
        rw [div_lt_div_iff₀ divisor (by norm_num)]
        exact_mod_cast (by have := Nat.compare_eq_lt.mp order; omega : rest * 2 < 1 * n)
      constructor <;> simp only [ExtendedMantissa.ofMantissaAndAccuracy, half_false, reduceCtorEq, false_iff]
      all_goals grind
    | eq =>
      have middle : (rest : ℚ) / n = 1 / 2 := by
        rw [div_eq_div_iff divisor.ne' (by norm_num)]
        exact_mod_cast (by have := Nat.compare_eq_eq.mp order; omega : rest * 2 = 1 * n)
      constructor <;> simp [ExtendedMantissa.ofMantissaAndAccuracy, middle]
    | gt =>
      have middle : 1 / 2 < (rest : ℚ) / n := by
        rw [div_lt_div_iff₀ (by norm_num) divisor]
        exact_mod_cast (by have := Nat.compare_eq_gt.mp order; omega : 1 * n < rest * 2)
      constructor <;> simp only [ExtendedMantissa.ofMantissaAndAccuracy, half_true, reduceCtorEq, false_iff]
      all_goals grind

end Stepwise.Decimal
