import Stepwise.Proofs.Decimal.Written

/-! Quotients of doubles. A quotient is rounded once, a product with a rounded reciprocal twice.
Main statement: both are written with the same six places, unless the quotient is as close to the
middle of two such decimals as rounding goes. -/
namespace Stepwise.Decimal

/-- A double within the rounding of two operations. -/
def IsNear (x : Float) (q : ℚ) : Prop := ∃ p, IsRational x p ∧ |p - q| ≤ |q| / 2 ^ 50

/-- The number is farther from the middle of two neighbouring millionths than rounding goes. -/
def IsClear (q : ℚ) : Prop := ∀ k : ℤ, 10 ^ 6 * (|q| / 2 ^ 50) < |q * 10 ^ 6 - (k + 1 / 2)|

section Places

variable {x y : Float} {p q : ℚ}

theorem IsRational.isNear (rational : IsRational x q) : IsNear x q :=
  ⟨q, rational, by rw [sub_self, abs_zero]; positivity⟩

theorem IsClear.magnitude (clear : IsClear q) : IsClear |q| := by
  intro k
  rcases abs_cases q with ⟨same, -⟩ | ⟨same, -⟩
  · rw [same]
    exact same ▸ clear k
  · have turned := clear (-k - 1)
    have distance : |q| * 10 ^ 6 - (k + 1 / 2) = -(q * 10 ^ 6 - ((-k - 1 : ℤ) + 1 / 2)) := by
      rw [same]
      push_cast
      ring
    rwa [distance, abs_neg, abs_abs]

/-- All doubles near a clear number count the same millionths. -/
theorem IsClear.exists_count (clear : IsClear q) :
    ∃ n : ℕ, ∀ p, |p - q| ≤ |q| / 2 ^ 50 → |(n : ℚ) - |p| * (tenTo 6 : ℕ)| < 1 / 2 := by
  have scale : ((tenTo 6 : ℕ) : ℚ) = 10 ^ 6 := by norm_num [tenTo]
  have positive : (0 : ℚ) ≤ |q| * 10 ^ 6 + 1 / 2 := by positivity
  have low := Nat.floor_le positive
  have high := Nat.lt_floor_add_one (|q| * 10 ^ 6 + 1 / 2)
  refine ⟨⌊|q| * 10 ^ 6 + 1 / 2⌋₊, fun p near => ?_⟩
  generalize ⌊|q| * 10 ^ 6 + 1 / 2⌋₊ = n at *
  have above := clear.magnitude n
  have below := clear.magnitude (n - 1)
  have magnitude := (abs_abs_sub_abs_le p q).trans near
  push_cast at above below
  rw [abs_abs] at above below
  rw [scale]
  generalize |q| = t at *
  generalize |p| = s at *
  rw [abs_of_neg (by linarith)] at above
  rw [abs_of_nonneg (by linarith)] at below
  rw [abs_le] at magnitude
  rw [abs_lt]
  constructor <;> linarith

theorem sign_iff (near : |p - q| ≤ |q| / 2 ^ 50) : p < 0 ↔ q < 0 := by
  have magnitude := abs_nonneg q
  rw [abs_le] at near
  rcases abs_cases q with ⟨same, sign⟩ | ⟨same, sign⟩
  · rw [same] at near magnitude
    constructor <;> intro <;> linarith
  · rw [same] at near magnitude
    constructor <;> intro <;> linarith

/-- Doubles near one clear number are written alike. -/
theorem sixPlaces_congr (first : IsNear x q) (second : IsNear y q) (clear : IsClear q) :
    sixPlaces x = sixPlaces y := by
  obtain ⟨n, counts⟩ := clear.exists_count
  have written {x : Float} (near : IsNear x q) :
      sixPlaces x = if q < 0 ∧ n ≠ 0 then "-" ++ millionthsText n else millionthsText n := by
    obtain ⟨p, rational, near⟩ := near
    obtain ⟨b, -, rfl, written⟩ := sixPlaces_eq rational
    rw [written, b.magnitudeTimes_of_near (counts _ near)]
    simp only [sign_iff near]
  rw [written first, written second]

theorem sixPlaces_zero (zero : IsRational x 0) : sixPlaces x = "0" := by
  obtain ⟨b, -, value, written⟩ := sixPlaces_eq zero
  have none : b.magnitudeTimes (tenTo 6) .even = 0 := b.magnitudeTimes_of_near (by rw [value]; norm_num)
  rw [written, none, if_neg (by simp)]
  rfl

end Places

def IsModerate (t : ℚ) : Prop := 1 / 2 ^ 53 ≤ |t| ∧ |t| ≤ 2 ^ 53

theorem isModerate_of_exact {n : ℤ} (nonzero : n ≠ 0) (small : n.natAbs < 2 ^ 53) : IsModerate n := by
  rw [IsModerate, ← Int.cast_abs, Int.abs_eq_natAbs]
  constructor
  · have : (1 : ℚ) ≤ n.natAbs := by exact_mod_cast Int.natAbs_pos.mpr nonzero
    exact le_trans (by norm_num) this
  · exact_mod_cast small.le

theorem IsModerate.neg {t : ℚ} (moderate : IsModerate t) : IsModerate (-t) := by
  rwa [IsModerate, abs_neg]

theorem isModerate_one : IsModerate 1 := by
  rw [IsModerate, abs_one]
  norm_num

section Quotient

variable {x y : Float} {p q t : ℚ}

theorem slack_of_le (low : 1 / 2 ^ 200 ≤ |t|) : slack t = |t| / 2 ^ 52 := by
  refine max_eq_left ?_
  calc (2 : ℚ) ^ (-1074 : Int) ≤ 2 ^ (-252 : Int) := zpow_le_zpow_right₀ (by norm_num) (by norm_num)
    _ = 1 / 2 ^ 200 / 2 ^ 52 := by norm_num
    _ ≤ |t| / 2 ^ 52 := by gcongr

theorem le_top (high : |t| ≤ 2 ^ 200) : |t| ≤ 2 ^ (1023 : Int) :=
  calc |t| ≤ 2 ^ (200 : Int) := high
    _ ≤ 2 ^ (1023 : Int) := zpow_le_zpow_right₀ (by norm_num) (by norm_num)

theorem IsModerate.ne_zero (moderate : IsModerate t) : t ≠ 0 := by
  rintro rfl
  have := moderate.1
  rw [abs_zero] at this
  norm_num at this

theorem IsModerate.div_bounds (first : IsModerate p) (second : IsModerate q) :
    1 / 2 ^ 106 ≤ |p / q| ∧ |p / q| ≤ 2 ^ 106 := by
  obtain ⟨low, high⟩ := first
  obtain ⟨low', high'⟩ := second
  have positive : 0 < |q| := lt_of_lt_of_le (by norm_num) low'
  rw [abs_div, le_div_iff₀ positive, div_le_iff₀ positive]
  constructor <;> linarith

/-- A quotient is rounded once. -/
theorem IsRational.div_isNear (first : IsRational x p) (second : IsRational y q)
    (moderate : p = 0 ∨ IsModerate p) (divisor : IsModerate q) : IsNear (x / y) (p / q) := by
  rcases moderate with rfl | moderate
  · have none : 0 / q = 0 := by simp
    rw [none]
    exact (first.zero_div second divisor.ne_zero).isNear
  · obtain ⟨low, high⟩ := moderate.div_bounds divisor
    obtain ⟨r, rational, near⟩ := first.div_near second divisor.ne_zero (le_top (high.trans (by norm_num)))
    rw [slack_of_le (le_trans (by norm_num) low)] at near
    exact ⟨r, rational, near.trans (by gcongr <;> norm_num)⟩

/-- A product with a reciprocal is rounded twice. -/
theorem IsRational.mul_reciprocal_isNear (first : IsRational x p) (second : IsRational y q)
    (moderate : p = 0 ∨ IsModerate p) (divisor : IsModerate q) : IsNear (x * (1.0 / y)) (p / q) := by
  obtain ⟨low, high⟩ := isModerate_one.div_bounds divisor
  obtain ⟨r, reciprocal, near⟩ :=
    IsRational.one.div_near second divisor.ne_zero (le_top (high.trans (by norm_num)))
  rw [slack_of_le (le_trans (by norm_num) low)] at near
  rcases moderate with rfl | moderate
  · have none : 0 / q = 0 := by simp
    rw [none]
    exact (first.zero_mul reciprocal).isNear
  · obtain ⟨above, below⟩ := moderate.div_bounds divisor
    have scaled : |p * r - p / q| ≤ |p / q| / 2 ^ 52 :=
      calc |p * r - p / q| = |p| * |r - 1 / q| := by rw [← abs_mul]; ring_nf
        _ ≤ |p| * (|1 / q| / 2 ^ 52) := by gcongr
        _ = |p / q| / 2 ^ 52 := by rw [← mul_div_assoc, ← abs_mul, mul_one_div]
    have bounds : |p * r| ≤ 2 * |p / q| ∧ |p / q| ≤ 2 * |p * r| := by
      have := abs_le.mp ((abs_abs_sub_abs_le (p * r) (p / q)).trans scaled)
      generalize |p / q| = t at *
      constructor <;> linarith
    obtain ⟨s, product, close⟩ := first.mul_near reciprocal (le_top (bounds.1.trans (by linarith)))
    rw [slack_of_le (by linarith)] at close
    refine ⟨s, product, ?_⟩
    have := (abs_sub_le s (p * r) (p / q)).trans (add_le_add close scaled)
    linarith

/-- A fraction of small numbers is clear unless it is itself in the middle of two millionths. -/
theorem isClear_div {m n : ℤ} (nonzero : n ≠ 0) (small : 10 ^ 6 * m.natAbs < 2 ^ 49)
    (apart : ∀ k : ℤ, 2 * 10 ^ 6 * m ≠ (2 * k + 1) * n) : IsClear (m / n) := by
  intro k
  have divisor : (0 : ℚ) < |(n : ℚ)| := abs_pos.mpr (by exact_mod_cast nonzero)
  have distance : (m / n * 10 ^ 6 - (k + 1 / 2) : ℚ) = (2 * 10 ^ 6 * m - (2 * k + 1) * n : ℤ) / n / 2 := by
    have : (n : ℚ) ≠ 0 := by exact_mod_cast nonzero
    push_cast
    field_simp
    ring
  have whole : (1 : ℚ) ≤ |((2 * 10 ^ 6 * m - (2 * k + 1) * n : ℤ) : ℚ)| := by
    rw [← Int.cast_abs]
    exact_mod_cast Int.one_le_abs (sub_ne_zero.mpr (apart k))
  have magnitude : (10 ^ 6 * |(m : ℚ)|) < 2 ^ 49 := by
    rw [← Int.cast_abs, Int.abs_eq_natAbs]
    exact_mod_cast small
  rw [distance, abs_div, abs_div, abs_div, abs_two, div_div |((2 * 10 ^ 6 * m - (2 * k + 1) * n : ℤ) : ℚ)|,
    lt_div_iff₀ (by positivity)]
  calc 10 ^ 6 * (|(m : ℚ)| / |(n : ℚ)| / 2 ^ 50) * (|(n : ℚ)| * 2) = 10 ^ 6 * |(m : ℚ)| / 2 ^ 49 := by
        field_simp
    _ < 1 := by rwa [div_lt_one (by positivity)]
    _ ≤ _ := whole

end Quotient

end Stepwise.Decimal
