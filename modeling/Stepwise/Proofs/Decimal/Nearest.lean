import Stepwise.Proofs.Decimal.Rounding

/-! How near rounding stays. A product or a quotient that is not too large is a finite double, and
it is off by at most one place. A quotient, and a decimal that is read, goes to the closest double
and is off by half a place at most. A number that fits the mantissa is not changed at all. -/
namespace Stepwise.Decimal

open Float.Model UnpackedFloat

def slack (t : ℚ) : ℚ := max (|t| / 2 ^ 52) (2 ^ (-1074 : Int))

theorem pow_place_le {m : Nat} {e : Int} (fine : e ≤ place m e) {t : ℚ} (low : m * 2 ^ e ≤ |t|) :
    (2 : ℚ) ^ place m e ≤ slack t := by
  by_cases normal : place m e = -1074
  · rw [normal]
    exact le_max_right _ _
  · have nonzero : m ≠ 0 := fun zero => by
      subst zero
      unfold place at fine normal
      rw [Nat.log2_zero] at fine normal
      omega
    have exponent : place m e = m.log2 + e - 52 := by
      unfold place at normal ⊢
      omega
    refine le_trans ?_ (le_max_left _ _)
    rw [le_div_iff₀ (by positivity), exponent]
    calc (2 : ℚ) ^ ((m.log2 : Int) + e - 52) * 2 ^ 52 = 2 ^ m.log2 * 2 ^ e := by
          rw [← zpow_natCast (2 : ℚ) 52, ← zpow_natCast (2 : ℚ) m.log2, ← zpow_add₀ (by norm_num),
            ← zpow_add₀ (by norm_num)]
          congr 1
          push_cast
          ring
      _ ≤ m * 2 ^ e := by
          gcongr
          exact_mod_cast Nat.log2_self_le nonzero
      _ ≤ |t| := low

/-- What does not overflow is packed as it is. -/
theorem Canonical.regular_of_lt {u : UnpackedFloat} (canonical : Canonical u) {v : ℚ}
    (value : dyadic? u = some v) (small : |v| < 2 ^ (1024 : Int)) : Regular u := by
  cases u with
  | notANumber => trivial
  | infinity s => trivial
  | zero s => trivial
  | finite s m e positive =>
    obtain ⟨short, low, full⟩ := canonical
    refine ⟨short, low, ?_, full⟩
    obtain rfl := Option.some.inj value
    rw [abs_spelled] at small
    rcases full with full | least
    · by_contra high
      have : (2 : ℚ) ^ (1024 : Int) ≤ m * 2 ^ e := by
        calc (2 : ℚ) ^ (1024 : Int)
          _ = 2 ^ (52 : Int) * 2 ^ (972 : Int) := by rw [← zpow_add₀ (by norm_num)]; rfl
          _ ≤ m * 2 ^ e := by
            gcongr
            · exact_mod_cast full
            · norm_num
            · omega
      exact absurd small (not_lt.mpr this)
    · omega

/-- Rounding goes to one of the two numbers next to the exact one. -/
theorem Rounds.near {z : Float} {t : ℚ} (rounds : Rounds z t) (small : |t| ≤ 2 ^ (1023 : Int)) :
    ∃ r, IsRational z r ∧ |r - t| ≤ slack t := by
  obtain ⟨s, m, e, accuracy, rfl, fine, low, high, sign⟩ := rounds
  obtain ⟨r, above, below, -, canonical, value⟩ := roundWithAccuracy_value s accuracy fine
  have place_le := pow_place_le fine low
  have amount : e + ((place m e - e).toNat : Int) = place m e := by omega
  have whole := Nat.div_mul_le_self m (2 ^ (place m e - e).toNat)
  have part : m + 1 ≤ (m / 2 ^ (place m e - e).toNat + 1) * 2 ^ (place m e - e).toNat :=
    (Nat.div_lt_iff_lt_mul (Nat.two_pow_pos _)).mp (Nat.lt_succ_self _)
  generalize place m e = p at *
  generalize m / 2 ^ (p - e).toNat = n at *
  generalize (p - e).toNat = k at *
  have power : (0 : ℚ) < 2 ^ p := by positivity
  have split : (2 : ℚ) ^ p = 2 ^ k * 2 ^ e := by
    rw [← amount, zpow_add₀ (by norm_num), zpow_natCast, mul_comm]
  have least : n * (2 : ℚ) ^ p ≤ |t| := by
    calc n * (2 : ℚ) ^ p = (n * 2 ^ k : ℚ) * 2 ^ e := by rw [split]; ring
      _ ≤ m * 2 ^ e := by gcongr; exact_mod_cast whole
      _ ≤ |t| := low
  have most : |t| < (n + 1) * (2 : ℚ) ^ p := by
    calc |t| < (m + 1) * 2 ^ e := high
      _ ≤ ((n + 1) * 2 ^ k : ℚ) * 2 ^ e := by gcongr; exact_mod_cast part
      _ = (n + 1) * (2 : ℚ) ^ p := by rw [split]; ring
  have above : (n : ℚ) * 2 ^ p ≤ r * 2 ^ p := by gcongr
  have below : (r : ℚ) * 2 ^ p ≤ (n + 1) * 2 ^ p := by
    gcongr
    exact_mod_cast below
  have near : |(r : ℚ) * 2 ^ p - abs t| ≤ 2 ^ p := by
    rw [abs_le]
    constructor <;> linarith
  have error : ((s.apply r : Int) : ℚ) * 2 ^ p - t = (s.apply 1 : Int) * (r * 2 ^ p - |t|) := by
    rw [apply_eq]
    nth_rewrite 1 [sign]
    push_cast
    ring
  have bounded : |((s.apply r : Int) : ℚ) * 2 ^ p| < 2 ^ (1024 : Int) := by
    have power_small : (2 : ℚ) ^ p ≤ 2 ^ (1022 : Int) := by
      refine place_le.trans (max_le ?_ (zpow_le_zpow_right₀ (by norm_num) (by norm_num)))
      rw [div_le_iff₀ (by positivity)]
      calc |t| ≤ 2 ^ (1022 : Int) * 2 := small.trans_eq (zpow_add_one₀ (by norm_num) 1022)
        _ ≤ 2 ^ (1022 : Int) * 2 ^ 52 := by gcongr; norm_num
    rw [abs_spelled]
    calc (r : ℚ) * 2 ^ p ≤ (n + 1) * 2 ^ p := below
      _ = n * 2 ^ p + 2 ^ p := by ring
      _ ≤ 2 ^ (1023 : Int) + 2 ^ (1022 : Int) := add_le_add (least.trans small) power_small
      _ < 2 ^ (1023 : Int) + 2 ^ (1023 : Int) :=
        add_lt_add_of_le_of_lt le_rfl (zpow_lt_zpow_right₀ (by norm_num) (by norm_num))
      _ = 2 ^ (1024 : Int) := by rw [← mul_two]; exact (zpow_add_one₀ (by norm_num) 1023).symm
  refine ⟨_, .pack (canonical.regular_of_lt value bounded) value, ?_⟩
  have unit : |((s.apply 1 : Int) : ℚ)| = 1 := by cases s <;> simp [Sign.apply]
  rw [error, abs_mul, unit, one_mul]
  exact near.trans place_le

theorem zero_slack (t : ℚ) : 0 ≤ slack t := le_max_of_le_right (by positivity)

/-- A multiple of the last place that a number has in a double, half a place away from it at most. -/
def IsClosest (t r : ℚ) : Prop :=
  ∃ n p : ℤ, r = n * 2 ^ p ∧ |r - t| ≤ 2 ^ p / 2 ∧ (2 ^ 52 * 2 ^ p ≤ |t| ∨ p = -1074)

theorem IsClosest.near {t r : ℚ} (closest : IsClosest t r) : |r - t| ≤ slack t := by
  obtain ⟨-, p, -, near, full⟩ := closest
  have unit : (2 : ℚ) ^ p ≤ slack t := by
    rcases full with full | least
    · exact le_max_of_le_left ((le_div_iff₀ (by positivity)).mpr (mul_comm (2 ^ 52 : ℚ) _ ▸ full))
    · exact le_max_of_le_right (le_of_eq (least ▸ rfl))
  have positive : (0 : ℚ) < 2 ^ p := by positivity
  linarith

theorem isClosest_whole (n : ℕ) : IsClosest n n := by
  obtain ⟨k, last⟩ : ∃ k, k = 1074 := ⟨_, rfl⟩
  refine ⟨n * 2 ^ k, -(k : ℤ), ?_, by rw [sub_self, abs_zero]; positivity, .inr (by omega)⟩
  rw [zpow_neg, zpow_natCast]
  push_cast
  rw [mul_assoc, mul_inv_cancel₀ (by positivity), mul_one]

/-- Rounding that knows what lies beyond the mantissa goes to the closest double. -/
theorem RoundsClosely.closest {z : Float} {t : ℚ} (closely : RoundsClosely z t)
    (small : |t| ≤ 2 ^ (1023 : Int)) :
    ∃ r, IsRational z r ∧ IsClosest t r := by
  obtain ⟨q, value, -⟩ := closely.rounds.near small
  obtain ⟨s, m, e, accuracy, u, rfl, fine, describes, rfl⟩ := closely
  obtain ⟨canonical, spelled⟩ := roundWithAccuracy_placed s accuracy fine
  refine ⟨_, .pack (canonical.regular value.isFinite) spelled,
    s.apply (placed m e accuracy).roundedMantissa, place m e, rfl, ?_⟩
  have shifted : Describes (placed m e accuracy) (u / 2 ^ (place m e - e).toNat) := describes.shiftRight _
  have amount : e + ((place m e - e).toNat : Int) = place m e := by omega
  obtain ⟨-, full⟩ := shifted_bounds fine
  have least := shifted.bounds.1
  have near := shifted.rounded_near
  rw [mantissa_placed] at least
  generalize (placed m e accuracy).roundedMantissa = rounded at near ⊢
  generalize m / 2 ^ (place m e - e).toNat = cut at full least
  generalize (place m e - e).toNat = k at amount near least
  generalize place m e = p at amount full ⊢
  have scaled : u * 2 ^ e = u / 2 ^ k * 2 ^ p := by
    rw [← amount, zpow_add₀ (by norm_num), zpow_natCast]
    field_simp
  rw [scaled]
  generalize u / 2 ^ k = v at near least ⊢
  have positive : (0 : ℚ) < 2 ^ p := by positivity
  have unit : |((s.apply 1 : Int) : ℚ)| = 1 := by cases s <;> simp [Sign.apply]
  have above : 0 ≤ v := (Nat.cast_nonneg cut).trans least
  constructor
  · have error : ((s.apply rounded : Int) : ℚ) * 2 ^ p - (s.apply 1 : Int) * (v * 2 ^ p) =
        (s.apply 1 : Int) * ((rounded - v) * 2 ^ p) := by
      rw [apply_eq]
      push_cast
      ring
    rw [error, abs_mul, unit, one_mul, abs_mul, abs_of_pos positive, div_eq_inv_mul, ← one_div]
    gcongr
  · refine full.imp (fun full => ?_) And.left
    rw [abs_mul, unit, one_mul, abs_of_nonneg (mul_nonneg above positive.le)]
    have full : (2 ^ 52 : ℚ) ≤ cut := by exact_mod_cast full
    gcongr
    exact full.trans least

namespace IsRational

variable {x y : Float} {p q : ℚ}

theorem mul_near (left : IsRational x p) (right : IsRational y q) (small : |p * q| ≤ 2 ^ (1023 : Int)) :
    ∃ r, IsRational (x * y) r ∧ |r - p * q| ≤ slack (p * q) := by
  by_cases zero : p * q = 0
  · refine ⟨0, ?_, by simpa [zero] using zero_slack 0⟩
    rcases mul_eq_zero.mp zero with rfl | rfl
    · exact left.zero_mul right
    · exact left.mul_zero right
  · exact (left.mul_rounds right zero).near small

theorem zero_div (zero : IsRational x 0) (right : IsRational y q) (nonzero : q ≠ 0) :
    IsRational (x / y) 0 := by
  obtain ⟨s, unpacked⟩ := zero_iff.mp zero
  obtain ⟨t, n, f, positive, unpacked', -⟩ := right.unpack_of_ne_zero nonzero
  have quotient : x / y =
    .ofModel (.pack (UnpackedFloat.div Format.binary64 x.toModel.unpack y.toModel.unpack)) := rfl
  rw [quotient, unpacked, unpacked']
  exact .pack trivial rfl

theorem div_closest (left : IsRational x p) (right : IsRational y q) (nonzero : q ≠ 0)
    (small : |p / q| ≤ 2 ^ (1023 : Int)) :
    ∃ r, IsRational (x / y) r ∧ IsClosest (p / q) r := by
  by_cases zero : p = 0
  · subst zero
    exact ⟨0, left.zero_div right nonzero, by simpa using isClosest_whole 0⟩
  · exact (left.div_closely right (div_ne_zero zero nonzero)).closest small

theorem div_near (left : IsRational x p) (right : IsRational y q) (nonzero : q ≠ 0)
    (small : |p / q| ≤ 2 ^ (1023 : Int)) :
    ∃ r, IsRational (x / y) r ∧ |r - p / q| ≤ slack (p / q) := by
  obtain ⟨r, value, closest⟩ := left.div_closest right nonzero small
  exact ⟨r, value, closest.near⟩

end IsRational

section Scientific

variable {m : Nat}

theorem ofScientific_large (large : 2 ^ 53 ≤ m) :
    Float.ofScientific m false 0 =
      .ofModel (.pack (roundWithAccuracy Format.binary64 .positive (m * 2 ^ 53) (-53) .exact)) := by
  have nonzero : m ≠ 0 := by omega
  have slow : ¬ (m < 2 ^ 53 ∧ 0 ≤ 22) := by omega
  have power : (0 : Int) < 2 ^ Format.binary64.exponentBits := by positivity
  have low : ¬ (0 : Int) < -((2 ^ Format.binary64.exponentBits : Int) + m.log2) := by omega
  have high : ¬ (0 : Int) > 2 ^ Format.binary64.exponentBits := by omega
  rw [Float.ofScientific, dif_neg slow]
  simp only [Bool.false_eq_true, if_false]
  change Float.ofModel (.pack (UnpackedFloat.ofScientific Format.binary64 m 0)) = _
  simp only [UnpackedFloat.ofScientific, nonzero, dif_neg, not_false_eq_true, high, low, if_false,
    le_refl, if_true]
  have mantissa : m <<< Format.binary64.mantissaBits * 10 ^ (0 : Int).toNat = m * 2 ^ 53 := by
    rw [Nat.shiftLeft_eq]
    exact Nat.mul_one _
  rw [← mantissa]
  rfl

/-- Whole numbers beyond the mantissa are rounded. -/
theorem closely_ofScientific (large : 2 ^ 53 ≤ m) : RoundsClosely (Float.ofScientific m false 0) m := by
  refine ⟨.positive, m * 2 ^ 53, -53, .exact, _, ofScientific_large large,
    le_place (.inl (by omega)), describes_exact _, ?_⟩
  simp only [Sign.apply]
  push_cast
  field_simp
  norm_num

/-- A decimal with more digits than the mantissa holds is rounded. -/
theorem closely_ofScientific_point {k : Nat} (positive : 0 < m) (pointed : 0 < k) (few : k ≤ 22)
    (large : 2 ^ 53 ≤ m) :
    RoundsClosely (Float.ofScientific m true k) (m / 10 ^ k) := by
  have nonzero : m ≠ 0 := by omega
  have slow : ¬ (m < 2 ^ 53 ∧ k ≤ 22) := by omega
  have model : Float.ofScientific m true k = .ofModel (.pack (UnpackedFloat.div Format.binary64
      (.finite .positive m 0 positive) (.finite .positive (10 ^ k) 0 (by positivity)))) := by
    have exponent : Int.negOfNat k = -(k : Int) := by cases k <;> rfl
    have low : ¬ -(k : Int) < -((2 ^ Format.binary64.exponentBits : Int) + m.log2) := by
      have : (2 : Int) ^ Format.binary64.exponentBits = 2048 := rfl
      omega
    have high : ¬ -(k : Int) > 2 ^ Format.binary64.exponentBits := by
      have : (0 : Int) < 2 ^ Format.binary64.exponentBits := by positivity
      omega
    have negative : ¬ (0 : Int) ≤ -(k : Int) := by omega
    rw [Float.ofScientific, dif_neg slow]
    simp only [if_true, exponent]
    change Float.ofModel (.pack (UnpackedFloat.ofScientific Format.binary64 m (-(k : Int)))) = _
    simp only [UnpackedFloat.ofScientific, nonzero, dif_neg, not_false_eq_true, high, low, negative,
      if_false, neg_neg, Int.toNat_natCast]
  have closely := closely_div (e := 0) (f := 0) .positive .positive positive (n := 10 ^ k) (by positivity)
  have value : ((Sign.positive.apply 1 : Int) : ℚ) * (m * 2 ^ (0 : Int)) /
      ((Sign.positive.apply 1 : Int) * ((10 ^ k : Nat) * 2 ^ (0 : Int))) = m / 10 ^ k := by
    simp [Sign.apply]
  rw [value] at closely
  rwa [model]

theorem ofScientific_closest (small : (m : ℚ) ≤ 2 ^ (1023 : Int)) :
    ∃ r, IsRational (Float.ofScientific m false 0) r ∧ IsClosest m r := by
  by_cases short : m < 2 ^ 53
  · have magnitude : IsWhole (whole .positive m) m := ⟨.positive, m, short, rfl, rfl⟩
    exact ⟨m, ofScientific_whole short ▸ by simpa using magnitude.isRational, isClosest_whole m⟩
  · exact (closely_ofScientific (by omega)).closest ((Nat.abs_cast m).trans_le small)

theorem ofScientific_near (small : (m : ℚ) ≤ 2 ^ (1023 : Int)) :
    ∃ r, IsRational (Float.ofScientific m false 0) r ∧ |r - m| ≤ slack m := by
  obtain ⟨r, value, closest⟩ := ofScientific_closest small
  exact ⟨r, value, closest.near⟩

theorem isRational_powerOfTen : ∀ k : Fin Float.exactlyRepresentablePowersOfTen.size,
    IsRational Float.exactlyRepresentablePowersOfTen[k] (10 ^ k.val) := by
  decide +kernel

theorem ofScientific_point_closest {k : Nat} (pointed : 0 < k) (few : k ≤ 22)
    (small : (m : ℚ) / 10 ^ k ≤ 2 ^ (1023 : Int)) :
    ∃ r, IsRational (Float.ofScientific m true k) r ∧ IsClosest (m / 10 ^ k) r := by
  have magnitude : |(m : ℚ) / 10 ^ k| = m / 10 ^ k :=
    abs_of_nonneg (div_nonneg (Nat.cast_nonneg m) (pow_nonneg (by norm_num) k))
  by_cases short : m < 2 ^ 53
  · have mantissa : IsRational m.toUInt64.toFloat m := by
      have magnitude : IsWhole (whole .positive m) m := ⟨.positive, m, short, rfl, rfl⟩
      rw [toFloat_whole short]
      simpa using magnitude.isRational
    have power := isRational_powerOfTen ⟨k, Nat.lt_succ_of_le few⟩
    rw [Float.ofScientific, dif_pos ⟨short, few⟩]
    exact mantissa.div_closest power (by positivity) (magnitude.trans_le small)
  · exact (closely_ofScientific_point (by omega) pointed few (by omega)).closest (magnitude.trans_le small)

/-- A number that fits the mantissa is read as it is. -/
theorem isRational_ofScientific {q : Nat} (mantissa : m < 2 ^ 53) (low : q ≤ 971) :
    IsRational (Float.ofScientific (m * 2 ^ q) false 0) (m * 2 ^ q) := by
  by_cases small : m * 2 ^ q < 2 ^ 53
  · rw [ofScientific_whole small]
    simpa [Sign.apply] using (isWhole_whole (s := .positive) small).isRational
  · have large : 2 ^ 53 ≤ m * 2 ^ q := by omega
    have nonzero : m * 2 ^ q ≠ 0 := by omega
    have positive : 0 < m := Nat.pos_of_ne_zero fun zero => by simp [zero] at nonzero
    -- the number has a full mantissa at a place below `q`
    have bits := log2_mul_pow positive q
    have short := log2_lt_of_lt positive mantissa
    have full : 53 ≤ (m * 2 ^ q).log2 := (Nat.le_log2 nonzero).mpr large
    have there : place (m * 2 ^ q * 2 ^ 53) (-53) = (m * 2 ^ q).log2 - 52 := by
      unfold place
      rw [log2_mul_pow (by omega)]
      omega
    have fine : (-53 : Int) ≤ place (m * 2 ^ q * 2 ^ 53) (-53) := by omega
    obtain ⟨r, -, -, kept, canonical, value⟩ := roundWithAccuracy_value .positive .exact fine
    have amount : (place (m * 2 ^ q * 2 ^ 53) (-53) - -53).toNat = (m * 2 ^ q).log2 - 52 + 53 := by omega
    have divides : 2 ^ ((m * 2 ^ q).log2 - 52 + 53) ∣ m * 2 ^ q * 2 ^ 53 := by
      rw [Nat.pow_add]
      exact Nat.mul_dvd_mul_right (Dvd.dvd.mul_left (Nat.pow_dvd_pow 2 (by omega)) m) _
    rw [amount] at kept
    obtain ⟨n, product⟩ := divides
    have same := kept rfl ⟨n, product⟩
    rw [product, Nat.mul_div_cancel_left _ (Nat.two_pow_pos _)] at same
    subst same
    have magnitude : ((Sign.positive.apply (r : Int) : Int) : ℚ) * 2 ^ place (m * 2 ^ q * 2 ^ 53)
        (-53) = m * 2 ^ q := by
      have exponent : ((m * 2 ^ q).log2 : Int) - 52 = ((m * 2 ^ q).log2 - 52 : Nat) := by omega
      have whole : r * 2 ^ ((m * 2 ^ q).log2 - 52) = m * 2 ^ q := by
        rw [Nat.pow_add] at product
        refine Nat.eq_of_mul_eq_mul_right (Nat.two_pow_pos 53) ?_
        rw [product]
        ring
      rw [there, exponent, zpow_natCast, Sign.apply]
      exact_mod_cast whole
    rw [magnitude] at value
    refine ofScientific_large large ▸ IsRational.pack (canonical.regular_of_lt value ?_) value
    rw [abs_of_nonneg (by positivity)]
    calc (m : ℚ) * 2 ^ q < 2 ^ 53 * 2 ^ q := by gcongr; exact_mod_cast mantissa
      _ ≤ 2 ^ 53 * 2 ^ 971 := mul_le_mul_of_nonneg_left (pow_le_pow_right₀ (by norm_num) low) (by norm_num)
      _ = 2 ^ (1024 : Int) := by
        rw [← pow_add]
        exact (zpow_natCast 2 1024).symm

end Scientific

end Stepwise.Decimal
