import Stepwise.Proofs.Decimal.Extended
import Stepwise.Proofs.Decimal.Value

/-! How far rounding takes a product or a quotient. A result that is neither too small nor too large
for a double is at least half of the exact one. No operation leads back from an infinity or NaN. -/
namespace Stepwise.Decimal

open Float.Model UnpackedFloat

/-- The exponent that rounding goes for. -/
def place (m : Nat) (e : Int) : Int := max (m.log2 + e - 52) (-1074)

theorem targetExponent_place (m : Nat) (e : Int) :
    Format.binary64.targetExponent (totalExponent m e) = place m e := by
  simp only [Format.targetExponent, totalExponent, place, Format.mantissaBits, Format.minExponent]
  congr 1
  omega

theorem mantissa_shiftRight (k : Nat) (em : ExtendedMantissa) :
    (em >>> k).mantissa = em.mantissa / 2 ^ k := by
  change (Nat.repeat ExtendedMantissa.shiftRightOne k em).mantissa = _
  induction k with
  | zero => simp [Nat.repeat]
  | succ k ih => simp [Nat.repeat, ExtendedMantissa.shiftRightOne, ih, Nat.div_div_eq_div_mul, Nat.pow_succ]

theorem mantissa_ofMantissaAndAccuracy (m : Nat) (accuracy : Accuracy) :
    (ExtendedMantissa.ofMantissaAndAccuracy m accuracy).mantissa = m := by
  cases accuracy with
  | exact => rfl
  | inexact order => cases order <;> rfl

theorem roundedMantissa_bounds (em : ExtendedMantissa) :
    em.mantissa ≤ em.roundedMantissa ∧ em.roundedMantissa ≤ em.mantissa + 1 := by
  unfold ExtendedMantissa.roundedMantissa
  cases em.accuracy with
  | exact => exact ⟨Nat.le_refl _, Nat.le_succ _⟩
  | inexact order => cases order <;> simp [Accuracy.roundToNearestEven]; omega

/-- What rounding leaves, before it is checked for overflow. -/
def Canonical : UnpackedFloat → Prop
  | .finite _ m e _ => m < 2 ^ 53 ∧ -1074 ≤ e ∧ (2 ^ 52 ≤ m ∨ e = -1074)
  | .zero _ => True
  | .infinity _ | .notANumber => False

/-- A mantissa in its place is within its bounds. -/
theorem shifted_bounds {m : Nat} {e : Int} (fine : e ≤ place m e) :
    m / 2 ^ (place m e - e).toNat < 2 ^ 53 ∧
      (2 ^ 52 ≤ m / 2 ^ (place m e - e).toNat ∨ place m e = -1074 ∧
      m / 2 ^ (place m e - e).toNat < 2 ^ 52) := by
  by_cases none : m = 0
  · subst none
    have least : place 0 e = -1074 := by
      unfold place at fine ⊢
      rw [Nat.log2_zero] at fine ⊢
      omega
    simp [least]
  have low := Nat.log2_self_le none
  have high := @Nat.lt_log2_self m
  by_cases normal : (-1074 : Int) ≤ m.log2 + e - 52
  · have amount : (place m e - e).toNat + 52 = m.log2 := by
      unfold place at fine ⊢
      omega
    generalize (place m e - e).toNat = k at amount ⊢
    have split : 2 ^ m.log2 = 2 ^ 52 * 2 ^ k := by rw [← Nat.pow_add, ← amount, Nat.add_comm]
    have split' : 2 ^ (m.log2 + 1) = 2 ^ 53 * 2 ^ k := by
      rw [← Nat.pow_add, ← amount, Nat.add_comm 53, Nat.add_assoc]
    exact ⟨(Nat.div_lt_iff_lt_mul (Nat.two_pow_pos k)).mpr (split' ▸ high),
      .inl ((Nat.le_div_iff_mul_le (Nat.two_pow_pos k)).mpr (split ▸ low))⟩
  · have least : place m e = -1074 := by
      unfold place
      omega
    have amount : m.log2 + 1 ≤ 52 + (place m e - e).toNat := by omega
    generalize (place m e - e).toNat = k at amount ⊢
    have small : m < 2 ^ 52 * 2 ^ k := by
      rw [← Nat.pow_add]
      exact high.trans_le (Nat.pow_le_pow_right (by omega) amount)
    have short := (Nat.div_lt_iff_lt_mul (Nat.two_pow_pos k)).mpr small
    exact ⟨short.trans (by norm_num), .inr ⟨least, short⟩⟩

/-- A rounded mantissa, which is shifted once more if it has become too long. -/
def settle (s : Sign) (r : Nat) (t : Int) : UnpackedFloat :=
  let shifted := shiftToTargetExponent Format.binary64 r t .exact
  if none : shifted.1.mantissa = 0 then .zero s
    else .finite s shifted.1.mantissa shifted.2 (Nat.pos_of_ne_zero none)

theorem settle_value (s : Sign) {r : Nat} {t : Int} (least : -1074 ≤ t) (small : r ≤ 2 ^ 53)
    (full : 2 ^ 52 ≤ r ∨ t = -1074) :
    Canonical (settle s r t) ∧ dyadic? (settle s r t) = some ((s.apply r : Int) * (2 : ℚ) ^ t) := by
  simp only [settle, shiftToTargetExponent, targetExponent_place, shiftToExponent, mantissa_shiftRight,
    mantissa_ofMantissaAndAccuracy]
  by_cases carry : r = 2 ^ 53
  · subst carry
    have again : place (2 ^ 53) t = t + 1 := by
      unfold place
      rw [Nat.log2_two_pow]
      omega
    have amount : (t + 1 - t).toNat = 1 := by omega
    have half : 2 ^ 53 / 2 ^ 1 = 2 ^ 52 := by norm_num
    simp only [again, amount, half]
    rw [dif_neg (by norm_num)]
    refine ⟨⟨by norm_num, by omega, .inl (Nat.le_refl _)⟩, congrArg some ?_⟩
    rw [Nat.cast_one, zpow_add_one₀ (by norm_num)]
    cases s <;> simp only [Sign.apply] <;> push_cast <;> ring
  · have again : place r t = t := by
      by_cases none : r = 0
      · subst none
        simp only [place, Nat.log2_zero]
        omega
      · have log : r.log2 < 53 := (Nat.log2_lt none).mpr (by omega)
        unfold place
        rcases full with full | subnormal
        · have : 52 ≤ r.log2 := (Nat.le_log2 none).mpr full
          omega
        · omega
    simp only [again, Int.sub_self, Int.toNat_zero, Nat.pow_zero, Nat.div_one]
    split
    · next zero =>
      subst zero
      exact ⟨trivial, by cases s <;> simp [dyadic?, Sign.apply]⟩
    · exact ⟨⟨by omega, by omega, full.imp_right fun subnormal => by omega⟩, by simp [dyadic?]⟩

def placed (m : Nat) (e : Int) (accuracy : Accuracy) : ExtendedMantissa :=
  ExtendedMantissa.ofMantissaAndAccuracy m accuracy >>> (place m e - e).toNat

theorem mantissa_placed (m : Nat) (e : Int) (accuracy : Accuracy) :
    (placed m e accuracy).mantissa = m / 2 ^ (place m e - e).toNat := by
  rw [placed, mantissa_shiftRight, mantissa_ofMantissaAndAccuracy]

/-- Rounding takes the mantissa that is closest at its place. -/
theorem roundWithAccuracy_placed (s : Sign) {m : Nat} {e : Int} (accuracy : Accuracy) (fine : e ≤ place m e) :
    Canonical (roundWithAccuracy Format.binary64 s m e accuracy) ∧
      dyadic? (roundWithAccuracy Format.binary64 s m e accuracy) =
        some ((s.apply (placed m e accuracy).roundedMantissa : Int) * (2 : ℚ) ^ place m e) := by
  obtain ⟨short, full⟩ := shifted_bounds fine
  have there : e + ((place m e - e).toNat : Int) = place m e := by omega
  have rounded : roundWithAccuracy Format.binary64 s m e accuracy =
      settle s (placed m e accuracy).roundedMantissa (place m e) := by
    simp only [roundWithAccuracy, settle, shiftToTargetExponent, targetExponent_place,
      shiftToExponent, there, placed]
  obtain ⟨low, high⟩ := roundedMantissa_bounds (placed m e accuracy)
  rw [mantissa_placed] at low high
  exact rounded ▸ settle_value s (le_max_right _ _) (by omega)
    (full.imp (fun full => full.trans low) And.left)

/-- Rounding to a place leaves the mantissa there or takes it up by one, and it leaves a mantissa
that is exact. -/
theorem roundWithAccuracy_value (s : Sign) {m : Nat} {e : Int} (accuracy : Accuracy) (fine : e ≤ place m e) :
    ∃ r, m / 2 ^ (place m e - e).toNat ≤ r ∧ r ≤ m / 2 ^ (place m e - e).toNat + 1 ∧
      (accuracy = .exact → 2 ^ (place m e - e).toNat ∣ m → r = m / 2 ^ (place m e - e).toNat) ∧
      Canonical (roundWithAccuracy Format.binary64 s m e accuracy) ∧
      dyadic? (roundWithAccuracy Format.binary64 s m e accuracy) =
      some ((s.apply r : Int) * (2 : ℚ) ^ place m e) := by
  obtain ⟨low, high⟩ := roundedMantissa_bounds (placed m e accuracy)
  rw [mantissa_placed] at low high
  refine ⟨_, low, high, fun nothing divides => ?_, roundWithAccuracy_placed s accuracy fine⟩
  have shifted := shiftRight_exact (m / 2 ^ (place m e - e).toNat) (place m e - e).toNat
  rw [Nat.div_mul_cancel divides] at shifted
  simp only [placed, nothing, ExtendedMantissa.ofMantissaAndAccuracy, shifted]
  rfl

theorem not_isFinite_pack {u : UnpackedFloat} (regular : Regular u) (none : dyadic? u = none) :
    isFinite (.ofModel (.pack u)) = false := by
  rw [Bool.eq_false_iff]
  intro finite
  obtain ⟨p, value⟩ := isRational_of_isFinite finite
  rw [IsRational, rational_pack regular, none] at value
  cases value

/-- A mantissa in its place is packed as it is unless it overflows. -/
theorem Canonical.regular {u : UnpackedFloat} (canonical : Canonical u)
    (finite : isFinite (.ofModel (.pack u))) :
    Regular u := by
  cases u with
  | notANumber => trivial
  | infinity s => trivial
  | zero s => trivial
  | finite s m e positive =>
    obtain ⟨small, low, full⟩ := canonical
    refine ⟨small, low, ?_, full⟩
    by_contra high
    have overflow : UnpackedFloat.pack Format.binary64 (.finite s m e positive) =
        UnpackedFloat.pack Format.binary64 (.infinity s) := by
      have bias : Format.binary64.exponentBias = 1023 := rfl
      have large : 2 ^ Format.binary64.exponentBits ≤
          (e + (Format.binary64.exponentBias : Int) +
          (Format.binary64.mantissaBitsWithoutImplicit : Nat)).toNat + 1 := by
        change 2 ^ 11 ≤ (e + (1023 : Int) + (52 : Nat)).toNat + 1
        omega
      simp only [UnpackedFloat.pack, if_pos large]
    have infinite : isFinite (.ofModel (.pack (.infinity s))) = false := not_isFinite_pack trivial rfl
    have same : (Float.Model.pack (.finite s m e positive)) = .pack (.infinity s) := by
      simp only [Float.Model.pack, overflow]
    rw [same, infinite] at finite
    cases finite

/-- A number from the smallest double on is at most halved by rounding. -/
theorem le_two_mul_rounded {m : Nat} {e : Int} (fine : e ≤ place m e) {t : ℚ} (high : t < (m + 1) * 2 ^ e)
    (large : 2 ^ (-1074 : Int) ≤ t) {r : Nat} (low : m / 2 ^ (place m e - e).toNat ≤ r) :
    t ≤ 2 * (r * 2 ^ place m e) := by
  obtain ⟨-, full⟩ := shifted_bounds fine
  have amount : e + ((place m e - e).toNat : Int) = place m e := by omega
  have whole : m + 1 ≤ (m / 2 ^ (place m e - e).toNat + 1) * 2 ^ (place m e - e).toNat :=
    (Nat.div_lt_iff_lt_mul (Nat.two_pow_pos _)).mp (Nat.lt_succ_self _)
  generalize place m e = p at *
  generalize m / 2 ^ (p - e).toNat = n at *
  generalize (p - e).toNat = k at *
  have power : (0 : ℚ) < 2 ^ p := by positivity
  have below : t < (n + 1) * 2 ^ p := by
    have whole : (m + 1 : ℚ) ≤ (n + 1) * 2 ^ k := by exact_mod_cast whole
    calc t < (m + 1) * 2 ^ e := high
      _ ≤ (n + 1) * 2 ^ k * 2 ^ e := by gcongr
      _ = (n + 1) * 2 ^ p := by rw [← amount, zpow_add₀ (by norm_num), zpow_natCast]; ring
  have positive : 1 ≤ n := by
    rcases full with full | ⟨least, -⟩
    · omega
    · by_contra none
      obtain rfl : n = 0 := by omega
      rw [least] at below
      simp only [Nat.cast_zero, zero_add, one_mul] at below
      exact absurd large (not_le.mpr below)
  have double : (n + 1 : ℚ) ≤ 2 * r := by
    have : n + 1 ≤ 2 * r := by omega
    exact_mod_cast this
  calc t ≤ (n + 1) * 2 ^ p := below.le
    _ ≤ 2 * r * 2 ^ p := by gcongr
    _ = 2 * (r * 2 ^ p) := by ring

theorem abs_apply (s : Sign) (n : Nat) : |((s.apply n : Int) : ℚ)| = n := by
  cases s <;> simp [Sign.apply]

theorem isRational_rounded (s : Sign) {m : Nat} {e : Int} (accuracy : Accuracy) (fine : e ≤ place m e) {t : ℚ}
    (high : t < (m + 1) * 2 ^ e) (large : 2 ^ (-1074 : Int) ≤ t)
    (finite : isFinite (.ofModel (.pack (roundWithAccuracy Format.binary64 s m e accuracy)))) :
    ∃ q, IsRational (.ofModel (.pack (roundWithAccuracy Format.binary64 s m e accuracy))) q ∧
      t ≤ 2 * |q| := by
  obtain ⟨r, low, -, -, canonical, value⟩ := roundWithAccuracy_value s accuracy fine
  refine ⟨_, .pack (canonical.regular finite) value, ?_⟩
  rw [abs_mul, abs_apply, abs_of_pos (by positivity)]
  exact le_two_mul_rounded fine high large low

theorem le_place {m : Nat} {e : Int} (full : 2 ^ 52 ≤ m ∨ e ≤ -1074) : e ≤ place m e := by
  unfold place
  rcases full with full | low
  · have : 52 ≤ m.log2 := (Nat.le_log2 (by omega)).mpr full
    omega
  · omega

theorem abs_spelled (s : Sign) (m : Nat) (e : Int) : |((s.apply m : Int) * 2 ^ e : ℚ)| = m * 2 ^ e := by
  rw [abs_mul, abs_apply, abs_of_pos (by positivity)]

theorem apply_eq (s : Sign) (m : Nat) : s.apply m = s.apply 1 * m := by
  cases s <;> simp [Sign.apply]

theorem apply_div (s t : Sign) : (s / t).apply 1 = s.apply 1 * t.apply 1 := by
  cases s <;> cases t <;> rfl

theorem apply_apply (s : Sign) : s.apply 1 * s.apply 1 = 1 := by
  cases s <;> rfl

/-- The double is what rounding makes of a number whose magnitude is a mantissa and less than one
place more. -/
def Rounds (z : Float) (t : ℚ) : Prop :=
  ∃ (s : Sign) (m : Nat) (e : Int) (accuracy : Accuracy),
    z = .ofModel (.pack (roundWithAccuracy Format.binary64 s m e accuracy)) ∧ e ≤ place m e ∧
      m * 2 ^ e ≤ |t| ∧ |t| < (m + 1) * 2 ^ e ∧ t = (s.apply 1 : Int) * |t|

def RoundsClosely (z : Float) (t : ℚ) : Prop :=
  ∃ (s : Sign) (m : Nat) (e : Int) (accuracy : Accuracy) (u : ℚ),
    z = .ofModel (.pack (roundWithAccuracy Format.binary64 s m e accuracy)) ∧ e ≤ place m e ∧
      Describes (.ofMantissaAndAccuracy m accuracy) u ∧ t = (s.apply 1 : Int) * (u * 2 ^ e)

theorem Rounds.half {z : Float} {t : ℚ} (rounds : Rounds z t) (large : 2 ^ (-1074 : Int) ≤ |t|)
    (finite : isFinite z) :
    ∃ r, IsRational z r ∧ |t| ≤ 2 * |r| := by
  obtain ⟨s, m, e, accuracy, rfl, fine, -, high, -⟩ := rounds
  exact isRational_rounded s accuracy fine high large finite

theorem abs_signed (s : Sign) {t : ℚ} (positive : 0 ≤ t) : |((s.apply 1 : Int) : ℚ) * t| = t := by
  cases s <;> simp [Sign.apply, abs_of_nonneg positive]

theorem RoundsClosely.rounds {z : Float} {t : ℚ} (closely : RoundsClosely z t) : Rounds z t := by
  obtain ⟨s, m, e, accuracy, u, rfl, fine, describes, rfl⟩ := closely
  obtain ⟨low, high⟩ := describes.bounds
  rw [mantissa_ofMantissaAndAccuracy] at low high
  have positive : 0 ≤ u * 2 ^ e := mul_nonneg ((Nat.cast_nonneg m).trans low) (by positivity)
  refine ⟨s, m, e, accuracy, rfl, fine, ?_⟩
  rw [abs_signed s positive]
  exact ⟨by gcongr, by gcongr, rfl⟩

def divTarget (m : Nat) (e : Int) (n : Nat) (f : Int) : Int :=
  min (e - f) (max ((m.log2 : Int) + e - n.log2 - f - 53) (-1074))

theorem divCore_eq (m : Nat) (e : Int) (n : Nat) (f : Int) : divCore Format.binary64 m e n f =
    (m * 2 ^ (e - f - divTarget m e n f).toNat / n, divTarget m e n f,
      accuracyOfFraction (m * 2 ^ (e - f - divTarget m e n f).toNat % n) n) := by
  have bits : Format.binary64.targetExponent (totalExponent m e - totalExponent n f) =
      max ((m.log2 : Int) + e - n.log2 - f - 53) (-1074) := by
    simp only [Format.targetExponent, totalExponent, Format.mantissaBits, Format.minExponent]
    congr 1
    omega
  simp only [divCore, bits, Nat.shiftLeft_eq]
  rfl

/-- Above the least exponent a quotient has all of its bits before the target. -/
theorem divTarget_full {m n : Nat} (positive : 0 < m) {e f : Int} (normal : ¬ divTarget m e n f ≤ -1074) :
    2 ^ 52 * n ≤ m * 2 ^ (e - f - divTarget m e n f).toNat := by
  have long : n.log2 + 53 ≤ m.log2 + (e - f - divTarget m e n f).toNat := by
    simp only [divTarget] at normal ⊢
    omega
  generalize (e - f - divTarget m e n f).toNat = amount at long ⊢
  calc 2 ^ 52 * n ≤ 2 ^ 52 * 2 ^ (n.log2 + 1) := Nat.mul_le_mul_left _ Nat.lt_log2_self.le
    _ = 2 ^ (n.log2 + 53) := by rw [← Nat.pow_add]; congr 1; omega
    _ ≤ 2 ^ (m.log2 + amount) := Nat.pow_le_pow_right (by omega) long
    _ = 2 ^ m.log2 * 2 ^ amount := Nat.pow_add ..
    _ ≤ m * 2 ^ amount := Nat.mul_le_mul_right _ (Nat.log2_self_le positive.ne')

theorem divTarget_le_place {m n : Nat} (positive : 0 < m) (positive' : 0 < n) (e f : Int) :
    divTarget m e n f ≤ place (m * 2 ^ (e - f - divTarget m e n f).toNat / n) (divTarget m e n f) := by
  by_cases low : divTarget m e n f ≤ -1074
  · exact le_place (.inr low)
  · exact le_place (.inl ((Nat.le_div_iff_mul_le positive').mpr (divTarget_full positive low)))

section Spelled

variable (s t : Sign) {m n : Nat} {e f : Int} (positive : 0 < m) (positive' : 0 < n)

theorem rounds_mul (full : 2 ^ 52 ≤ m * n ∨ e + f ≤ -1074) :
    Rounds (.ofModel (.pack
      (UnpackedFloat.mul Format.binary64 (.finite s m e positive) (.finite t n f positive'))))
      ((s.apply 1 : Int) * (m * 2 ^ e) * ((t.apply 1 : Int) * (n * 2 ^ f))) := by
  have product : (s.apply 1 : Int) * (m * 2 ^ e) * ((t.apply 1 : Int) * (n * 2 ^ f)) =
      (((s * t).apply 1 : Int) : ℚ) * ((m * n : Nat) * 2 ^ (e + f)) := by
    have sign : (s * t).apply 1 = s.apply 1 * t.apply 1 := apply_mul s t 1 1
    rw [sign, zpow_add₀ (by norm_num)]
    push_cast
    ring
  refine ⟨s * t, m * n, e + f, .exact, rfl, le_place full, ?_⟩
  rw [product, abs_signed _ (by positivity)]
  refine ⟨le_rfl, ?_, rfl⟩
  gcongr
  exact lt_add_one _

include positive' in
theorem spelled_div : (s.apply 1 : Int) * (m * 2 ^ e) / ((t.apply 1 : Int) * (n * 2 ^ f)) =
    (((s / t).apply 1 : Int) : ℚ) *
      (((m * 2 ^ (e - f - divTarget m e n f).toNat : Nat) : ℚ) / n * 2 ^ divTarget m e n f) := by
  have exponent : e = f + (e - f - divTarget m e n f).toNat + divTarget m e n f := by
    simp only [divTarget]
    omega
  generalize (e - f - divTarget m e n f).toNat = amount at exponent ⊢
  generalize divTarget m e n f = target at exponent ⊢
  have power : (2 : ℚ) ^ f ≠ 0 := by positivity
  have unit : ((t.apply 1 : Int) : ℚ) ^ 2 = 1 := by rw [sq]; exact_mod_cast apply_apply t
  have sign : ((t.apply 1 : Int) : ℚ) ≠ 0 := fun zero => by simp [zero] at unit
  have divisor : (n : ℚ) ≠ 0 := by exact_mod_cast positive'.ne'
  rw [apply_div, exponent, zpow_add₀ (by norm_num), zpow_add₀ (by norm_num), zpow_natCast]
  push_cast
  field_simp
  rw [unit, mul_one]

theorem closely_div :
    RoundsClosely (.ofModel (.pack
      (UnpackedFloat.div Format.binary64 (.finite s m e positive) (.finite t n f positive'))))
      ((s.apply 1 : Int) * (m * 2 ^ e) / ((t.apply 1 : Int) * (n * 2 ^ f))) := by
  let target := divTarget m e n f
  let amount := (e - f - target).toNat
  refine ⟨s / t, m * 2 ^ amount / n, target, accuracyOfFraction (m * 2 ^ amount % n) n, _, ?_,
    divTarget_le_place positive positive' e f, describes_fraction _ positive', spelled_div s t positive'⟩
  simp only [UnpackedFloat.div, divCore_eq, target, amount]

end Spelled

namespace IsRational

variable {x y : Float} {p q : ℚ}

/-- What a double other than zero spells. -/
theorem unpack_of_ne_zero (value : IsRational x p) (nonzero : p ≠ 0) : ∃ s m e positive,
    x.toModel.unpack = .finite s m e positive ∧ m < 2 ^ 53 ∧ -1074 ≤ e ∧ e ≤ 971 ∧ (2 ^ 52 ≤ m ∨ e = -1074) ∧
      p = (s.apply 1 : Int) * (m * 2 ^ e) := by
  have spelled := value.spelled
  have regular := regular_unpack x
  generalize x.toModel.unpack = u at spelled regular
  cases u with
  | notANumber => cases spelled
  | infinity s => cases spelled
  | zero s => exact absurd (Option.some.inj spelled).symm nonzero
  | finite s m e positive =>
    obtain rfl := Option.some.inj spelled
    obtain ⟨small, low, high, full⟩ := regular
    refine ⟨s, m, e, positive, rfl, small, low, high, full, ?_⟩
    rw [apply_eq]
    push_cast
    ring

theorem mul_rounds (left : IsRational x p) (right : IsRational y q) (nonzero : p * q ≠ 0) :
    Rounds (x * y) (p * q) := by
  obtain ⟨s, m, e, positive, unpacked, -, -, -, full, rfl⟩ :=
    left.unpack_of_ne_zero (left_ne_zero_of_mul nonzero)
  obtain ⟨t, n, f, positive', unpacked', -, -, -, full', rfl⟩ :=
    right.unpack_of_ne_zero (right_ne_zero_of_mul nonzero)
  have product : x * y =
    .ofModel (.pack (UnpackedFloat.mul Format.binary64 x.toModel.unpack y.toModel.unpack)) := rfl
  rw [product, unpacked, unpacked']
  refine rounds_mul s t positive positive' ?_
  rcases full with full | least
  · exact .inl (full.trans (Nat.le_mul_of_pos_right m positive'))
  · rcases full' with full' | least'
    · exact .inl (full'.trans (Nat.le_mul_of_pos_left n positive))
    · exact .inr (by omega)

theorem div_closely (left : IsRational x p) (right : IsRational y q) (nonzero : p / q ≠ 0) :
    RoundsClosely (x / y) (p / q) := by
  obtain ⟨above, below⟩ := div_ne_zero_iff.mp nonzero
  obtain ⟨s, m, e, positive, unpacked, -, -, -, -, rfl⟩ := left.unpack_of_ne_zero above
  obtain ⟨t, n, f, positive', unpacked', -, -, -, -, rfl⟩ := right.unpack_of_ne_zero below
  have quotient : x / y =
    .ofModel (.pack (UnpackedFloat.div Format.binary64 x.toModel.unpack y.toModel.unpack)) := rfl
  rw [quotient, unpacked, unpacked']
  exact closely_div s t positive positive'

theorem exists_mul (left : IsRational x p) (right : IsRational y q) (large : 2 ^ (-1074 : Int) ≤ |p * q|)
    (finite : Decimal.isFinite (x * y)) : ∃ r, IsRational (x * y) r ∧ |p * q| ≤ 2 * |r| :=
  (left.mul_rounds right (abs_pos.mp (lt_of_lt_of_le (by positivity) large))).half large finite

theorem exists_div (left : IsRational x p) (right : IsRational y q) (large : 2 ^ (-1074 : Int) ≤ |p / q|)
    (finite : Decimal.isFinite (x / y)) : ∃ r, IsRational (x / y) r ∧ |p / q| ≤ 2 * |r| :=
  (left.div_closely right (abs_pos.mp (lt_of_lt_of_le (by positivity) large))).rounds.half large finite

end IsRational

/-- A number times its rounded reciprocal is at least a quarter. -/
theorem IsRational.exists_unit {x : Float} {p : ℚ} (value : IsRational x p) (nonzero : p ≠ 0)
    (reciprocal : Decimal.isFinite (1.0 / x)) (finite : Decimal.isFinite (x * (1.0 / x))) :
    ∃ r, IsRational (x * (1.0 / x)) r ∧ 1 / 4 ≤ |r| := by
  obtain ⟨s, m, e, -, -, small, -, high, -, spelled⟩ := value.unpack_of_ne_zero nonzero
  have magnitude : |p| = m * 2 ^ e := by rw [spelled, abs_signed s (by positivity)]
  have positive : 0 < |p| := abs_pos.mpr nonzero
  have bounded : |p| ≤ 2 ^ (1074 : Int) := by
    have small : (m : ℚ) ≤ 2 ^ (53 : Int) := by exact_mod_cast small.le
    calc |p| = m * 2 ^ e := magnitude
      _ ≤ 2 ^ (53 : Int) * 2 ^ (971 : Int) := by gcongr; norm_num
      _ = 2 ^ (1024 : Int) := (zpow_add₀ (by norm_num) 53 971).symm
      _ ≤ 2 ^ (1074 : Int) := zpow_le_zpow_right₀ (by norm_num) (by norm_num)
  have large : (2 : ℚ) ^ (-1074 : Int) ≤ |1 / p| := by
    rw [abs_div, abs_one, le_div_iff₀ positive]
    calc (2 : ℚ) ^ (-1074 : Int) * |p| ≤ 2 ^ (-1074 : Int) * 2 ^ (1074 : Int) := by gcongr
      _ = 1 := by rw [← zpow_add₀ (by norm_num)]; rfl
  have least : (2 : ℚ) ^ (-1074 : Int) ≤ 1 / 2 :=
    le_trans (zpow_le_zpow_right₀ (by norm_num) (show (-1074 : Int) ≤ -1 by norm_num)) (by norm_num)
  obtain ⟨q, inverse, half⟩ := IsRational.one.exists_div value large reciprocal
  have quarter : 1 / 2 ≤ |p * q| := by
    rw [abs_div, abs_one, div_le_iff₀ positive] at half
    rw [abs_mul]
    linarith
  obtain ⟨r, product, half'⟩ := value.exists_mul inverse (least.trans quarter) finite
  exact ⟨r, product, by linarith⟩

section Finite

variable {x y : Float}

theorem isFinite_iff : isFinite x ↔ (dyadic? x.toModel.unpack).isSome := by
  rw [← rational_eq, isFinite, rational?, Option.isSome_map]

theorem isFinite_of_add (finite : isFinite (x + y)) : isFinite x ∧ isFinite y := by
  rw [isFinite_iff, isFinite_iff]
  change isFinite (.ofModel (.pack (UnpackedFloat.add _ x.toModel.unpack y.toModel.unpack))) = true at finite
  generalize x.toModel.unpack = u at finite ⊢
  generalize y.toModel.unpack = v at finite ⊢
  have infinite (s : Sign) : isFinite (.ofModel (.pack (.infinity s))) = false :=
    not_isFinite_pack trivial rfl
  have nan : isFinite (.ofModel (.pack .notANumber)) = false := not_isFinite_pack trivial rfl
  cases u <;> cases v <;> simp_all [UnpackedFloat.add, dyadic?]
  split at finite <;> simp_all

theorem isFinite_of_mul (finite : isFinite (x * y)) : isFinite x ∧ isFinite y := by
  rw [isFinite_iff, isFinite_iff]
  change isFinite (.ofModel (.pack (UnpackedFloat.mul _ x.toModel.unpack y.toModel.unpack))) = true at finite
  generalize x.toModel.unpack = u at finite ⊢
  generalize y.toModel.unpack = v at finite ⊢
  have infinite (s : Sign) : isFinite (.ofModel (.pack (.infinity s))) = false :=
    not_isFinite_pack trivial rfl
  have nan : isFinite (.ofModel (.pack .notANumber)) = false := not_isFinite_pack trivial rfl
  cases u <;> cases v <;> simp_all [UnpackedFloat.mul, dyadic?]

theorem isFinite_of_abs_lt (finite : isFinite y) (small : x.abs < y) : isFinite x := by
  rw [isFinite_iff] at finite ⊢
  have unpacked : x.abs.toModel.unpack = x.toModel.unpack.abs := toModel_pack (regular_unpack x).abs
  have less : x.toModel.unpack.abs.lt y.toModel.unpack = true := unpacked ▸ of_decide_eq_true small
  generalize x.toModel.unpack = u at less ⊢
  generalize y.toModel.unpack = v at less finite
  cases u <;> cases v <;> simp_all [UnpackedFloat.abs, UnpackedFloat.lt, UnpackedFloat.compare, dyadic?]

theorem isFinite_of_beq (finite : isFinite y) (equal : x == y) : isFinite x := by
  rw [isFinite_iff] at finite ⊢
  have equal : x.toModel.unpack.beq y.toModel.unpack = true := equal
  generalize x.toModel.unpack = u at equal ⊢
  generalize y.toModel.unpack = v at equal finite
  cases u with
  | infinity s => cases s <;> cases v <;> simp_all [UnpackedFloat.beq, UnpackedFloat.compare, dyadic?]
  | notANumber => cases v <;> simp_all [UnpackedFloat.beq, UnpackedFloat.compare]
  | zero s | finite s m e positive => rfl

/-- A double that equals a rational number is read as that number. -/
theorem isRational_of_beq {x y : Float} {q : ℚ} (known : IsRational y q) (equal : x == y) :
    IsRational x q := by
  obtain ⟨p, read⟩ := isRational_of_isFinite (isFinite_of_beq known.isFinite equal)
  obtain rfl := (read.beq_iff known).mp equal
  exact read

theorem isRational_of_zero {x : Float} (zero : x == 0.0) : IsRational x 0 := isRational_of_beq .zero zero

end Finite

end Stepwise.Decimal
