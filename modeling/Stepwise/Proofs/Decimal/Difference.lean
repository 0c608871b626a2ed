import Stepwise.Proofs.Decimal.Integral

/-! How near a difference stays. The numbers are taken to the smaller of their exponents and
subtracted there without loss, so that only the result is rounded. Main statement: a difference that
is not too large is a finite double, off by at most one place. -/
namespace Stepwise.Decimal

open Float.Model UnpackedFloat

/-- More bits at a smaller exponent round to the same place. -/
theorem place_shift {m : Nat} (positive : 0 < m) (e : Int) (k : Nat) :
    place (m * 2 ^ k) (e - k) = place m e := by
  unfold place
  rw [log2_mul_pow positive]
  omega

theorem scaled_shift (m : ℚ) (e : Int) (k : Nat) : m * 2 ^ k * 2 ^ (e - k) = m * 2 ^ e := by
  rw [mul_assoc, ← zpow_natCast (2 : ℚ) k, ← zpow_add₀ (by norm_num)]
  congr 2
  omega

/-- A number given by any mantissa and exponent is rounded once. -/
theorem rounds_round (s : Sign) {m : Nat} (positive : 0 < m) (e : Int) :
    Rounds (.ofModel (.pack (UnpackedFloat.round Format.binary64 s m e)))
      ((s.apply 1 : Int) * (m * 2 ^ e)) := by
  let k := (e - place m e).toNat
  have value : ((m * 2 ^ k : Nat) : ℚ) * 2 ^ (e - k) = m * 2 ^ e := by
    push_cast
    exact scaled_shift m e k
  refine ⟨s, m * 2 ^ k, e - k, .exact, ?_, ?_, ?_⟩
  · simp only [UnpackedFloat.round, targetExponent_place, decreaseExponent, Nat.shiftLeft_eq, k]
  · rw [place_shift positive]
    omega
  · rw [abs_signed s (by positivity), add_mul, value]
    exact ⟨le_rfl, lt_add_of_pos_right _ (by positivity), rfl⟩

theorem rounds_normalize {n : Int} (nonzero : n ≠ 0) (e : Int) (s : Sign) :
    Rounds (.ofModel (.pack (UnpackedFloat.normalize Format.binary64 n e s))) (n * 2 ^ e) := by
  rcases Int.lt_or_gt_of_ne nonzero with negative | positive
  · have rounds := rounds_round .negative (m := (-n).toNat) (by omega) e
    have value : ((Sign.negative.apply 1 : Int) : ℚ) * ((-n).toNat * 2 ^ e) = n * 2 ^ e := by
      have size : (((-n).toNat : Int) : ℚ) = -n := by rw [Int.toNat_of_nonneg (by omega)]; push_cast; rfl
      rw [← Int.cast_natCast, size]
      simp [Sign.apply]
    rw [value] at rounds
    rwa [UnpackedFloat.normalize, compare_lt_iff_lt.mpr negative]
  · have rounds := rounds_round .positive (m := n.toNat) (by omega) e
    have value : ((Sign.positive.apply 1 : Int) : ℚ) * (n.toNat * 2 ^ e) = n * 2 ^ e := by
      have size : ((n.toNat : Int) : ℚ) = n := by rw [Int.toNat_of_nonneg (by omega)]
      rw [← Int.cast_natCast, size]
      simp [Sign.apply]
    rw [value] at rounds
    rwa [UnpackedFloat.normalize, compare_gt_iff_gt.mpr positive]

/-- What a mantissa stands for does not change when its exponent is decreased. -/
theorem apply_decreased (s : Sign) (m : Nat) {e f : Int} (below : f ≤ e) :
    ((s.apply (decreaseExponent m e f).1 : Int) : ℚ) * 2 ^ f = (s.apply 1 : Int) * (m * 2 ^ e) := by
  have exponent : f = e - (e - f).toNat := by omega
  have shifted := scaled_shift (m : ℚ) e (e - f).toNat
  rw [← exponent] at shifted
  rw [decreaseExponent, Nat.shiftLeft_eq, apply_eq, ← shifted]
  push_cast
  ring

namespace IsRational

variable {x y : Float} {p q : ℚ}

theorem sub_zero (value : IsRational x p) (zero : IsRational y 0) : IsRational (x - y) p := by
  obtain ⟨t, unpacked⟩ := zero_iff.mp zero
  have spelled := value.spelled
  have regular := regular_unpack x
  change IsRational (.ofModel (.pack (UnpackedFloat.sub _ x.toModel.unpack y.toModel.unpack))) p
  rw [unpacked]
  generalize x.toModel.unpack = u at spelled regular
  cases u with
  | notANumber => cases spelled
  | infinity s => cases spelled
  | zero s => cases s <;> cases t <;> exact pack trivial spelled
  | finite s m e positive => exact pack regular spelled

theorem zero_sub (zero : IsRational x 0) (value : IsRational y q) (nonzero : q ≠ 0) :
    IsRational (x - y) (-q) := by
  obtain ⟨s, unpacked⟩ := zero_iff.mp zero
  obtain ⟨t, n, f, positive, unpacked', -⟩ := value.unpack_of_ne_zero nonzero
  have negated := value.neg
  change IsRational (.ofModel (.pack y.toModel.unpack.neg)) (-q) at negated
  change IsRational (.ofModel (.pack (UnpackedFloat.sub _ x.toModel.unpack y.toModel.unpack))) (-q)
  rw [unpacked'] at negated
  rwa [unpacked, unpacked']

theorem sub_rounds (left : IsRational x p) (right : IsRational y q) (first : p ≠ 0) (second : q ≠ 0)
    (apart : p - q ≠ 0) :
    Rounds (x - y) (p - q) := by
  obtain ⟨s, m, e, positive, unpacked, -, -, -, -, rfl⟩ := left.unpack_of_ne_zero first
  obtain ⟨t, n, f, positive', unpacked', -, -, -, -, rfl⟩ := right.unpack_of_ne_zero second
  let difference := s.apply (decreaseExponent m e (min e f)).1 - t.apply (decreaseExponent n f (min e f)).1
  have value : (difference : ℚ) * 2 ^ min e f =
      (s.apply 1 : Int) * (m * 2 ^ e) - (t.apply 1 : Int) * (n * 2 ^ f) := by
    rw [Int.cast_sub, sub_mul, apply_decreased s m (Int.min_le_left e f),
      apply_decreased t n (Int.min_le_right e f)]
  have nonzero : difference ≠ 0 :=
    fun none => apart (by rw [← value, none, Int.cast_zero, MulZeroClass.zero_mul])
  have model : x - y = .ofModel
      (.pack (UnpackedFloat.normalize Format.binary64 difference (min e f) .positive)) := by
    change Float.ofModel (.pack (UnpackedFloat.sub _ x.toModel.unpack y.toModel.unpack)) = _
    rw [unpacked, unpacked']
    rfl
  rw [model, ← value]
  exact rounds_normalize nonzero _ _

/-- A difference is off by at most one place. -/
theorem sub_near (left : IsRational x p) (right : IsRational y q) (small : |p - q| ≤ 2 ^ (1023 : Int)) :
    ∃ r, IsRational (x - y) r ∧ |r - (p - q)| ≤ slack (p - q) := by
  by_cases second : q = 0
  · subst second
    exact ⟨p, left.sub_zero right, by simpa using zero_slack p⟩
  by_cases first : p = 0
  · subst first
    exact ⟨-q, left.zero_sub right second, by simpa using zero_slack (-q)⟩
  by_cases same : p - q = 0
  · obtain rfl : p = q := sub_eq_zero.mp same
    exact ⟨0, left.sub_same right, by simpa using zero_slack 0⟩
  · exact (left.sub_rounds right first second same).near small

end IsRational

end Stepwise.Decimal
