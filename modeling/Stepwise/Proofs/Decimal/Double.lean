import Mathlib
import Stepwise.Decimal.Read

/-! Doubles that are whole numbers below `2^53`. Each has one canonical mantissa of 53 bits, and an
operation whose exact result is such a number rounds to its canonical form. -/
namespace Stepwise.Decimal

open Float.Model Float.Model.UnpackedFloat

/-- The places that a whole number lacks to fill a mantissa. -/
def gap (m : Nat) : Nat := 52 - m.log2

def canonical (s : Sign) (m : Nat) : UnpackedFloat :=
  if positive : 0 < m then
    .finite s (m * 2 ^ gap m) (-(gap m : Int)) (Nat.mul_pos positive (Nat.two_pow_pos _))
  else .zero s

theorem shiftRight_exact (m n : Nat) :
    (⟨m * 2 ^ n, false, false⟩ : ExtendedMantissa) >>> n = ⟨m, false, false⟩ := by
  change Nat.repeat ExtendedMantissa.shiftRightOne n ⟨m * 2 ^ n, false, false⟩ = _
  induction n generalizing m with
  | zero => simp [Nat.repeat]
  | succ n ih =>
    have split : m * 2 ^ (n + 1) = m * 2 * 2 ^ n := by rw [Nat.pow_succ, Nat.mul_comm (2 ^ n), Nat.mul_assoc]
    rw [Nat.repeat, split, ih]
    simp [ExtendedMantissa.shiftRightOne]

theorem log2_mul_pow {m : Nat} (positive : 0 < m) (n : Nat) : (m * 2 ^ n).log2 = m.log2 + n := by
  induction n with
  | zero => simp
  | succ n ih =>
    have split : m * 2 ^ (n + 1) = 2 * (m * 2 ^ n) := by rw [Nat.pow_succ, ← Nat.mul_assoc, Nat.mul_comm]
    have pos := Nat.mul_pos positive (Nat.two_pow_pos n)
    rw [split, Nat.log2_two_mul (by omega), ih]
    rfl

theorem log2_lt_of_lt {m : Nat} (positive : 0 < m) (small : m < 2 ^ 53) : m.log2 < 53 :=
  (Nat.log2_lt (by omega)).mpr small

theorem targetExponent_eq {m : Nat} (positive : 0 < m) (small : m < 2 ^ 53) (n : Nat) :
    Format.binary64.targetExponent (totalExponent (m * 2 ^ n) (-(n : Int))) = -(gap m : Int) := by
  have bits := log2_lt_of_lt positive small
  simp only [Format.targetExponent, totalExponent, log2_mul_pow positive, Format.mantissaBits,
    Format.minExponent, gap]
  omega

/-- A mantissa with places to spare is shifted to its canonical form. -/
theorem shiftToTarget_exact {m n : Nat} (positive : 0 < m) (small : m < 2 ^ 53) (enough : gap m ≤ n) :
    shiftToTargetExponent Format.binary64 (m * 2 ^ n) (-(n : Int)) .exact =
      (⟨m * 2 ^ gap m, false, false⟩, -(gap m : Int)) := by
  have amount : (-(gap m : Int) - -(n : Int)).toNat = n - gap m := by omega
  have split : m * 2 ^ n = m * 2 ^ gap m * 2 ^ (n - gap m) := by
    rw [Nat.mul_assoc, ← Nat.pow_add, Nat.add_sub_cancel' enough]
  simp only [shiftToTargetExponent, shiftToExponent, targetExponent_eq positive small, amount,
    ExtendedMantissa.ofMantissaAndAccuracy]
  rw [split, shiftRight_exact]
  exact Prod.ext rfl (by simp only; omega)

theorem roundWithAccuracy_exact (s : Sign) {m n : Nat} (positive : 0 < m) (small : m < 2 ^ 53)
    (enough : gap m ≤ n) :
    roundWithAccuracy Format.binary64 s (m * 2 ^ n) (-(n : Int)) .exact = canonical s m := by
  have again := shiftToTarget_exact positive small (Nat.le_refl _)
  have nonzero : m * 2 ^ gap m ≠ 0 := Nat.ne_of_gt (Nat.mul_pos positive (Nat.two_pow_pos _))
  have rounded : (⟨m * 2 ^ gap m, false, false⟩ : ExtendedMantissa).roundedMantissa = m * 2 ^ gap m := rfl
  simp only [roundWithAccuracy, shiftToTarget_exact positive small enough, rounded, again, nonzero, dif_neg,
    not_false_eq_true, canonical, positive, dif_pos]

theorem round_exact (s : Sign) {m : Nat} (positive : 0 < m) (small : m < 2 ^ 53) (n : Nat) :
    UnpackedFloat.round Format.binary64 s (m * 2 ^ n) (-(n : Int)) = canonical s m := by
  simp only [UnpackedFloat.round, targetExponent_eq positive small, decreaseExponent]
  by_cases enough : gap m ≤ n
  · have none : (-(n : Int) - -(gap m : Int)).toNat = 0 := by omega
    simp only [none, Nat.shiftLeft_zero, Int.natCast_zero, Int.sub_zero]
    exact roundWithAccuracy_exact s positive small enough
  · have amount : (-(n : Int) - -(gap m : Int)).toNat = gap m - n := by omega
    have exponent : -(n : Int) - ((gap m - n : Nat) : Int) = -(gap m : Int) := by omega
    have mantissa : m * 2 ^ n * 2 ^ (gap m - n) = m * 2 ^ gap m := by
      rw [Nat.mul_assoc, ← Nat.pow_add, Nat.add_sub_cancel' (Nat.le_of_not_le enough)]
    rw [amount, exponent, Nat.shiftLeft_eq, mantissa]
    exact roundWithAccuracy_exact s positive small (Nat.le_refl _)

def signOf (n : Int) : Sign := if n < 0 then .negative else .positive

theorem normalize_exact {a : Int} (small : a.natAbs < 2 ^ 53) (n : Nat) :
    UnpackedFloat.normalize Format.binary64 (a * 2 ^ n) (-(n : Int)) .positive =
      canonical (signOf a) a.natAbs := by
  have pow : (0 : Int) < 2 ^ n := Int.pow_pos (by decide)
  rcases Int.lt_trichotomy a 0 with negative | zero | positive
  · have product : a * 2 ^ n < 0 := Int.mul_neg_of_neg_of_pos negative pow
    have order : compare (a * 2 ^ n) 0 = .lt := by simp [compare, compareOfLessAndEq, product]
    have mantissa : (-(a * 2 ^ n)).toNat = a.natAbs * 2 ^ n := by
      rw [← Int.neg_mul, ← Int.ofNat_natAbs_of_nonpos (by omega)]
      exact Int.toNat_natCast (a.natAbs * 2 ^ n)
    rw [UnpackedFloat.normalize, order]
    simp only [mantissa, signOf, negative, if_true]
    exact round_exact .negative (by omega) small n
  · simp [UnpackedFloat.normalize, zero, canonical, signOf, compare, compareOfLessAndEq]
  · have product : 0 < a * 2 ^ n := Int.mul_pos positive pow
    have order : compare (a * 2 ^ n) 0 = .gt := by
      have less : ¬ a * 2 ^ n < 0 := by omega
      have equal : a * 2 ^ n ≠ 0 := by omega
      simp [compare, compareOfLessAndEq, less, equal]
    have mantissa : (a * 2 ^ n).toNat = a.natAbs * 2 ^ n := by
      rw [← Int.natAbs_of_nonneg (Int.le_of_lt positive)]
      exact Int.toNat_natCast (a.natAbs * 2 ^ n)
    have sign : ¬ a < 0 := by omega
    rw [UnpackedFloat.normalize, order]
    simp only [mantissa, signOf, sign, if_false]
    exact round_exact .positive (by omega) small n

theorem unpackSign_packComponents {format : Format} {sign exponent mantissa} :
    unpackSign (packComponents format sign exponent mantissa) = sign.toBitVec := by
  ext i hi
  obtain rfl : i = 0 := by omega
  have above : ¬ format.mantissaBitsWithoutImplicit + format.exponentBits <
      format.mantissaBitsWithoutImplicit := by
    omega
  simp [unpackSign, packComponents, BitVec.getLsbD_eq_getElem, BitVec.getLsbD_append, above,
    BitVec.getElem_append]

theorem ofBitVec_toBitVec (s : Sign) : Sign.ofBitVec s.toBitVec = s := by
  cases s <;> rfl

/-- The bounds of a canonical mantissa. -/
theorem mantissa_bounds {m : Nat} (positive : 0 < m) (small : m < 2 ^ 53) :
    2 ^ 52 ≤ m * 2 ^ gap m ∧ m * 2 ^ gap m < 2 ^ 53 := by
  have bits := log2_lt_of_lt positive small
  have log : (m * 2 ^ gap m).log2 = 52 := by
    rw [log2_mul_pow positive, gap]
    omega
  have nonzero : m * 2 ^ gap m ≠ 0 := Nat.ne_of_gt (Nat.mul_pos positive (Nat.two_pow_pos _))
  exact (Nat.log2_eq_iff nonzero).mp log

def packed (s : Sign) (m : Nat) : BitVec Format.binary64.numBits :=
  packComponents Format.binary64 s (if 0 < m then BitVec.ofNat 11 (1075 - gap m) else 0)
    (if 0 < m then BitVec.ofNat 52 (m * 2 ^ gap m) else 0)

theorem pack_canonical (s : Sign) {m : Nat} (small : m < 2 ^ 53) :
    UnpackedFloat.pack Format.binary64 (canonical s m) = packed s m := by
  by_cases positive : 0 < m
  · have bits := log2_lt_of_lt positive small
    have log : (m * 2 ^ gap m).log2 = 52 := by
      rw [log2_mul_pow positive, gap]
      omega
    have biased : (-(gap m : Int) + (Format.binary64.exponentBias : Int) + (52 : Nat)).toNat =
        1075 - gap m := by
      simp only [Format.exponentBias, gap]
      omega
    have finite : ¬ 2 ^ 11 ≤ 1075 - gap m + 1 := by omega
    simp only [canonical, positive, dif_pos, UnpackedFloat.pack, biased, finite, log, packed,
      if_true, if_false]
    rfl
  · simp only [canonical, positive, dif_neg, not_false_eq_true, UnpackedFloat.pack, packed, if_false]
    rfl

theorem unpack_packed (s : Sign) {m : Nat} (small : m < 2 ^ 53) :
    UnpackedFloat.unpack Format.binary64 (packed s m) = canonical s m := by
  have sign : unpackSign (packed s m) = s.toBitVec := unpackSign_packComponents
  by_cases positive : 0 < m
  · have bits := log2_lt_of_lt positive small
    have exponent : unpackExponent (packed s m) = BitVec.ofNat 11 (1075 - gap m) := by
      simp only [packed, positive, if_true, unpackExponent_packComponents]
    have mantissa : unpackMantissa (packed s m) = BitVec.ofNat 52 (m * 2 ^ gap m) := by
      simp only [packed, positive, if_true, unpackMantissa_packComponents]
    have value : (BitVec.ofNat 11 (1075 - gap m)).toNat = 1075 - gap m := by
      rw [BitVec.toNat_ofNat]
      exact Nat.mod_eq_of_lt (by omega)
    have finite : BitVec.ofNat 11 (1075 - gap m) ≠ -1#_ := fun equal => by
      have := congrArg BitVec.toNat equal
      rw [value] at this
      simp at this
      omega
    have normal : BitVec.ofNat 11 (1075 - gap m) ≠ 0#_ := fun equal => by
      have := congrArg BitVec.toNat equal
      rw [value] at this
      simp [gap] at this
      omega
    have whole : (1#1 ++ BitVec.ofNat 52 (m * 2 ^ gap m)).toNat = m * 2 ^ gap m := by
      obtain ⟨low, high⟩ := mantissa_bounds positive small
      rw [BitVec.toNat_append, BitVec.toNat_ofNat, BitVec.toNat_ofNat, Nat.shiftLeft_eq, Nat.mul_comm,
        ← Nat.two_pow_add_eq_or_of_lt (Nat.mod_lt _ (Nat.two_pow_pos 52))]
      omega
    have power : (((1075 - gap m : Nat) : Int) - (Format.binary64.exponentBias + 52 : Nat)) =
        -(gap m : Int) := by
      simp only [Format.exponentBias, gap]
      omega
    simp only [UnpackedFloat.unpack, exponent, mantissa, sign, ofBitVec_toBitVec, canonical,
      positive, dif_pos]
    rw [if_neg finite, if_neg normal]
    simp only [value, whole]
    congr 1
  · have exponent : unpackExponent (packed s m) = 0 := by
      simp only [packed, positive, if_false, unpackExponent_packComponents]
    have mantissa : unpackMantissa (packed s m) = 0 := by
      simp only [packed, positive, if_false, unpackMantissa_packComponents]
    simp only [UnpackedFloat.unpack, exponent, mantissa, sign, ofBitVec_toBitVec, canonical,
      positive, dif_neg, not_false_eq_true]
    rfl

theorem gap_mul_le {m n : Nat} (first : 0 < m) (second : 0 < n) : gap (m * n) ≤ gap m := by
  have pos := Nat.mul_pos first second
  have log : m.log2 ≤ (m * n).log2 :=
    (Nat.le_log2 (by omega)).mpr
      (Nat.le_trans (Nat.log2_self_le (by omega)) (Nat.le_mul_of_pos_right m second))
  unfold gap
  omega

theorem mul_canonical (s t : Sign) {m n : Nat} (small : m * n < 2 ^ 53) :
    UnpackedFloat.mul Format.binary64 (canonical s m) (canonical t n) = canonical (s * t) (m * n) := by
  by_cases first : 0 < m <;> by_cases second : 0 < n
  · have product := Nat.mul_pos first second
    have enough := gap_mul_le first second
    have mantissa : m * 2 ^ gap m * (n * 2 ^ gap n) = m * n * 2 ^ (gap m + gap n) := by
      rw [Nat.pow_add, Nat.mul_mul_mul_comm]
    have exponent : -(gap m : Int) + -(gap n : Int) = -((gap m + gap n : Nat) : Int) := by omega
    rw [← roundWithAccuracy_exact (s * t) product small (n := gap m + gap n) (by omega),
      ← mantissa, ← exponent]
    simp only [canonical, first, second, dif_pos, UnpackedFloat.mul]
  · obtain rfl : n = 0 := by omega
    simp [canonical, first, UnpackedFloat.mul]
  · obtain rfl : m = 0 := by omega
    simp [canonical, second, UnpackedFloat.mul]
  · obtain rfl : m = 0 := by omega
    obtain rfl : n = 0 := by omega
    simp [canonical, UnpackedFloat.mul]

theorem apply_shift (s : Sign) (m n k : Nat) (enough : n ≤ k) :
    s.apply ((m * 2 ^ n) <<< (k - n) : Nat) = s.apply m * 2 ^ k := by
  have mantissa : (m * 2 ^ n) <<< (k - n) = m * 2 ^ k := by
    rw [Nat.shiftLeft_eq, Nat.mul_assoc, ← Nat.pow_add, Nat.add_sub_cancel' enough]
  have cast : ((m * 2 ^ k : Nat) : Int) = (m : Int) * 2 ^ k := by simp
  rw [mantissa, cast]
  cases s
  · exact (Int.neg_mul ..).symm
  · rfl

theorem add_canonical {s t : Sign} {m n : Nat} (first : 0 < m) (second : 0 < n)
    (small : (s.apply m + t.apply n).natAbs < 2 ^ 53) :
    UnpackedFloat.add Format.binary64 (canonical s m) (canonical t n) =
      canonical (signOf (s.apply m + t.apply n)) (s.apply m + t.apply n).natAbs := by
  have exponent : min (-(gap m : Int)) (-(gap n : Int)) = -((max (gap m) (gap n) : Nat) : Int) := by omega
  have shiftm : (-(gap m : Int) - -((max (gap m) (gap n) : Nat) : Int)).toNat =
      max (gap m) (gap n) - gap m := by
    omega
  have shiftn : (-(gap n : Int) - -((max (gap m) (gap n) : Nat) : Int)).toNat =
      max (gap m) (gap n) - gap n := by
    omega
  rw [← normalize_exact small (max (gap m) (gap n))]
  simp only [canonical, first, second, dif_pos, UnpackedFloat.add, exponent, decreaseExponent, shiftm, shiftn,
    apply_shift s m (gap m) _ (Nat.le_max_left ..), apply_shift t n (gap n) _ (Nat.le_max_right ..),
    Int.add_mul]

theorem sub_canonical {s t : Sign} {m n : Nat} (first : 0 < m) (second : 0 < n)
    (small : (s.apply m - t.apply n).natAbs < 2 ^ 53) :
    UnpackedFloat.sub Format.binary64 (canonical s m) (canonical t n) =
      canonical (signOf (s.apply m - t.apply n)) (s.apply m - t.apply n).natAbs := by
  have exponent : min (-(gap m : Int)) (-(gap n : Int)) = -((max (gap m) (gap n) : Nat) : Int) := by omega
  have shiftm : (-(gap m : Int) - -((max (gap m) (gap n) : Nat) : Int)).toNat =
      max (gap m) (gap n) - gap m := by
    omega
  have shiftn : (-(gap n : Int) - -((max (gap m) (gap n) : Nat) : Int)).toNat =
      max (gap m) (gap n) - gap n := by
    omega
  rw [← normalize_exact small (max (gap m) (gap n))]
  simp only [canonical, first, second, dif_pos, UnpackedFloat.sub, exponent, decreaseExponent, shiftm, shiftn,
    apply_shift s m (gap m) _ (Nat.le_max_left ..), apply_shift t n (gap n) _ (Nat.le_max_right ..),
    Int.sub_mul]

/-- A whole number with its sign. Zero has two of them. -/
def whole (s : Sign) (m : Nat) : Float := .ofModel (.pack (canonical s m))

theorem unpack_whole (s : Sign) {m : Nat} (small : m < 2 ^ 53) :
    (whole s m).toModel.unpack = canonical s m := by
  have bits : (UInt64.ofBitVec (UnpackedFloat.pack Format.binary64 (canonical s m))).toBitVec =
      packed s m := by
    rw [pack_canonical s small]
  rw [whole, Float.Model.unpack, Float.Model.pack, bits, unpack_packed s small]

theorem mul_whole (s t : Sign) {m n : Nat} (smallm : m < 2 ^ 53) (smalln : n < 2 ^ 53)
    (small : m * n < 2 ^ 53) :
    whole s m * whole t n = whole (s * t) (m * n) := by
  change Float.ofModel (.pack (UnpackedFloat.mul _ (whole s m).toModel.unpack (whole t n).toModel.unpack)) = _
  rw [unpack_whole s smallm, unpack_whole t smalln, mul_canonical s t small]
  rfl

/-- The double is a whole number below `2^53` in magnitude. -/
def IsWhole (x : Float) (n : Int) : Prop := ∃ s m, m < 2 ^ 53 ∧ x = whole s m ∧ s.apply m = n

theorem apply_signOf (a : Int) : (signOf a).apply a.natAbs = a := by
  unfold signOf
  split <;> simp only [Sign.apply] <;> omega

theorem isWhole_whole {s : Sign} {m : Nat} (small : m < 2 ^ 53) : IsWhole (whole s m) (s.apply m) :=
  ⟨s, m, small, rfl, rfl⟩

theorem isWhole_signOf {a : Int} (small : a.natAbs < 2 ^ 53) : IsWhole (whole (signOf a) a.natAbs) a :=
  ⟨_, _, small, rfl, apply_signOf a⟩

theorem apply_mul (s t : Sign) (m n : Int) : (s * t).apply (m * n) = s.apply m * t.apply n := by
  cases s <;> cases t
  · exact (Int.neg_mul_neg m n).symm
  · exact (Int.neg_mul m n).symm
  · exact (Int.mul_neg m n).symm
  · rfl

theorem apply_neg (s : Sign) (n : Int) : (-s).apply n = -s.apply n := by
  cases s
  · exact (Int.neg_neg n).symm
  · rfl

theorem natAbs_apply (s : Sign) (m : Nat) : (s.apply m).natAbs = m := by
  cases s <;> simp [Sign.apply]

namespace IsWhole

variable {x y : Float} {a b : Int}

theorem small (isWhole : IsWhole x a) : a.natAbs < 2 ^ 53 := by
  obtain ⟨s, m, small, rfl, rfl⟩ := isWhole
  rwa [natAbs_apply]

theorem mul (left : IsWhole x a) (right : IsWhole y b) (small : (a * b).natAbs < 2 ^ 53) :
    IsWhole (x * y) (a * b) := by
  obtain ⟨s, m, smallm, rfl, rfl⟩ := left
  obtain ⟨t, n, smalln, rfl, rfl⟩ := right
  have magnitude : m * n < 2 ^ 53 := by rwa [Int.natAbs_mul, natAbs_apply, natAbs_apply] at small
  exact ⟨s * t, m * n, magnitude, mul_whole s t smallm smalln magnitude, apply_mul s t m n⟩

/-- A sum is a whole number or, when one side is zero, the other side. -/
theorem add (left : IsWhole x a) (right : IsWhole y b) (small : (a + b).natAbs < 2 ^ 53) :
    IsWhole (x + y) (a + b) := by
  obtain ⟨s, m, smallm, rfl, rfl⟩ := left
  obtain ⟨t, n, smalln, rfl, rfl⟩ := right
  have sum : whole s m + whole t n =
      .ofModel (.pack (UnpackedFloat.add Format.binary64 (canonical s m) (canonical t n))) := by
    change Float.ofModel
      (.pack (UnpackedFloat.add _ (whole s m).toModel.unpack (whole t n).toModel.unpack)) = _
    rw [unpack_whole s smallm, unpack_whole t smalln]
  rw [sum]
  have zero (s : Sign) : s.apply ((0 : Nat) : Int) = 0 := by cases s <;> rfl
  by_cases first : 0 < m <;> by_cases second : 0 < n
  · rw [add_canonical first second small]
    exact isWhole_signOf small
  · obtain rfl : n = 0 := by omega
    rw [zero, Int.add_zero]
    refine ⟨s, m, smallm, ?_, rfl⟩
    simp [canonical, first, UnpackedFloat.add, whole]
  · obtain rfl : m = 0 := by omega
    rw [zero, Int.zero_add]
    refine ⟨t, n, smalln, ?_, rfl⟩
    simp [canonical, second, UnpackedFloat.add, whole]
  · obtain rfl : m = 0 := by omega
    obtain rfl : n = 0 := by omega
    rw [zero, zero]
    refine ⟨if s == t then s else .positive, 0, by omega, ?_, zero _⟩
    cases s <;> cases t <;> rfl

theorem sub (left : IsWhole x a) (right : IsWhole y b) (small : (a - b).natAbs < 2 ^ 53) :
    IsWhole (x - y) (a - b) := by
  obtain ⟨s, m, smallm, rfl, rfl⟩ := left
  obtain ⟨t, n, smalln, rfl, rfl⟩ := right
  have difference : whole s m - whole t n =
      .ofModel (.pack (UnpackedFloat.sub Format.binary64 (canonical s m) (canonical t n))) := by
    change Float.ofModel
      (.pack (UnpackedFloat.sub _ (whole s m).toModel.unpack (whole t n).toModel.unpack)) = _
    rw [unpack_whole s smallm, unpack_whole t smalln]
  rw [difference]
  have zero (s : Sign) : s.apply ((0 : Nat) : Int) = 0 := by cases s <;> rfl
  by_cases first : 0 < m <;> by_cases second : 0 < n
  · rw [sub_canonical first second small]
    exact isWhole_signOf small
  · obtain rfl : n = 0 := by omega
    rw [zero, Int.sub_zero]
    refine ⟨s, m, smallm, ?_, rfl⟩
    simp [canonical, first, UnpackedFloat.sub, whole]
  · obtain rfl : m = 0 := by omega
    rw [zero, Int.zero_sub]
    refine ⟨-t, n, smalln, ?_, apply_neg t n⟩
    simp [canonical, second, UnpackedFloat.sub, whole]
  · obtain rfl : m = 0 := by omega
    obtain rfl : n = 0 := by omega
    rw [zero, zero]
    refine ⟨if s == -t then s else .positive, 0, by omega, ?_, zero _⟩
    cases s <;> cases t <;> rfl

theorem neg (isWhole : IsWhole x a) : IsWhole (-x) (-a) := by
  obtain ⟨s, m, small, rfl, rfl⟩ := isWhole
  have negated : -whole s m = whole (-s) m := by
    change Float.ofModel (.pack (whole s m).toModel.unpack.neg) = _
    rw [unpack_whole s small, whole]
    unfold canonical
    split <;> rfl
  exact ⟨-s, m, small, negated, apply_neg s m⟩

theorem zero_eq : (0.0 : Float) = whole .positive 0 := rfl

theorem one_eq : (1.0 : Float) = whole .positive 1 := rfl

theorem zero : IsWhole 0.0 0 := zero_eq ▸ ⟨.positive, 0, by omega, rfl, rfl⟩

theorem one : IsWhole 1.0 1 := one_eq ▸ ⟨.positive, 1, by omega, rfl, rfl⟩

theorem lt_zero (isWhole : IsWhole x a) : x < 0.0 ↔ a < 0 := by
  obtain ⟨s, m, small, rfl, rfl⟩ := isWhole
  have order : whole s m < 0.0 ↔ (canonical s m).lt (canonical .positive 0) := by
    change decide ((whole s m).toModel < (0.0 : Float).toModel) = true ↔ _
    rw [decide_eq_true_eq]
    change (whole s m).toModel.unpack.lt (0.0 : Float).toModel.unpack = true ↔ _
    rw [zero_eq, unpack_whole s small, unpack_whole .positive (by omega)]
  rw [order]
  by_cases positive : 0 < m
  · cases s <;> simp [canonical, positive, UnpackedFloat.lt, UnpackedFloat.compare, Sign.apply]
  · obtain rfl : m = 0 := by omega
    cases s <;> simp [canonical, UnpackedFloat.lt, UnpackedFloat.compare, Sign.apply]

theorem beq_zero (isWhole : IsWhole x a) : (x == 0.0) = (a == 0) := by
  obtain ⟨s, m, small, rfl, rfl⟩ := isWhole
  have order : (whole s m == 0.0) = (canonical s m).beq (canonical .positive 0) := by
    change (whole s m).toModel.unpack.beq (0.0 : Float).toModel.unpack = _
    rw [zero_eq, unpack_whole s small, unpack_whole .positive (by omega)]
  rw [order]
  by_cases positive : 0 < m
  · cases s <;> simp [canonical, positive, UnpackedFloat.beq, UnpackedFloat.compare, Sign.apply] <;> omega
  · obtain rfl : m = 0 := by omega
    cases s <;> simp [canonical, UnpackedFloat.beq, UnpackedFloat.compare, Sign.apply]

theorem beq_one (isWhole : IsWhole x a) : (x == 1.0) = (a == 1) := by
  obtain ⟨s, m, small, rfl, rfl⟩ := isWhole
  have order : (whole s m == 1.0) = (canonical s m).beq (canonical .positive 1) := by
    change (whole s m).toModel.unpack.beq (1.0 : Float).toModel.unpack = _
    rw [one_eq, unpack_whole s small, unpack_whole .positive (by omega)]
  have one : canonical .positive 1 = .finite .positive (2 ^ 52) (-52) (by decide) := rfl
  rw [order, one]
  by_cases positive : 0 < m
  · cases s
    · simp [canonical, positive, UnpackedFloat.beq, UnpackedFloat.compare, Sign.apply]
      omega
    · have unit : (m * 2 ^ gap m = 2 ^ 52 ∧ gap m = 52) ↔ m = 1 := by
        constructor
        · rintro ⟨mantissa, width⟩
          rw [width] at mantissa
          omega
        · rintro rfl
          exact ⟨rfl, rfl⟩
      simp only [canonical, positive, dif_pos, UnpackedFloat.beq, UnpackedFloat.compare, Sign.apply]
      rw [Bool.eq_iff_iff]
      simp only [beq_iff_eq, Option.some.injEq, Ordering.then_eq_eq]
      rw [Int.compare_eq_eq, Nat.compare_eq_eq]
      omega
  · obtain rfl : m = 0 := by omega
    cases s <;> simp [canonical, UnpackedFloat.beq, UnpackedFloat.compare, Sign.apply]

theorem eq_one (isWhole : IsWhole x 1) : x = 1.0 := by
  obtain ⟨s, m, small, rfl, value⟩ := isWhole
  rw [one_eq]
  cases s with
  | positive => rw [show m = 1 by simpa [Sign.apply] using value]
  | negative =>
    simp only [Sign.apply] at value
    omega

theorem div_one (isWhole : IsWhole x a) : x / 1.0 = x := by
  obtain ⟨s, m, small, rfl, rfl⟩ := isWhole
  have quotient : whole s m / 1.0 = .ofModel
      (.pack (UnpackedFloat.div Format.binary64 (canonical s m) (canonical .positive 1))) := by
    change Float.ofModel
      (.pack (UnpackedFloat.div _ (whole s m).toModel.unpack (1.0 : Float).toModel.unpack)) = _
    rw [one_eq, unpack_whole s small, unpack_whole .positive (by omega)]
  have sign : s / .positive = s := by cases s <;> rfl
  have one : canonical .positive 1 = .finite .positive (2 ^ 52) (-52) (by decide) := rfl
  rw [quotient, whole, one]
  by_cases positive : 0 < m
  · have bits := log2_lt_of_lt positive small
    have exponent : min (-(gap m : Int) - -52)
        (Format.binary64.targetExponent
        (totalExponent (m * 2 ^ gap m) (-(gap m : Int)) - totalExponent (2 ^ 52) (-52))) =
          -((gap m + 1 : Nat) : Int) := by
      have unit : totalExponent (2 ^ 52) (-52) = 1 := by
        rw [totalExponent, Nat.log2_two_pow]
        rfl
      have total : totalExponent (m * 2 ^ gap m) (-(gap m : Int)) = m.log2 + 1 := by
        rw [totalExponent, log2_mul_pow positive]
        omega
      rw [unit, total]
      simp only [Format.targetExponent, Format.mantissaBits, Format.minExponent, gap]
      omega
    have amount : (-(gap m : Int) - -52 - -((gap m + 1 : Nat) : Int)).toNat = 53 := by omega
    have shifted : (m * 2 ^ gap m) <<< 53 = m * 2 ^ (gap m + 1) * 2 ^ 52 := by
      rw [Nat.shiftLeft_eq, Nat.mul_assoc, Nat.mul_assoc, ← Nat.pow_add, ← Nat.pow_add]
    have core : divCore Format.binary64 (m * 2 ^ gap m) (-(gap m : Int)) (2 ^ 52) (-52) =
        (m * 2 ^ (gap m + 1), -((gap m + 1 : Nat) : Int), .exact) := by
      simp only [divCore, exponent, amount, shifted, Nat.mul_mod_left, accuracyOfFraction, if_true]
      rw [Nat.mul_div_cancel _ (by decide)]
    have finite : canonical s m =
        .finite s (m * 2 ^ gap m) (-(gap m : Int)) (Nat.mul_pos positive (Nat.two_pow_pos _)) := by
      simp only [canonical, positive, dif_pos]
    have rounded := roundWithAccuracy_exact s positive small (Nat.le_succ (gap m))
    have divided (h h') : UnpackedFloat.div Format.binary64 (.finite s (m * 2 ^ gap m) (-(gap m : Int)) h)
        (.finite .positive (2 ^ 52) (-52) h') = canonical s m := by
      unfold UnpackedFloat.div
      simp only [core, sign]
      exact rounded
    rw [finite, divided, finite]
  · simp [canonical, positive, UnpackedFloat.div, sign]

end IsWhole

/-- The bits of a number in components. -/
theorem toNat_packComponents (s : Sign) (exponent : BitVec 11) (mantissa : BitVec 52) :
    (packComponents Format.binary64 s exponent mantissa).toNat =
      s.toBitVec.toNat * 2 ^ 63 + exponent.toNat * 2 ^ 52 + mantissa.toNat := by
  have low := mantissa.isLt
  have high := exponent.isLt
  simp only [packComponents, BitVec.toNat_append]
  rw [← Nat.shiftLeft_add_eq_or_of_lt high, ← Nat.shiftLeft_add_eq_or_of_lt low]
  simp only [Nat.shiftLeft_eq]
  omega

theorem ofBits_packComponents (s : Sign) (exponent : BitVec 11) (mantissa : BitVec 52) :
    Binary.ofBits? (UInt64.ofBitVec (packComponents Format.binary64 s exponent mantissa)) =
      if exponent.toNat = 0x7FF then none
      else if exponent.toNat = 0 then some ⟨s == .negative, mantissa.toNat, -1074, false⟩
      else some ⟨s == .negative, twoTo 52 + mantissa.toNat, (exponent.toNat : Int) - 1075,
        mantissa.toNat = 0 && exponent.toNat > 1⟩ := by
  have bits := toNat_packComponents s exponent mantissa
  have low := mantissa.isLt
  have high := exponent.isLt
  have sign := s.toBitVec.isLt
  generalize packComponents Format.binary64 s exponent mantissa = v at bits
  have number : (UInt64.ofBitVec v).toNat = v.toNat := rfl
  have second : (((UInt64.ofBitVec v) >>> 52) &&& 0x7FF).toNat = exponent.toNat := by
    have mask : (0x7FF : UInt64).toNat = 2 ^ 11 - 1 := rfl
    have places : (52 : UInt64).toNat % 64 = 52 := rfl
    rw [UInt64.toNat_and, UInt64.toNat_shiftRight, mask, places, Nat.and_two_pow_sub_one_eq_mod, number, bits,
      Nat.shiftRight_eq_div_pow]
    omega
  have third : ((UInt64.ofBitVec v) &&& 0xFFFFFFFFFFFFF).toNat = mantissa.toNat := by
    have mask : (0xFFFFFFFFFFFFF : UInt64).toNat = 2 ^ 52 - 1 := rfl
    rw [UInt64.toNat_and, mask, Nat.and_two_pow_sub_one_eq_mod, number, bits]
    omega
  have first : ((UInt64.ofBitVec v) >>> 63 == 1) = (s == .negative) := by
    have places : (63 : UInt64).toNat % 64 = 63 := rfl
    have top : ((UInt64.ofBitVec v) >>> 63).toNat = s.toBitVec.toNat := by
      rw [UInt64.toNat_shiftRight, places, number, bits, Nat.shiftRight_eq_div_pow]
      omega
    have top' : (UInt64.ofBitVec v) >>> 63 = UInt64.ofNat s.toBitVec.toNat := by
      rw [← top, UInt64.ofNat_toNat]
    rw [top']
    cases s <;> rfl
  simp only [Binary.ofBits?, first, second, third]

/-- The exact value of a whole number. -/
theorem ofFloat_whole (s : Sign) {m : Nat} (small : m < 2 ^ 53) :
    ∃ narrow, Binary.ofFloat? (whole s m) =
      some ⟨s == .negative, if 0 < m then m * 2 ^ gap m else 0, if 0 < m then
      -(gap m : Int) else -1074, narrow⟩ := by
  have bits : (whole s m).toBits = UInt64.ofBitVec (packed s m) := by
    change UInt64.ofBitVec (UnpackedFloat.pack Format.binary64 (canonical s m)) = _
    rw [pack_canonical s small]
  rw [Binary.ofFloat?, bits, packed, ofBits_packComponents]
  by_cases positive : 0 < m
  · have log := log2_lt_of_lt positive small
    obtain ⟨low, high⟩ := mantissa_bounds positive small
    have exponent : (BitVec.ofNat 11 (1075 - gap m)).toNat = 1075 - gap m := by
      rw [BitVec.toNat_ofNat]
      exact Nat.mod_eq_of_lt (by omega)
    have mantissa : twoTo 52 + (BitVec.ofNat 52 (m * 2 ^ gap m)).toNat = m * 2 ^ gap m := by
      rw [BitVec.toNat_ofNat]
      change 2 ^ 52 + _ = _
      omega
    have finite : 1075 - gap m ≠ 0x7FF := by omega
    have normal : 1075 - gap m ≠ 0 := by
      unfold gap
      omega
    have power : ((1075 - gap m : Nat) : Int) - 1075 = -(gap m : Int) := by
      unfold gap
      omega
    simp only [positive, if_true, exponent, finite, normal, if_false, mantissa, power]
    exact ⟨_, rfl⟩
  · simp only [positive, if_false]
    exact ⟨_, rfl⟩

end Stepwise.Decimal
