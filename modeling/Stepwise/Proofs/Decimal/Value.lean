import Stepwise.Proofs.Decimal.Whole

/-! The rational number that a finite double is. Doubles are ordered as these numbers are, a sign
change and a magnitude are exact, and an operation with zero is. `Exact` says of any other
operation that it was not rounded. -/
namespace Stepwise.Decimal

open Float.Model UnpackedFloat

def Binary.rational (b : Binary) : ℚ := b.signed (b.m * twoTo b.q.toNat) / twoTo (-b.q).toNat

/-- The rational number that a double is. Neither an infinity nor NaN is one. -/
def rational? (x : Float) : Option ℚ := (Binary.ofFloat? x).map Binary.rational

def IsRational (x : Float) (q : ℚ) : Prop := rational? x = some q

instance (x : Float) (q : ℚ) : Decidable (IsRational x q) := inferInstanceAs (Decidable (_ = _))

def dyadic? : UnpackedFloat → Option ℚ
  | .finite s m e _ => some (s.apply m * 2 ^ e)
  | .zero _ => some 0
  | .infinity _ | .notANumber => none

theorem scale_eq (m : ℤ) (q : ℤ) : (m * twoTo q.toNat : ℚ) / twoTo (-q).toNat = m * 2 ^ q := by
  rcases Int.le_total 0 q with up | down
  · obtain ⟨n, rfl⟩ := Int.eq_ofNat_of_zero_le up
    simp [twoTo]
  · obtain ⟨n, hn⟩ := Int.eq_ofNat_of_zero_le (Int.neg_nonneg.mpr down)
    obtain rfl : q = -n := by omega
    simp [twoTo, zpow_neg, div_eq_mul_inv]

theorem Binary.rational_eq (s : Sign) (m : Nat) (q : Int) (narrow : Bool) :
    (⟨s == .negative, m, q, narrow⟩ : Binary).rational = s.apply m * 2 ^ q := by
  rw [← scale_eq, Binary.rational]
  cases s <;> simp [Binary.signed, Sign.apply]

theorem toBitVec_ofBitVec (b : BitVec 1) : (Sign.ofBitVec b).toBitVec = b := by
  revert b
  decide

theorem packComponents_unpack (v : BitVec 64) :
    packComponents Format.binary64 (Sign.ofBitVec (@unpackSign Format.binary64 v))
      (@unpackExponent Format.binary64 v) (@unpackMantissa Format.binary64 v) = v := by
  apply BitVec.eq_of_toNat_eq
  rw [toNat_packComponents, toBitVec_ofBitVec]
  simp only [unpackSign, unpackExponent, unpackMantissa, BitVec.toNat_cast, BitVec.extractLsb_toNat,
    Nat.shiftRight_eq_div_pow]
  have := v.isLt
  omega

/-- What a mantissa of 53 bits and an exponent spell, or a shorter mantissa at the least exponent. -/
def Regular : UnpackedFloat → Prop
  | .finite _ m e _ => m < 2 ^ 53 ∧ -1074 ≤ e ∧ e ≤ 971 ∧ (2 ^ 52 ≤ m ∨ e = -1074)
  | _ => True

theorem Regular.abs {u : UnpackedFloat} (regular : Regular u) : Regular u.abs := by
  cases u <;> exact regular

theorem whole_mantissa (b : BitVec 52) : (1#1 ++ b).toNat = 2 ^ 52 + b.toNat := by
  rw [BitVec.toNat_append, ← Nat.shiftLeft_add_eq_or_of_lt b.isLt]
  rfl

/-- The components of a double and what they spell. -/
theorem unpack_packComponents (s : Sign) (exponent : BitVec 11) (mantissa : BitVec 52) :
    Regular (UnpackedFloat.unpack Format.binary64 (packComponents Format.binary64 s exponent mantissa)) ∧
      (Binary.ofBits? (UInt64.ofBitVec (packComponents Format.binary64 s exponent mantissa))).map
      Binary.rational =
        dyadic? (UnpackedFloat.unpack Format.binary64
        (packComponents Format.binary64 s exponent mantissa)) := by
  have sign : unpackSign (packComponents Format.binary64 s exponent mantissa) = s.toBitVec :=
    unpackSign_packComponents
  have bound := exponent.isLt
  have small := mantissa.isLt
  have last : exponent = -1#_ ↔ exponent.toNat = 0x7FF := by
    rw [← BitVec.toNat_inj]
    rfl
  have first : exponent = 0#_ ↔ exponent.toNat = 0 := by
    rw [← BitVec.toNat_inj]
    rfl
  have none : mantissa = 0#_ ↔ mantissa.toNat = 0 := by
    rw [← BitVec.toNat_inj]
    rfl
  have bias : Format.binary64.exponentBias = 1023 := rfl
  rw [ofBits_packComponents]
  simp only [UnpackedFloat.unpack, unpackExponent_packComponents, unpackMantissa_packComponents,
    sign, ofBitVec_toBitVec]
  by_cases infinite : exponent.toNat = 0x7FF
  · rw [if_pos infinite, if_pos (last.mpr infinite)]
    split <;> exact ⟨trivial, rfl⟩
  · rw [if_neg infinite, if_neg (mt last.mp infinite)]
    by_cases subnormal : exponent.toNat = 0
    · rw [if_pos subnormal, if_pos (first.mpr subnormal)]
      simp only [Option.map_some, Binary.rational_eq]
      by_cases zero : mantissa.toNat = 0
      · rw [dif_pos (none.mpr zero)]
        refine ⟨trivial, ?_⟩
        cases s <;> simp [dyadic?, zero, Sign.apply]
      · rw [dif_neg (mt none.mp zero)]
        simp only [Regular, dyadic?, subnormal, bias]
        refine ⟨⟨by omega, by norm_num, by norm_num, .inr (by norm_num)⟩, by norm_num⟩
    · rw [if_neg subnormal, if_neg (mt first.mp subnormal)]
      simp only [Regular, dyadic?, whole_mantissa, Option.map_some, Binary.rational_eq, bias]
      refine ⟨⟨by omega, by omega, by omega, .inl (by omega)⟩, ?_⟩
      rfl

theorem regular_unpack (x : Float) : Regular x.toModel.unpack := by
  have spelled := unpack_packComponents (Sign.ofBitVec (@unpackSign Format.binary64 x.toBits.toBitVec))
    (@unpackExponent Format.binary64 x.toBits.toBitVec) (@unpackMantissa Format.binary64 x.toBits.toBitVec)
  rw [packComponents_unpack] at spelled
  exact spelled.1

theorem rational_eq (x : Float) : rational? x = dyadic? x.toModel.unpack := by
  have spelled := unpack_packComponents (Sign.ofBitVec (@unpackSign Format.binary64 x.toBits.toBitVec))
    (@unpackExponent Format.binary64 x.toBits.toBitVec) (@unpackMantissa Format.binary64 x.toBits.toBitVec)
  rw [packComponents_unpack] at spelled
  exact spelled.2

/-- Nothing is lost when a number of this form is packed. -/
theorem unpack_pack {u : UnpackedFloat} (regular : Regular u) :
    UnpackedFloat.unpack Format.binary64 (UnpackedFloat.pack Format.binary64 u) = u := by
  cases u with
  | notANumber => rfl
  | infinity s => cases s <;> rfl
  | zero s => cases s <;> rfl
  | finite s m e positive =>
    obtain ⟨small, low, high, full⟩ := regular
    have bias : Format.binary64.exponentBias = 1023 := rfl
    have biased : (e + (Format.binary64.exponentBias : Int) + (52 : Nat)).toNat = (e + 1075).toNat := by
      rw [bias]
      congr 1
      omega
    have finite : ¬ 2 ^ 11 ≤ (e + 1075).toNat + 1 := by omega
    have width : Format.binary64.mantissaBits = 53 := rfl
    have sign (exponent mantissa) :
        unpackSign (packComponents Format.binary64 s exponent mantissa) = s.toBitVec :=
      unpackSign_packComponents
    simp only [UnpackedFloat.pack, biased, finite, if_false, width]
    by_cases normal : 2 ^ 52 ≤ m
    · have log : m.log2 + 1 = 53 := by
        have := (Nat.log2_eq_iff (n := m) (k := 52) (by omega)).mpr ⟨normal, small⟩
        omega
      rw [if_pos log]
      have value : (BitVec.ofNat 11 (e + 1075).toNat).toNat = (e + 1075).toNat := by
        rw [BitVec.toNat_ofNat]
        exact Nat.mod_eq_of_lt (by omega)
      have last : BitVec.ofNat 11 (e + 1075).toNat ≠ -1#_ := fun equal => by
        have := congrArg BitVec.toNat equal
        rw [value] at this
        simp at this
        omega
      have first : BitVec.ofNat 11 (e + 1075).toNat ≠ 0#_ := fun equal => by
        have := congrArg BitVec.toNat equal
        rw [value] at this
        simp at this
        omega
      have mantissa : (1#1 ++ BitVec.ofNat 52 m).toNat = m := by
        rw [whole_mantissa, BitVec.toNat_ofNat]
        omega
      simp only [UnpackedFloat.unpack, unpackExponent_packComponents, unpackMantissa_packComponents,
        sign, ofBitVec_toBitVec]
      rw [if_neg last, if_neg first]
      simp only [value, mantissa, bias]
      congr 1
      omega
    · have log : ¬ m.log2 + 1 = 53 :=
        fun log => normal ((Nat.log2_eq_iff (n := m) (k := 52) (by omega)).mp (by omega)).1
      obtain rfl : e = -1074 := full.resolve_left normal
      rw [if_neg log]
      have value : (BitVec.ofNat 52 m).toNat = m := by
        rw [BitVec.toNat_ofNat]
        exact Nat.mod_eq_of_lt (by omega)
      have present : BitVec.ofNat 52 m ≠ 0#_ := fun equal => by
        have := congrArg BitVec.toNat equal
        rw [value] at this
        simp at this
        omega
      simp only [UnpackedFloat.unpack, unpackExponent_packComponents, unpackMantissa_packComponents,
        sign, ofBitVec_toBitVec]
      rw [if_neg (by decide), if_pos trivial, dif_neg present]
      simp only [value, bias]
      congr 1

theorem toModel_pack {u : UnpackedFloat} (regular : Regular u) :
    (Float.ofModel (.pack u)).toModel.unpack = u :=
  unpack_pack regular

theorem rational_pack {u : UnpackedFloat} (regular : Regular u) :
    rational? (.ofModel (.pack u)) = dyadic? u := by
  rw [rational_eq, toModel_pack regular]

/-- Of two numbers of this form the one with the greater exponent is greater. -/
theorem scaled_lt {m n : Nat} {e f : Int} (short : m < 2 ^ 53) (full : 2 ^ 52 ≤ n) (below : e < f) :
    (m * 2 ^ e : ℚ) < n * 2 ^ f := by
  have power : (0 : ℚ) < 2 ^ e := by positivity
  have step : (2 : ℚ) ^ e * 2 ≤ 2 ^ f := by
    rw [← zpow_add_one₀ (by norm_num)]
    exact zpow_le_zpow_right₀ (by norm_num) below
  have upper : (m : ℚ) < 2 ^ 53 := by exact_mod_cast short
  have lower : (2 ^ 52 : ℚ) ≤ n := by exact_mod_cast full
  calc (m * 2 ^ e : ℚ) < 2 ^ 53 * 2 ^ e := by gcongr
    _ = 2 ^ 52 * (2 ^ e * 2) := by ring
    _ ≤ n * 2 ^ f := by gcongr

/-- Numbers of this form are ordered by their exponents first. -/
theorem compare_magnitudes {m n : Nat} {e f : Int} (first : m < 2 ^ 53)
    (second : n < 2 ^ 53) (least : -1074 ≤ e) (least' : -1074 ≤ f) (full : 2 ^ 52 ≤ m ∨ e = -1074)
    (full' : 2 ^ 52 ≤ n ∨ f = -1074) :
    (compare e f).then (compare m n) = compare (m * 2 ^ e : ℚ) (n * 2 ^ f) := by
  have power : (0 : ℚ) < 2 ^ e := by positivity
  rcases lt_trichotomy e f with below | same | above
  · have order : (m * 2 ^ e : ℚ) < n * 2 ^ f := scaled_lt first (by omega) below
    rw [compare_lt_iff_lt.mpr below, compare_lt_iff_lt.mpr order]
    rfl
  · subst same
    rw [compare_eq_iff_eq.mpr rfl]
    change compare m n = _
    rcases lt_trichotomy m n with below | same | above
    · rw [compare_lt_iff_lt.mpr below, compare_lt_iff_lt.mpr (by gcongr)]
    · rw [compare_eq_iff_eq.mpr same, compare_eq_iff_eq.mpr (by rw [same])]
    · rw [compare_gt_iff_gt.mpr above, compare_gt_iff_gt.mpr (by gcongr)]
  · have order : (n * 2 ^ f : ℚ) < m * 2 ^ e := scaled_lt second (by omega) above
    rw [compare_gt_iff_gt.mpr above, compare_gt_iff_gt.mpr order]
    rfl

theorem swap_compare (p q : ℚ) : (compare p q).swap = compare (-p) (-q) := by
  rcases lt_trichotomy p q with below | rfl | above
  · rw [compare_lt_iff_lt.mpr below, compare_gt_iff_gt.mpr (neg_lt_neg below)]
    rfl
  · rw [compare_eq_iff_eq.mpr rfl, compare_eq_iff_eq.mpr rfl]
    rfl
  · rw [compare_gt_iff_gt.mpr above, compare_lt_iff_lt.mpr (neg_lt_neg above)]
    rfl

/-- Doubles are compared as the rational numbers they are. -/
theorem compare_eq {u v : UnpackedFloat} {p q : ℚ} (first : Regular u) (second : Regular v)
    (left : dyadic? u = some p) (right : dyadic? v = some q) :
    UnpackedFloat.compare u v = some (compare p q) := by
  cases u with
  | notANumber => simp [dyadic?] at left
  | infinity s => simp [dyadic?] at left
  | zero s =>
    obtain rfl : 0 = p := by simpa [dyadic?] using left
    cases v with
    | notANumber => simp [dyadic?] at right
    | infinity t => simp [dyadic?] at right
    | zero t =>
      obtain rfl : 0 = q := by simpa [dyadic?] using right
      simp [UnpackedFloat.compare]
    | finite t n f positive =>
      obtain rfl := Option.some.inj right
      have magnitude : (0 : ℚ) < n * 2 ^ f := by positivity
      cases t
      · simp [UnpackedFloat.compare, Sign.apply, compare_gt_iff_gt.mpr (neg_lt_zero.mpr magnitude)]
      · simp [UnpackedFloat.compare, Sign.apply, compare_lt_iff_lt.mpr magnitude]
  | finite s m e positive =>
    obtain rfl := Option.some.inj left
    have magnitude : (0 : ℚ) < m * 2 ^ e := by positivity
    cases v with
    | notANumber => simp [dyadic?] at right
    | infinity t => simp [dyadic?] at right
    | zero t =>
      obtain rfl : 0 = q := by simpa [dyadic?] using right
      cases s
      · simp [UnpackedFloat.compare, Sign.apply, compare_lt_iff_lt.mpr (neg_lt_zero.mpr magnitude)]
      · simp [UnpackedFloat.compare, Sign.apply, compare_gt_iff_gt.mpr magnitude]
    | finite t n f positive' =>
      obtain rfl := Option.some.inj right
      have magnitude' : (0 : ℚ) < n * 2 ^ f := by positivity
      have magnitudes := compare_magnitudes first.1 second.1 first.2.1 second.2.1 first.2.2.2 second.2.2.2
      cases s <;> cases t
      · simp [UnpackedFloat.compare, magnitudes, swap_compare, Sign.apply]
      · have order : (-(m * 2 ^ e) : ℚ) < n * 2 ^ f := by linarith
        simp [UnpackedFloat.compare, Sign.apply, compare_lt_iff_lt.mpr order]
      · have order : (-(n * 2 ^ f) : ℚ) < m * 2 ^ e := by linarith
        simp [UnpackedFloat.compare, Sign.apply, compare_gt_iff_gt.mpr order]
      · simp [UnpackedFloat.compare, magnitudes, Sign.apply]

namespace IsRational

variable {x y : Float} {p q : ℚ}

theorem unique (first : IsRational x p) (second : IsRational x q) : p = q :=
  Option.some.inj (first.symm.trans second)

theorem spelled (value : IsRational x p) : dyadic? x.toModel.unpack = some p := rational_eq x ▸ value

theorem compare (left : IsRational x p) (right : IsRational y q) :
    UnpackedFloat.compare x.toModel.unpack y.toModel.unpack = some (compare p q) :=
  compare_eq (regular_unpack x) (regular_unpack y) left.spelled right.spelled

theorem lt (left : IsRational x p) (right : IsRational y q) : x < y ↔ p < q := by
  change decide (x.toModel < y.toModel) = true ↔ _
  rw [decide_eq_true_eq]
  change x.toModel.unpack.lt y.toModel.unpack = true ↔ _
  rw [UnpackedFloat.lt, left.compare right]
  simp [compare_lt_iff_lt]

theorem beq (left : IsRational x p) (right : IsRational y q) : (x == y) = decide (p = q) := by
  change x.toModel.unpack.beq y.toModel.unpack = _
  rw [UnpackedFloat.beq, left.compare right]
  rw [Bool.eq_iff_iff]
  simp

theorem beq_iff (left : IsRational x p) (right : IsRational y q) : x == y ↔ p = q := by
  rw [left.beq right, decide_eq_true_eq]

theorem pack {u : UnpackedFloat} (regular : Regular u) (value : dyadic? u = some p) :
    IsRational (.ofModel (.pack u)) p := (rational_pack regular).trans value

theorem neg (value : IsRational x p) : IsRational (-x) (-p) := by
  have spelled := value.spelled
  have regular := regular_unpack x
  change IsRational (.ofModel (.pack x.toModel.unpack.neg)) (-p)
  generalize x.toModel.unpack = u at spelled regular
  cases u with
  | notANumber => cases spelled
  | infinity s => cases spelled
  | zero s =>
    obtain rfl : 0 = p := Option.some.inj spelled
    exact pack trivial (by rw [neg_zero]; rfl)
  | finite s m e positive =>
    obtain rfl := Option.some.inj spelled
    exact pack regular (congrArg some (by rw [apply_neg]; push_cast; ring))

theorem abs (value : IsRational x p) : IsRational x.abs |p| := by
  have spelled := value.spelled
  have regular := regular_unpack x
  change IsRational (.ofModel (.pack x.toModel.unpack.abs)) |p|
  generalize x.toModel.unpack = u at spelled regular
  cases u with
  | notANumber => cases spelled
  | infinity s => cases spelled
  | zero s =>
    obtain rfl : 0 = p := Option.some.inj spelled
    exact pack trivial (by rw [abs_zero]; rfl)
  | finite s m e positive =>
    obtain rfl := Option.some.inj spelled
    have power : (0 : ℚ) < 2 ^ e := by positivity
    refine pack regular (congrArg some ?_)
    rw [abs_mul, abs_of_pos power]
    cases s <;> simp [Sign.apply]

/-- Only a zero is zero. -/
theorem zero_iff : IsRational x 0 ↔ ∃ s, x.toModel.unpack = .zero s := by
  rw [IsRational, rational_eq]
  generalize x.toModel.unpack = u
  cases u with
  | notANumber => simp [dyadic?]
  | infinity s => simp [dyadic?]
  | zero s => simp [dyadic?]
  | finite s m e positive =>
    have power : (2 : ℚ) ^ e ≠ 0 := by positivity
    cases s <;> simp [dyadic?, Sign.apply, power] <;> omega

theorem add_zero (value : IsRational x p) (zero : IsRational y 0) : IsRational (x + y) p := by
  obtain ⟨t, unpacked⟩ := zero_iff.mp zero
  have spelled := value.spelled
  have regular := regular_unpack x
  change IsRational (.ofModel (.pack (UnpackedFloat.add _ x.toModel.unpack y.toModel.unpack))) p
  rw [unpacked]
  generalize x.toModel.unpack = u at spelled regular
  cases u with
  | notANumber => cases spelled
  | infinity s => cases spelled
  | zero s =>
    cases s <;> cases t <;> exact pack trivial spelled
  | finite s m e positive => exact pack regular spelled

theorem zero_add (zero : IsRational x 0) (value : IsRational y q) : IsRational (x + y) q := by
  obtain ⟨t, unpacked⟩ := zero_iff.mp zero
  have spelled := value.spelled
  have regular := regular_unpack y
  change IsRational (.ofModel (.pack (UnpackedFloat.add _ x.toModel.unpack y.toModel.unpack))) q
  rw [unpacked]
  generalize y.toModel.unpack = u at spelled regular
  cases u with
  | notANumber => cases spelled
  | infinity s => cases spelled
  | zero s =>
    cases s <;> cases t <;> exact pack trivial spelled
  | finite s m e positive => exact pack regular spelled

theorem mul_zero (value : IsRational x p) (zero : IsRational y 0) : IsRational (x * y) 0 := by
  obtain ⟨t, unpacked⟩ := zero_iff.mp zero
  have spelled := value.spelled
  change IsRational (.ofModel (.pack (UnpackedFloat.mul _ x.toModel.unpack y.toModel.unpack))) 0
  rw [unpacked]
  generalize x.toModel.unpack = u at spelled
  cases u with
  | notANumber => cases spelled
  | infinity s => cases spelled
  | zero s => exact pack trivial rfl
  | finite s m e positive => exact pack trivial rfl

theorem zero_mul (zero : IsRational x 0) (value : IsRational y q) : IsRational (x * y) 0 := by
  obtain ⟨t, unpacked⟩ := zero_iff.mp zero
  have spelled := value.spelled
  change IsRational (.ofModel (.pack (UnpackedFloat.mul _ x.toModel.unpack y.toModel.unpack))) 0
  rw [unpacked]
  generalize y.toModel.unpack = u at spelled
  cases u with
  | notANumber => cases spelled
  | infinity s => cases spelled
  | zero s => exact pack trivial rfl
  | finite s m e positive => exact pack trivial rfl

theorem isFinite (value : IsRational x p) : isFinite x := by
  unfold IsRational rational? at value
  cases read : Binary.ofFloat? x with
  | none => simp [read] at value
  | some b => simp [Decimal.isFinite, read]

end IsRational

theorem isRational_of_isFinite {x : Float} (finite : isFinite x) : ∃ p, IsRational x p := by
  obtain ⟨b, read⟩ := Option.isSome_iff_exists.mp finite
  exact ⟨b.rational, by simp [IsRational, rational?, read]⟩

theorem IsRational.of_neg {x : Float} {p : ℚ} (value : IsRational (-x) p) : IsRational x (-p) := by
  have finite : Decimal.isFinite x := by
    by_contra infinite
    change rational? (.ofModel (.pack x.toModel.unpack.neg)) = some p at value
    have spelled := rational_eq x
    cases unpacked : x.toModel.unpack with
    | notANumber =>
      rw [unpacked] at value
      cases value.symm.trans (rational_pack trivial)
    | infinity s =>
      rw [unpacked] at value
      cases value.symm.trans (rational_pack trivial)
    | zero s =>
      rw [unpacked] at spelled
      exact infinite (IsRational.isFinite (p := 0) spelled)
    | finite s m e positive =>
      rw [unpacked] at spelled
      exact infinite (IsRational.isFinite spelled)
  obtain ⟨q, known⟩ := isRational_of_isFinite finite
  rw [← known.neg.unique value, neg_neg]
  exact known

theorem IsWhole.isRational {x : Float} {a : Int} (isWhole : IsWhole x a) : IsRational x a := by
  obtain ⟨b, read, denotes⟩ := isWhole.binary
  have power : ((twoTo (-b.q).toNat : ℕ) : ℚ) ≠ 0 := by
    have := twoTo_pos (-b.q).toNat
    exact_mod_cast this.ne'
  have value : b.signed (b.m * twoTo b.q.toNat) = a * (twoTo (-b.q).toNat : Int) := by
    have sign := denotes.sign
    rw [denotes.magnitude]
    unfold Binary.signed at sign ⊢
    split at sign
    · next negative => rw [if_pos negative, Int.natCast_mul, ← Int.neg_mul, ← sign]
    · next positive => rw [if_neg positive, Int.natCast_mul, ← sign]
  rw [IsRational, rational?, read, Option.map_some, Binary.rational, value]
  push_cast
  rw [mul_div_cancel_right₀ _ power]

theorem IsRational.zero : IsRational 0.0 0 := by exact_mod_cast IsWhole.zero.isRational

theorem IsRational.one : IsRational 1.0 1 := by exact_mod_cast IsWhole.one.isRational

/-- An operation on doubles that did what the operation on their values does. -/
def Unrounded (op : ℚ → ℚ → ℚ) (x y z : Float) : Prop :=
  ∃ p ∈ rational? x, ∃ q ∈ rational? y, IsRational z (op p q)

instance (op : ℚ → ℚ → ℚ) (x y z : Float) : Decidable (Unrounded op x y z) :=
  inferInstanceAs (Decidable (∃ p ∈ rational? x, ∃ q ∈ rational? y, IsRational z (op p q)))

theorem Unrounded.value {op : ℚ → ℚ → ℚ} {x y z : Float} {p q : ℚ} (exact : Unrounded op x y z)
    (left : IsRational x p) (right : IsRational y q) : IsRational z (op p q) := by
  obtain ⟨_, first, _, second, value⟩ := exact
  obtain rfl := left.unique first
  obtain rfl := right.unique second
  exact value

end Stepwise.Decimal
