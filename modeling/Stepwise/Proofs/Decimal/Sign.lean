import Stepwise.Proofs.Decimal.Written

/-! Taking the sign off a number. A double is known by the number it is, unless that is zero. Main
statements: taking a number from zero gives the number with the other sign, exactly, and the text of
a negated double is that of the double with a minus sign in front, unless the double is written
0. -/
namespace Stepwise.Decimal

open Float.Model UnpackedFloat

theorem pack_subnormal (s : Sign) {mantissa : BitVec 52} (positive : 0 < mantissa.toNat) {e : Int}
    (least : e = -1074) :
    UnpackedFloat.pack Format.binary64 (.finite s mantissa.toNat e positive) =
      packComponents Format.binary64 s 0#11 mantissa := by
  subst least
  have short : ¬ mantissa.toNat.log2 + 1 = Format.binary64.mantissaBits := fun long => by
    have bits : Format.binary64.mantissaBits = 53 := rfl
    have full := (Nat.le_log2 (k := 52) (by omega)).mp (by omega : 52 ≤ mantissa.toNat.log2)
    have small := mantissa.isLt
    omega
  simp only [UnpackedFloat.pack]
  rw [if_neg (by decide), if_neg short, BitVec.ofNat_toNat, BitVec.setWidth_eq]

theorem pack_normal (s : Sign) {exponent : BitVec 11} {mantissa : BitVec 52}
    (last : exponent.toNat ≠ 2 ^ 11 - 1) (positive : 0 < (1#1 ++ mantissa).toNat) {e : Int}
    (biased : e = exponent.toNat - 1075) :
    UnpackedFloat.pack Format.binary64 (.finite s (1#1 ++ mantissa).toNat e positive) =
      packComponents Format.binary64 s exponent mantissa := by
  subst biased
  have small := mantissa.isLt
  have bound := exponent.isLt
  have whole := whole_mantissa mantissa
  have full : (1#1 ++ mantissa).toNat.log2 + 1 = Format.binary64.mantissaBits :=
    congrArg (· + 1) ((Nat.log2_eq_iff (n := (1#1 ++ mantissa).toNat) (k := 52) (by omega)).mpr
      ⟨by omega, by omega⟩)
  have back : ((exponent.toNat : Int) - 1075 + (Format.binary64.exponentBias : Nat) +
      (Format.binary64.mantissaBitsWithoutImplicit : Nat)).toNat = exponent.toNat := by
    have bias : ((Format.binary64.exponentBias : Nat) : Int) = 1023 := rfl
    have width : ((Format.binary64.mantissaBitsWithoutImplicit : Nat) : Int) = 52 := rfl
    omega
  have stored : BitVec.ofNat 52 (1#1 ++ mantissa).toNat = mantissa := by
    apply BitVec.eq_of_toNat_eq
    rw [BitVec.toNat_ofNat, whole]
    omega
  have finite : ¬ 2 ^ Format.binary64.exponentBits ≤ exponent.toNat + 1 := by
    change ¬ 2 ^ 11 ≤ exponent.toNat + 1
    omega
  simp only [UnpackedFloat.pack]
  rw [back, if_neg finite, if_pos full, stored, BitVec.ofNat_toNat, BitVec.setWidth_eq]

/-- Packing what a double spells gives its bits back. -/
theorem pack_unpack {v : BitVec 64} (valid : Format.binary64.Valid v) :
    UnpackedFloat.pack Format.binary64 (UnpackedFloat.unpack Format.binary64 v) = v := by
  have bias : ((Format.binary64.exponentBias : Nat) : Int) = 1023 := rfl
  have width : ((Format.binary64.mantissaBitsWithoutImplicit : Nat) : Int) = 52 := rfl
  have components {exponent : BitVec 11} {mantissa : BitVec 52}
      (first : @unpackExponent Format.binary64 v = exponent)
      (second : @unpackMantissa Format.binary64 v = mantissa) :
      packComponents Format.binary64 (Sign.ofBitVec (@unpackSign Format.binary64 v)) exponent
        mantissa = v :=
    first ▸ second ▸ packComponents_unpack v
  rw [UnpackedFloat.unpack]
  split
  · next last =>
    split
    · next none => exact components last none
    · next nonzero => exact (valid.eq_packedNaN last nonzero).symm
  · next last =>
    split
    · next first =>
      split
      · next none => exact components first none
      · next nonzero =>
        refine (pack_subnormal _ _ ?_).trans (components first rfl)
        have none : (@unpackExponent Format.binary64 v).toNat = 0 := by rw [first]; rfl
        omega
    · refine (pack_normal _ (fun same => last (BitVec.toNat_inj.mp (by simpa using same)))
        _ ?_).trans (components rfl rfl)
      omega

/-- A double is known by what it spells. -/
theorem eq_of_unpack {x y : Float} (same : x.toModel.unpack = y.toModel.unpack) : x = y := by
  obtain ⟨⟨bits, valid⟩⟩ := x
  obtain ⟨⟨bits', valid'⟩⟩ := y
  have packed := congrArg (UnpackedFloat.pack Format.binary64) same
  have equal : bits.toBitVec = bits'.toBitVec :=
    (pack_unpack valid).symm.trans (packed.trans (pack_unpack valid'))
  obtain rfl := UInt64.toBitVec_inj.mp equal
  rfl

namespace IsRational

variable {x y : Float} {p : ℚ}

/-- Doubles that are the same number are the same, unless the number is zero. -/
theorem eq_of_ne_zero (left : IsRational x p) (right : IsRational y p) (nonzero : p ≠ 0) : x = y := by
  obtain ⟨s, m, e, positive, unpacked, short, low, -, full, spelled⟩ := left.unpack_of_ne_zero nonzero
  obtain ⟨t, n, f, positive', unpacked', short', low', -, full', spelled'⟩ := right.unpack_of_ne_zero nonzero
  have magnitude : (m : ℚ) * 2 ^ e = n * 2 ^ f := by
    rw [← abs_signed s (t := (m : ℚ) * 2 ^ e) (by positivity), ← spelled, spelled',
      abs_signed t (by positivity)]
  have above : ¬ e < f := fun below =>
    absurd magnitude (scaled_lt short (full'.resolve_right (by omega)) below).ne
  have below : ¬ f < e := fun above =>
    absurd magnitude (scaled_lt short' (full.resolve_right (by omega)) above).ne'
  obtain rfl : e = f := by omega
  have power : (2 : ℚ) ^ e ≠ 0 := by positivity
  obtain rfl : m = n := by exact_mod_cast mul_right_cancel₀ power magnitude
  have signs : ((s.apply 1 : Int) : ℚ) = (t.apply 1 : Int) := by
    have size : (m : ℚ) * 2 ^ e ≠ 0 := mul_ne_zero (by exact_mod_cast positive.ne') power
    exact mul_right_cancel₀ size (spelled.symm.trans spelled')
  obtain rfl : s = t := by
    cases s <;> cases t <;> first | rfl | norm_num [Sign.apply] at signs
  exact eq_of_unpack (unpacked.trans unpacked'.symm)

/-- Multiplying by one is exact, also when the one has a sign. -/
theorem mul_unit (value : IsRational x p) {w : Float} {t : Sign} (units : 0 < 2 ^ 52)
    (unit : w.toModel.unpack = .finite t (2 ^ 52) (-52) units) :
    IsRational (x * w) ((t.apply 1 : Int) * p) := by
  by_cases nonzero : p = 0
  · subst nonzero
    rw [MulZeroClass.mul_zero]
    refine value.zero_mul (q := (t.apply (2 ^ 52 : Nat) : Int) * 2 ^ (-52 : Int)) ?_
    rw [IsRational, rational_eq, unit]
    rfl
  obtain ⟨s, m, e, positive, unpacked, short, low, high, full, spelled⟩ := value.unpack_of_ne_zero nonzero
  have product : x * w =
    .ofModel (.pack (UnpackedFloat.mul Format.binary64 x.toModel.unpack w.toModel.unpack)) := rfl
  have rounded : UnpackedFloat.mul Format.binary64 (.finite s m e positive) (.finite t (2 ^ 52) (-52) units) =
      roundWithAccuracy Format.binary64 (s * t) (m * 2 ^ 52) (e + -52) .exact := rfl
  have there : place (m * 2 ^ 52) (e + -52) = e := by
    have log : m.log2 < 53 := log2_lt_of_lt positive short
    have full : 52 ≤ m.log2 ∨ e = -1074 := full.imp_left (Nat.le_log2 (by omega)).mpr
    rw [place, log2_mul_pow positive]
    push_cast
    omega
  have amount : (e - (e + -52)).toNat = 52 := by omega
  obtain ⟨r, -, -, kept, canonical, settled⟩ :=
    roundWithAccuracy_value (s * t) .exact (m := m * 2 ^ 52) (e := e + -52) (by rw [there]; omega)
  rw [there, amount] at kept
  rw [there] at settled
  obtain rfl : r = m := by rw [kept rfl (Nat.dvd_mul_left ..), Nat.mul_div_cancel _ (by decide)]
  have result : (((s * t).apply r : Int) : ℚ) * 2 ^ e = (t.apply 1 : Int) * p := by
    rw [spelled, apply_eq, show (s * t).apply 1 = t.apply 1 * s.apply 1 by cases s <;> cases t <;> rfl]
    push_cast
    ring
  rw [result] at settled
  rw [product, unpacked, unit, rounded]
  refine .pack (canonical.regular_of_lt settled ?_) settled
  rw [abs_mul, spelled, abs_signed s (by positivity),
    show |((t.apply 1 : Int) : ℚ)| = 1 by cases t <;> norm_num [Sign.apply], one_mul]
  calc (r : ℚ) * 2 ^ e < 2 ^ (53 : Int) * 2 ^ e := by
        gcongr
        exact_mod_cast short
    _ ≤ 2 ^ (53 : Int) * 2 ^ (971 : Int) := by
        gcongr
        norm_num
    _ = 2 ^ (1024 : Int) := (zpow_add₀ (by norm_num) 53 971).symm

theorem mul_minus_one (value : IsRational x p) : IsRational (x * (-1.0)) (-p) := by
  have product := value.mul_unit (t := .negative) (by decide) (show (-1.0 : Float).toModel.unpack = _ by rfl)
  simpa [Sign.apply] using product

theorem mul_one (value : IsRational x p) : IsRational (x * 1.0) p := by
  have product := value.mul_unit (t := .positive) (by decide) (show (1.0 : Float).toModel.unpack = _ by rfl)
  simpa [Sign.apply] using product

/-- Zero less a number is the number with the other sign. -/
theorem zero_less (value : IsRational x p) (nonzero : p ≠ 0) : 0.0 + x * (-1.0) = -x :=
  (zero_add zero value.mul_minus_one).eq_of_ne_zero value.neg (neg_ne_zero.mpr nonzero)

/-- A number below zero is whole as a number below zero. -/
theorem whole_neg (value : IsRational x p) (negative : p < 0) {k : Int}
    (whole : toWhole? x = some k) : k < 0 := by
  unfold IsRational rational? at value
  obtain ⟨b, read, rfl⟩ := Option.map_eq_some_iff.mp value
  simp only [toWhole?, read, Option.bind_some] at whole
  split at whole
  · obtain rfl := Option.some.inj whole
    have below : b.signed (b.m * twoTo b.q.toNat) < 0 := by
      by_contra above
      refine absurd negative (not_lt.mpr ?_)
      have above : (0 : ℚ) ≤ b.signed (b.m * twoTo b.q.toNat) := by exact_mod_cast not_lt.mp above
      exact div_nonneg above (by positivity)
    exact Int.fdiv_neg_of_neg_of_pos below (by exact_mod_cast twoTo_pos _)
  · cases whole

end IsRational

theorem product_comm (x y : Float) : x * y = y * x := by
  change Float.ofModel (.pack (UnpackedFloat.mul Format.binary64 x.toModel.unpack y.toModel.unpack)) =
    .ofModel (.pack (UnpackedFloat.mul Format.binary64 y.toModel.unpack x.toModel.unpack))
  generalize x.toModel.unpack = u, y.toModel.unpack = v
  have signs (s t : Sign) : s * t = t * s := by cases s <;> cases t <;> rfl
  cases u <;> cases v <;> simp only [UnpackedFloat.mul, signs, Nat.mul_comm, Int.add_comm]

theorem IsRational.unit_mul {x : Float} {p : ℚ} (value : IsRational x p) : IsRational (1.0 * x) p :=
  product_comm x 1.0 ▸ value.mul_one

/-- Only the ratio counts when a quotient is rounded. -/
theorem roundDiv_congr {num den num' den' : Nat} (positive : 0 < den) (positive' : 0 < den')
    (same : num * den' = num' * den) (tie : Tie) :
    roundDiv num den tie = roundDiv num' den' tie := by
  have quotient : num / den = num' / den' := by
    rw [← Nat.mul_div_mul_right num den positive', same, Nat.mul_comm den den',
      Nat.mul_div_mul_right _ _ positive]
  have rest : num % den * den' = num' % den' * den := by
    have left := congrArg (· * den') (Nat.div_add_mod num den)
    have right := congrArg (· * den) (Nat.div_add_mod num' den')
    simp only [Nat.add_mul, quotient] at left right
    have product : den * (num' / den') * den' = den' * (num' / den') * den := by ring
    omega
  have order : compare (2 * (num % den)) den = compare (2 * (num' % den')) den' := by
    have scaled {m n k : Nat} (positive : 0 < k) : compare (m * k) (n * k) = compare m n := by
      rcases Nat.lt_trichotomy m n with less | rfl | more
      · rw [Nat.compare_eq_lt.mpr less, Nat.compare_eq_lt.mpr (Nat.mul_lt_mul_of_pos_right less positive)]
      · rw [Nat.compare_eq_eq.mpr rfl, Nat.compare_eq_eq.mpr rfl]
      · rw [Nat.compare_eq_gt.mpr more, Nat.compare_eq_gt.mpr (Nat.mul_lt_mul_of_pos_right more positive)]
    rw [← scaled positive', ← scaled (m := 2 * (num' % den')) positive, Nat.mul_assoc, rest,
      Nat.mul_assoc, Nat.mul_comm den den']
  simp only [roundDiv, quotient, order]

/-- Magnitudes that are equal are counted alike. -/
theorem Binary.magnitudeTimes_congr {b c : Binary} (same : |b.rational| = |c.rational|)
    (scale : Nat) (tie : Tie) :
    b.magnitudeTimes scale tie = c.magnitudeTimes scale tie := by
  obtain ⟨left, exactl⟩ := b.magnitudeTimes_eq scale tie
  obtain ⟨right, exactr⟩ := c.magnitudeTimes_eq scale tie
  have positive := twoTo_pos (-b.q).toNat
  have positive' := twoTo_pos (-c.q).toNat
  rw [left, right]
  refine roundDiv_congr positive positive' ?_ tie
  have quotients := exactl.trans ((congrArg (· * (scale : ℚ)) same).trans exactr.symm)
  rw [div_eq_div_iff (by exact_mod_cast positive.ne') (by exact_mod_cast positive'.ne')] at quotients
  exact_mod_cast quotients

/-- A negative number is written with a sign in front of its magnitude. -/
theorem IsRational.sixPlaces_neg {x y : Float} {p : ℚ} (value : IsRational x p)
    (value' : IsRational y (-p)) (positive : 0 < p) (printed : sixPlaces x ≠ "0") :
    sixPlaces y = "-" ++ sixPlaces x := by
  obtain ⟨b, -, rfl, written⟩ := sixPlaces_eq value
  obtain ⟨c, -, negated, written'⟩ := sixPlaces_eq value'
  have count : c.magnitudeTimes (tenTo 6) .even = b.magnitudeTimes (tenTo 6) .even :=
    Binary.magnitudeTimes_congr (by rw [negated, abs_neg]) _ _
  rw [if_neg fun signed => not_lt_of_gt positive signed.1] at written
  have nonzero : b.magnitudeTimes (tenTo 6) .even ≠ 0 := by
    intro zero
    rw [written, zero] at printed
    exact printed rfl
  rw [written', written, count, if_pos ⟨by linarith, nonzero⟩]

end Stepwise.Decimal
