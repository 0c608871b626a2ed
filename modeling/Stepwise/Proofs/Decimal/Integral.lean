import Stepwise.Proofs.Decimal.Division
import Stepwise.Proofs.Decimal.Sign

/-! Doubles that are integers, however large they are. Such a double is a mantissa with zeros behind
it, so it is written digit by digit and read back as it was. Beyond `10^18` it is no longer taken to
a fraction. -/
namespace Stepwise.Decimal

open Float.Model UnpackedFloat

theorem Binary.denotes_of_rational {b : Binary} {k : Int} (value : b.rational = k) : b.Denotes k := by
  have divisor : (0 : ℚ) < twoTo (-b.q).toNat := by exact_mod_cast twoTo_pos _
  constructor
  · have magnitude := (b.magnitudeTimes_eq 1 .even).2
    rw [value, div_eq_iff divisor.ne', Nat.mul_one, Nat.cast_one, mul_one] at magnitude
    have size : |(k : ℚ)| = (k.natAbs : ℚ) := by rw [Nat.cast_natAbs, Int.cast_abs]
    rw [size] at magnitude
    exact_mod_cast magnitude
  · rw [Binary.rational, Binary.signed] at value
    unfold Binary.signed
    split at value
    · next negative =>
      have low : (k : ℚ) ≤ 0 := by
        rw [← value]
        refine div_nonpos_of_nonpos_of_nonneg ?_ divisor.le
        exact_mod_cast neg_nonpos.mpr (Int.natCast_nonneg _)
      have low : k ≤ 0 := by exact_mod_cast low
      rw [if_pos negative]
      omega
    · next positive =>
      have high : (0 : ℚ) ≤ k := by
        rw [← value]
        exact div_nonneg (by exact_mod_cast Int.natCast_nonneg _) divisor.le
      have high : 0 ≤ k := by exact_mod_cast high
      rw [if_neg positive]
      omega

def FitsMantissa (n : Nat) : Prop := ∃ m q : Nat, m < 2 ^ 53 ∧ q ≤ 971 ∧ n = m * 2 ^ q

/-- What divides a mantissa with zeros behind it is one, too. -/
theorem FitsMantissa.of_dvd {n k : Nat} (fits : FitsMantissa n) (positive : 0 < n)
    (divides : k ∣ n) : FitsMantissa k := by
  obtain ⟨m, q, short, low, rfl⟩ := fits
  obtain ⟨i, j, first, second, rfl⟩ := exists_dvd_and_dvd_of_dvd_mul divides
  obtain ⟨l, less, rfl⟩ := (Nat.dvd_prime_pow Nat.prime_two).mp second
  have mantissaPositive : 0 < m := Nat.pos_of_mul_pos_right positive
  exact ⟨i, l, (Nat.le_of_dvd mantissaPositive first).trans_lt short, less.trans low, rfl⟩

theorem isRational_of_fits {n : Nat} (fits : FitsMantissa n) :
    IsRational (Float.ofScientific n false 0) n := by
  obtain ⟨m, q, short, low, rfl⟩ := fits
  simpa using isRational_ofScientific short low

theorem ofInt_integral {k : Int} (fits : FitsMantissa k.natAbs) : IsRational (ofInt k) k := by
  have magnitude := isRational_of_fits fits
  rw [ofInt]
  split
  · next negative =>
    have size : (k : ℚ) = -(k.natAbs : ℚ) := by rw [Nat.cast_natAbs, abs_of_neg negative]; push_cast; ring
    rw [size]
    exact magnitude.neg
  · next positive =>
    have size : (k : ℚ) = (k.natAbs : ℚ) := by rw [Nat.cast_natAbs, abs_of_nonneg (not_lt.mp positive)]
    rwa [size]

/-- An integer of 128 bits is rounded to an integer. -/
theorem ofScientific_integral {m : Nat} (small : m ≤ 2 ^ 127) :
    ∃ n : Nat, IsRational (Float.ofScientific m false 0) n := by
  by_cases short : m < 2 ^ 53
  · exact ⟨m, isRational_of_fits ⟨m, 0, short, by decide, (Nat.mul_one m).symm⟩⟩
  have large : 2 ^ 53 ≤ m := by omega
  have nonzero : m ≠ 0 := by omega
  have low : 2 ^ m.log2 ≤ m := Nat.log2_self_le nonzero
  have high : m < 2 ^ (m.log2 + 1) := Nat.lt_log2_self
  have full : 53 ≤ m.log2 := (Nat.le_log2 nonzero).mpr large
  have bits : m.log2 < 128 := (Nat.log2_lt nonzero).mpr (by omega)
  have there : place (m * 2 ^ 53) (-53) = (m.log2 - 52 : Nat) := by
    unfold place
    rw [log2_mul_pow (by omega)]
    omega
  have amount : (place (m * 2 ^ 53) (-53) - -53).toNat = m.log2 + 1 := by omega
  obtain ⟨r, above, below, -, canonical, value⟩ :=
    roundWithAccuracy_value .positive .exact (m := m * 2 ^ 53) (e := -53) (by omega)
  rw [amount] at above below
  have few : m * 2 ^ 53 / 2 ^ (m.log2 + 1) ≤ 2 ^ 53 := by
    refine Nat.div_le_of_le_mul ?_
    exact Nat.mul_le_mul_right _ high.le
  rw [there, zpow_natCast] at value
  have whole : ((Sign.positive.apply (r : Int) : Int) : ℚ) * 2 ^ (m.log2 - 52) =
      (r * 2 ^ (m.log2 - 52) : Nat) := by
    rw [Sign.apply]
    push_cast
    rfl
  rw [whole] at value
  have bounded : |((r * 2 ^ (m.log2 - 52) : Nat) : ℚ)| < 2 ^ (1024 : Int) := by
    have bound : r * 2 ^ (m.log2 - 52) < 2 ^ 200 := by
      calc r * 2 ^ (m.log2 - 52) ≤ (2 ^ 53 + 1) * 2 ^ 76 :=
            Nat.mul_le_mul (by omega) (Nat.pow_le_pow_right (by decide) (by omega))
        _ < 2 ^ 200 := by decide
    rw [Nat.abs_cast]
    calc ((r * 2 ^ (m.log2 - 52) : Nat) : ℚ) < (2 ^ 200 : Nat) := by exact_mod_cast bound
      _ = 2 ^ (200 : Int) := by norm_num
      _ ≤ 2 ^ (1024 : Int) := zpow_le_zpow_right₀ (by norm_num) (by norm_num)
  exact ⟨r * 2 ^ (m.log2 - 52),
    ofScientific_large large ▸ .pack (canonical.regular_of_lt value bounded) value⟩

theorem ofInt_rounded {k : Int} (small : k.natAbs ≤ 2 ^ 127) : ∃ j : Int, IsRational (ofInt k) j := by
  obtain ⟨n, value⟩ := ofScientific_integral small
  rw [ofInt]
  split
  · exact ⟨-n, by push_cast; exact value.neg⟩
  · exact ⟨n, by simpa using value⟩

namespace IsRational

variable {x y : Float} {p : ℚ} {k : Int}

theorem denotes (value : IsRational x k) : ∃ b, Binary.ofFloat? x = some b ∧ b.Denotes k := by
  obtain ⟨b, read, same⟩ := Option.map_eq_some_iff.mp value
  exact ⟨b, read, Binary.denotes_of_rational same⟩

theorem fits (value : IsRational x k) : FitsMantissa k.natAbs := by
  by_cases zero : k = 0
  · exact ⟨0, 0, by decide, by decide, by simp [zero]⟩
  obtain ⟨s, m, e, positive, -, short, -, high, -, spelled⟩ :=
    value.unpack_of_ne_zero (Int.cast_ne_zero.mpr zero)
  have magnitude : (k.natAbs : ℚ) = m * 2 ^ e := by
    rw [Nat.cast_natAbs, Int.cast_abs, spelled, abs_signed s (by positivity)]
  by_cases whole : 0 ≤ e
  · obtain ⟨q, rfl⟩ := Int.eq_ofNat_of_zero_le whole
    rw [zpow_natCast] at magnitude
    exact ⟨m, q, short, by omega, by exact_mod_cast magnitude⟩
  · refine ⟨k.natAbs, 0, ?_, by omega, (Nat.mul_one _).symm⟩
    have less : (k.natAbs : ℚ) < 2 ^ 53 := by
      have power : (2 : ℚ) ^ e ≤ 1 := zpow_le_one_of_nonpos₀ (by norm_num) (by omega)
      calc (k.natAbs : ℚ) = m * 2 ^ e := magnitude
        _ ≤ m := mul_le_of_le_one_right (Nat.cast_nonneg m) power
        _ < 2 ^ 53 := by exact_mod_cast short
    exact_mod_cast less

theorem ofInt_eq (value : IsRational x k) (nonzero : k ≠ 0) : ofInt k = x :=
  (ofInt_integral value.fits).eq_of_ne_zero value (Int.cast_ne_zero.mpr nonzero)

/-- A division of integers that leaves no remainder is exact. -/
theorem div_integral {m n : Int} (left : IsRational x (m * n : Int)) (right : IsRational y m)
    (nonzero : m ≠ 0) :
    IsRational (x / y) n := by
  have divisor : (m : ℚ) ≠ 0 := Int.cast_ne_zero.mpr nonzero
  have quotient : ((m * n : Int) : ℚ) / m = n := by
    rw [Int.cast_mul, mul_div_cancel_left₀ _ divisor]
  by_cases zero : n = 0
  · subst zero
    simp only [Int.mul_zero, Int.cast_zero] at left ⊢
    exact left.zero_div right divisor
  have fits : FitsMantissa n.natAbs := left.fits.of_dvd (Int.natAbs_pos.mpr (mul_ne_zero nonzero zero))
    (Int.natAbs_dvd_natAbs.mpr (Dvd.intro_left m rfl))
  exact quotient ▸ left.exact_div right divisor (quotient.symm ▸ ofInt_integral fits)

/-- The magnitude of an integer below `10^18`. -/
theorem toWhole_integral (value : IsRational x k) (small : k.natAbs < tenTo 18) : toWhole? x = some k := by
  obtain ⟨b, read, denotes⟩ := value.denotes
  simp [toWhole?, read, denotes.isWhole, denotes.floor, small]

/-- An integer is written without a point. -/
theorem sixPlaces_integral (value : IsRational x k) : sixPlaces x = toString k := by
  obtain ⟨b, read, written, text⟩ := sixPlaces_eq value
  have denotes := Binary.denotes_of_rational written
  have count := denotes.magnitudeTimes (tenTo 6) .even
  have million : 0 < tenTo 6 := by decide
  have digits : millionthsText (k.natAbs * tenTo 6) = toString k.natAbs := by simp [millionthsText, tenTo]
  rw [text, count, digits, toString_int]
  by_cases negative : k < 0
  · have nonzero : k.natAbs * tenTo 6 ≠ 0 := Nat.ne_of_gt (Nat.mul_pos (by omega) million)
    rw [if_pos negative, if_pos ⟨by exact_mod_cast negative, nonzero⟩]
  · rw [if_neg negative, if_neg fun both => negative (by exact_mod_cast both.1)]

/-- What is written for an integer without a sign is read as the integer. -/
theorem read_integral {n : Nat} (value : IsRational x n) :
    ∃ y, read? (toString n) = some y ∧ IsRational y n := by
  have fits : FitsMantissa n := by
    have whole : IsRational x (n : Int) := by simpa using value
    simpa using whole.fits
  have nonempty : Nat.toDigits 10 n ≠ [] := Nat.toDigits_ne_nil
  have all : ∀ c ∈ Nat.toDigits 10 n, c.isDigit :=
    fun c member => Nat.isDigit_of_mem_toDigits (by omega) (by omega) member
  have text : (toString n).toList = Nat.toDigits 10 n := Nat.toList_repr
  have digits : digitsValue (Nat.toDigits 10 n) = n := Nat.ofDigitChars_ten_toDigits
  have numeral : Token.IsNumeral (toString n).toList := text ▸ .whole nonempty all
  have read : readMagnitude? (toString n).toList = some (scaled n 0) := by
    rw [readMagnitude_numeral numeral, text, readDigits_digits nonempty all, digits]
  refine ⟨scaled n 0, read_plain numeral read, ?_⟩
  by_cases zero : n = 0
  · subst zero
    simpa [scaled] using IsRational.zero
  · have below : n < 10 ^ 309 := by
      obtain ⟨m, q, short, low, rfl⟩ := fits
      exact below_overflow short low
    have size := length_toDigits_le_of_lt below (by omega)
    have scaledEq : scaled n 0 = Float.ofScientific n false 0 := by
      simpa using scaled_of_size (k := 0) zero (by omega) (by omega)
    rw [scaledEq]
    exact isRational_of_fits fits

/-- Doubles that are the same number have a difference of zero. -/
theorem sub_same (left : IsRational x p) (right : IsRational y p) : IsRational (x - y) 0 := by
  change IsRational (.ofModel (.pack (UnpackedFloat.sub _ x.toModel.unpack y.toModel.unpack))) 0
  by_cases zero : p = 0
  · subst zero
    obtain ⟨s, unpacked⟩ := zero_iff.mp left
    obtain ⟨t, unpacked'⟩ := zero_iff.mp right
    rw [unpacked, unpacked']
    cases s <;> cases t <;> exact pack trivial rfl
  · rw [left.eq_of_ne_zero right zero]
    obtain ⟨s, m, e, positive, unpacked, -⟩ := right.unpack_of_ne_zero zero
    rw [unpacked]
    simp only [UnpackedFloat.sub, sub_self, UnpackedFloat.normalize]
    exact pack trivial rfl

/-- An integer below `10^18` is taken to the fraction over one, and a larger one to none. -/
theorem ratio (value : IsRational x k) :
    Ratio.ofFloat? x = if k.natAbs < tenTo 18 then some ⟨k, 1⟩ else none := by
  obtain ⟨b, read, denotes⟩ := value.denotes
  have billion : ∃ r, IsRational 1e9 r := isRational_of_isFinite (by decide +kernel)
  obtain ⟨r, billion⟩ := billion
  obtain ⟨c, readc, denotesc⟩ :=
    (((value.sub_same (ofInt_integral value.fits)).zero_mul billion).denotes (k := 0))
  have part : Ratio.split x k = (k, 0) := by
    simp [Ratio.split, readc, denotesc.round, Ratio.precision]
  simp only [Ratio.ofFloat?, read, Option.bind_some, denotes.floor, part]
  by_cases small : k.natAbs < tenTo 18
  · rw [if_neg (Nat.not_le_of_lt small), if_pos small]
    simp [Ratio.precision]
  · rw [if_pos (Nat.le_of_not_lt small), if_neg small]

end IsRational

end Stepwise.Decimal
