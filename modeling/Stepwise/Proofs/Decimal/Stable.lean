import Stepwise.Proofs.Decimal.Figures
import Stepwise.Proofs.Decimal.Sign

/-! Doubles that are read again from what is written for them. A decimal of six places is read as
the closest double, and either that is the double it was written for, or the doubles lie so close
together that the same six places are closest to both. Main statement: what is read for what is
written for a double is written the same way. -/
namespace Stepwise.Decimal

section Count

variable {t r : ℚ}

theorem eq_of_multiples {n k p : ℤ} (close : |(n : ℚ) * 2 ^ p - k * 2 ^ p| < 2 ^ p) : n = k := by
  have positive : (0 : ℚ) < 2 ^ p := by positivity
  rw [← sub_mul, abs_mul, abs_of_pos positive, mul_lt_iff_lt_one_left positive] at close
  have : |n - k| < 1 := by exact_mod_cast close
  have := Int.abs_lt_one_iff.mp this
  omega

theorem IsClosest.nonneg (closest : IsClosest t r) (positive : 0 ≤ t) : 0 ≤ r := by
  obtain ⟨n, p, rfl, near, -⟩ := closest
  have power : (0 : ℚ) < 2 ^ p := by positivity
  refine mul_nonneg (Int.cast_nonneg (le_of_not_gt fun negative => ?_)) power.le
  have below : (n : ℚ) * 2 ^ p ≤ -1 * 2 ^ p := by
    gcongr
    exact_mod_cast (by omega : n ≤ -1)
  have := (abs_le.mp near).1
  linarith

/-- Below the place of a decimal, a number that it was written for has not reached the power of two
where that place begins; so it was rounded up to that power, which is a double. -/
theorem eq_of_short {c m : ℕ} {p q : ℤ} (mantissa : m < 2 ^ 53) (coarse : q < p) (whole : 0 ≤ 52 + p)
    (written : |(c : ℚ) - m * 2 ^ q * 10 ^ 6| ≤ 1 / 2) (full : 2 ^ 52 * 2 ^ p ≤ (c : ℚ) / 10 ^ 6) :
    (c : ℚ) / 10 ^ 6 = 2 ^ 52 * 2 ^ p := by
  obtain ⟨k, exponent⟩ := Int.eq_ofNat_of_zero_le whole
  have power : (2 : ℚ) ^ 52 * 2 ^ p = (2 ^ k : ℕ) := by
    rw [← zpow_natCast (2 : ℚ) 52, ← zpow_add₀ (by norm_num), Nat.cast_ofNat, exponent,
      zpow_natCast, Nat.cast_pow, Nat.cast_ofNat]
  have below : (m : ℚ) * 2 ^ q < (2 ^ k : ℕ) := by
    rw [← power]
    have short : (m : ℚ) < 2 ^ 53 := by exact_mod_cast mantissa
    calc (m : ℚ) * 2 ^ q < 2 ^ 53 * 2 ^ q := by gcongr
      _ = 2 ^ 52 * 2 ^ (q + 1) := by rw [zpow_add_one₀ (by norm_num)]; ring
      _ ≤ 2 ^ 52 * 2 ^ p := by gcongr; norm_num; omega
  rw [power] at full ⊢
  rw [le_div_iff₀ (by norm_num)] at full
  have above : (c : ℚ) < (2 ^ k : ℕ) * 10 ^ 6 + 1 := by
    have := (abs_le.mp written).2
    linarith
  have least : 2 ^ k * 10 ^ 6 ≤ c := by exact_mod_cast full
  have most : c < 2 ^ k * 10 ^ 6 + 1 := by exact_mod_cast above
  have same : c = 2 ^ k * 10 ^ 6 := by omega
  rw [same, Nat.cast_mul, div_eq_iff (by norm_num)]
  norm_num

/-- The double closest to a decimal of six places is a number that the decimal was written for, or
the decimal is written for it. -/
theorem IsClosest.count {c m : ℕ} {q : ℤ} (closest : IsClosest (c / 10 ^ 6) r) (mantissa : m < 2 ^ 53)
    (written : |(c : ℚ) - m * 2 ^ q * 10 ^ 6| ≤ 1 / 2) : r = m * 2 ^ q ∨ |(c : ℚ) - r * 10 ^ 6| < 1 / 2 := by
  obtain ⟨n, p, rfl, near, full⟩ := closest
  by_cases fine : p ≤ -20
  · -- the doubles lie closer together than the decimals
    right
    have small : (2 : ℚ) ^ p ≤ 1 / 2 ^ 20 :=
      (zpow_le_zpow_right₀ (by norm_num) fine).trans_eq (by norm_num)
    rw [abs_le] at near
    rw [abs_lt]
    constructor <;> linarith
  · have full := full.resolve_right (by omega)
    rw [abs_of_nonneg (by positivity)] at full
    have large : 1 / 2 ^ 19 ≤ (2 : ℚ) ^ p :=
      (show (1 / 2 ^ 19 : ℚ) = 2 ^ (-19 : ℤ) by norm_num).trans_le
        (zpow_le_zpow_right₀ (by norm_num) (by omega))
    rcases le_or_gt p q with multiple | coarse
    · -- no other double lies as close to the decimal
      left
      obtain ⟨k, exponent⟩ := Int.eq_ofNat_of_zero_le (Int.sub_nonneg.mpr multiple)
      have spelled : (m : ℚ) * 2 ^ q = (m * 2 ^ k : ℕ) * 2 ^ p := by
        rw [show q = p + (k : ℤ) by omega, zpow_add₀ (by norm_num), zpow_natCast]
        push_cast
        ring
      rw [spelled] at written ⊢
      have same : n = ((m * 2 ^ k : ℕ) : ℤ) := by
        refine eq_of_multiples (p := p) ?_
        rw [Int.cast_natCast]
        rw [abs_le] at near written
        rw [abs_lt]
        constructor <;> linarith
      rw [same, Int.cast_natCast]
    · right
      have boundary := eq_of_short mantissa coarse (by omega) written full
      have same : n = 2 ^ 52 := by
        refine eq_of_multiples (p := p) ?_
        rw [boundary] at near
        push_cast
        have positive : (0 : ℚ) < 2 ^ p := by positivity
        linarith
      have counted : (c : ℚ) = n * 2 ^ p * 10 ^ 6 := by
        rw [same, (div_eq_iff (by norm_num)).mp boundary]
        norm_num
      rw [← counted, sub_self, abs_zero]
      norm_num

end Count

theorem Binary.abs_rational (b : Binary) : |b.rational| = b.m * 2 ^ b.q := by
  have value := (b.magnitudeTimes_eq 1 .even).2
  rw [Nat.mul_one, Nat.cast_one, mul_one] at value
  have spelled := scale_eq b.m b.q
  rw [Int.cast_natCast] at spelled
  rw [← value, Nat.cast_mul, spelled]

/-- What is written for a double without its sign is read as a double that counts the same millionths. -/
theorem readMagnitude_count {x : Float} {b : Binary} (binary : Binary.ofFloat? x = some b) :
    ∃ v r, readMagnitude? (millionthsText (b.magnitudeTimes (tenTo 6) .even)).toList = some v ∧
      IsRational v r ∧ 0 ≤ r ∧
      ∀ b' : Binary, |b'.rational| = r →
      b'.magnitudeTimes (tenTo 6) .even = b.magnitudeTimes (tenTo 6) .even := by
  obtain ⟨v, r, read, value, closest⟩ := readMagnitude_closest binary
  refine ⟨v, r, read, value, closest.nonneg (div_nonneg (Nat.cast_nonneg _) (by norm_num)), fun b' same => ?_⟩
  have scale : ((tenTo 6 : Nat) : ℚ) = 10 ^ 6 := by norm_num [tenTo]
  have written := b.magnitudeTimes_near (tenTo 6) .even
  rw [b.abs_rational, scale] at written
  rcases closest.count (Binary.bounds binary).1 written with counted | near
  · exact Binary.magnitudeTimes_congr (by rw [same, counted, b.abs_rational]) _ _
  · exact b'.magnitudeTimes_of_near (by rwa [same, scale])

section Reread

def reread (x : Float) : Float := (read? (sixPlaces x)).getD nan

theorem read_written (x : Float) : read? (sixPlaces x) = some (reread x) := by
  have read : (read? (sixPlaces x)).isSome := by
    by_cases finite : isFinite x
    · obtain ⟨v, read, -⟩ := (read_sixPlaces finite).1
      simp [read]
    · rcases sixPlaces_of_infinite finite with text | text | text <;> rw [text] <;> rfl
  obtain ⟨v, read⟩ := Option.isSome_iff_exists.mp read
  rw [reread, read, Option.getD_some]

/-- Only figures are written for a double. -/
theorem figure_of_written (x : Float) : ∀ c ∈ (sixPlaces x).toList, isFigure c :=
  figure_of_read (read_written x)

theorem reread_eq {x v : Float} (read : read? (sixPlaces x) = some v) : reread x = v :=
  Option.some.inj ((read_written x).symm.trans read)

/-- A double that is read again is written as before. -/
theorem sixPlaces_reread (x : Float) : sixPlaces (reread x) = sixPlaces x := by
  by_cases finite : isFinite x
  · obtain ⟨p, rational⟩ := isRational_of_isFinite finite
    obtain ⟨b, binary, rfl, written⟩ := sixPlaces_eq rational
    obtain ⟨v, r, read, value, positive, counts⟩ := readMagnitude_count binary
    generalize b.magnitudeTimes (tenTo 6) .even = count at *
    by_cases signed : b.rational < 0 ∧ count ≠ 0
    · rw [if_pos signed] at written
      obtain ⟨b', -, same, again⟩ := sixPlaces_eq value.neg
      have counted := counts b' (by rw [same, abs_neg, abs_of_nonneg positive])
      have below : -r < 0 := by
        refine neg_lt_zero.mpr (lt_of_le_of_ne positive fun zero => signed.2 ?_)
        rw [← counted]
        exact b'.magnitudeTimes_of_near (by rw [same, ← zero]; norm_num)
      rw [reread_eq (written ▸ read_negated read), again, counted, if_pos ⟨below, signed.2⟩, written]
    · rw [if_neg signed] at written
      obtain ⟨b', -, same, again⟩ := sixPlaces_eq value
      have counted := counts b' (by rw [same, abs_of_nonneg positive])
      rw [reread_eq (written ▸ read_plain (millionthsText_spec _).1 read), again, counted,
        if_neg fun negative => not_lt_of_ge positive negative.1, written]
  · rcases sixPlaces_of_infinite finite with text | text | text <;> rw [reread, text] <;> rfl

end Reread

end Stepwise.Decimal
