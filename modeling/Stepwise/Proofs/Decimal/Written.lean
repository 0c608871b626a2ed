import Stepwise.Proofs.Decimal.Nearest
import Stepwise.Proofs.Decimal.Numeral

/-! Six decimal places. What is written counts the nearest millionths of a double, and it is read as
a double close to that count. Main statement: what is written for a finite double is never read as
an infinity or NaN. -/
namespace Stepwise.Decimal

section Count

theorem roundDiv_bounds (num : Nat) {den : Nat} (positive : 0 < den) (tie : Tie) :
    2 * num ≤ 2 * (roundDiv num den tie * den) + den ∧ 2 * (roundDiv num den tie * den) ≤ 2 * num + den := by
  have split := Nat.div_add_mod num den
  have rest := Nat.mod_lt num positive
  rw [Nat.mul_comm] at split
  unfold roundDiv
  generalize num / den = quotient at *
  have next : (quotient + 1) * den = quotient * den + den := Nat.succ_mul ..
  cases order : compare (2 * (num % den)) den with
  | lt =>
    have := Nat.compare_eq_lt.mp order
    simp only
    omega
  | gt =>
    have := Nat.compare_eq_gt.mp order
    simp only
    omega
  | eq =>
    have := Nat.compare_eq_eq.mp order
    cases tie with
    | away =>
      simp only
      omega
    | even =>
      simp only
      split <;> omega

theorem roundDiv_near (num : Nat) {den : Nat} (positive : 0 < den) (tie : Tie) :
    |(roundDiv num den tie : ℚ) - num / den| ≤ 1 / 2 := by
  have divisor : (0 : ℚ) < den := by exact_mod_cast positive
  obtain ⟨low, high⟩ := roundDiv_bounds num positive tie
  have low : (2 * num : ℚ) ≤ 2 * (roundDiv num den tie * den) + den := by exact_mod_cast low
  have high : (2 * (roundDiv num den tie * den) : ℚ) ≤ 2 * num + den := by exact_mod_cast high
  have scaled : ((roundDiv num den tie : ℚ) - num / den) * den = roundDiv num den tie * den - num := by
    rw [sub_mul, div_mul_cancel₀ _ divisor.ne']
  rw [abs_le]
  constructor
  · refine le_of_mul_le_mul_right ?_ divisor
    rw [scaled]
    linarith
  · refine le_of_mul_le_mul_right ?_ divisor
    rw [scaled]
    linarith

/-- Only one whole number is closer than one half. -/
theorem roundDiv_eq {num den n : Nat} (positive : 0 < den) {tie : Tie}
    (near : |(n : ℚ) - num / den| < 1 / 2) :
    roundDiv num den tie = n := by
  have other := roundDiv_near num positive tie
  have apart : |(roundDiv num den tie : ℚ) - n| < 1 := by
    rw [abs_lt] at *
    rw [abs_le] at other
    constructor <;> linarith
  have : |(roundDiv num den tie : Int) - n| < 1 := by exact_mod_cast apart
  have := Int.abs_lt_one_iff.mp this
  omega

/-- The millionths that are written for a double. -/
theorem Binary.magnitudeTimes_eq (b : Binary) (scale : Nat) (tie : Tie) :
    b.magnitudeTimes scale tie = roundDiv (b.m * twoTo b.q.toNat * scale) (twoTo (-b.q).toNat) tie ∧
      (((b.m * twoTo b.q.toNat * scale : Nat) : ℚ) / twoTo (-b.q).toNat = |b.rational| * scale) := by
  refine ⟨rfl, ?_⟩
  have positive : (0 : ℚ) ≤ (b.m * twoTo b.q.toNat : Nat) := Nat.cast_nonneg _
  have magnitude : |((b.signed (b.m * twoTo b.q.toNat) : Int) : ℚ)| = (b.m * twoTo b.q.toNat : Nat) := by
    unfold Binary.signed
    split
    · rw [Int.cast_neg, abs_neg, Int.cast_natCast, abs_of_nonneg positive]
    · rw [Int.cast_natCast, abs_of_nonneg positive]
  rw [Binary.rational, abs_div, magnitude, abs_of_nonneg (Nat.cast_nonneg _), Nat.cast_mul,
    div_mul_eq_mul_div]

theorem Binary.magnitudeTimes_near (b : Binary) (scale : Nat) (tie : Tie) :
    |(b.magnitudeTimes scale tie : ℚ) - abs b.rational * scale| ≤ 1 / 2 := by
  obtain ⟨same, value⟩ := b.magnitudeTimes_eq scale tie
  rw [same, ← value]
  exact roundDiv_near _ (twoTo_pos _) tie

theorem Binary.magnitudeTimes_of_near (b : Binary) {scale n : Nat} {tie : Tie}
    (near : |(n : ℚ) - abs b.rational * scale| < 1 / 2) :
    b.magnitudeTimes scale tie = n := by
  obtain ⟨same, value⟩ := b.magnitudeTimes_eq scale tie
  rw [same]
  exact roundDiv_eq (twoTo_pos _) (by rwa [value])

end Count

section Text

theorem digitsValue_append (first second : List Char) :
    digitsValue (first ++ second) = 10 ^ second.length * digitsValue first + digitsValue second := by
  simp only [digitsValue_eq, Nat.ofDigitChars_append]
  exact Nat.ofDigitChars_eq_ofDigitChars_zero

theorem digitsValue_zeros (n : Nat) : digitsValue (List.replicate n '0') = 0 := by
  rw [digitsValue_eq, Nat.ofDigitChars_replicate_zero, Nat.mul_zero]

/-- The digits behind the point, without the zeros at their end. -/
theorem fractionDigits_spec {fraction : Nat} (small : fraction < 10 ^ 6) :
    (∀ c ∈ fractionDigits 6 fraction, c.isDigit) ∧
      ∃ zeros, (fractionDigits 6 fraction).length + zeros = 6 ∧
        digitsValue (fractionDigits 6 fraction) * 10 ^ zeros = fraction := by
  let digits := Nat.toDigits 10 fraction
  let padded := List.replicate (6 - digits.length) '0' ++ digits
  have short : digits.length ≤ 6 := (Nat.length_toDigits_le_iff (by omega) (by omega)).mpr small
  have value : digitsValue padded = fraction := by
    rw [digitsValue_append, digitsValue_zeros, Nat.mul_zero, Nat.zero_add]
    exact Nat.ofDigitChars_ten_toDigits
  have all : ∀ c ∈ padded, c.isDigit := fun c member => by
    rcases List.mem_append.mp member with member | member
    · rw [List.eq_of_mem_replicate member]
      rfl
    · exact Nat.isDigit_of_mem_toDigits (by omega) (by omega) member
  have ends : (padded.reverse.takeWhile (· == '0')).reverse =
      List.replicate (padded.reverse.takeWhile (· == '0')).length '0' := by
    rw [List.eq_replicate_iff]
    refine ⟨List.length_reverse, fun c member => ?_⟩
    have := List.mem_takeWhile_imp (List.mem_reverse.mp member)
    simpa using this
  have split : fractionDigits 6 fraction ++
      List.replicate (padded.reverse.takeWhile (· == '0')).length '0' = padded := by
    rw [← ends]
    change (padded.reverse.dropWhile (· == '0')).reverse ++ _ = _
    rw [← List.reverse_append, List.takeWhile_append_dropWhile, List.reverse_reverse]
  refine ⟨fun c member => all c (split ▸ List.mem_append_left _ member),
    (padded.reverse.takeWhile (· == '0')).length, ?_, ?_⟩
  · have length : padded.length = 6 := by
      simp only [padded, List.length_append, List.length_replicate]
      omega
    rw [← split, List.length_append, List.length_replicate] at length
    exact length
  · rw [← split, digitsValue_append, digitsValue_zeros, List.length_replicate, Nat.add_zero,
      Nat.mul_comm] at value
    exact value

theorem readDigits_digits {digits : List Char} (nonempty : digits ≠ []) (all : ∀ c ∈ digits, c.isDigit) :
    readDigits? digits = some (scaled (digitsValue digits) 0) := by
  simp [readDigits?, span_digits all, nonempty]

theorem readDigits_point {digits fraction : List Char} (all : ∀ c ∈ digits, c.isDigit)
    (nonempty : fraction ≠ []) (allBehind : ∀ c ∈ fraction, c.isDigit) :
    readDigits? (digits ++ '.' :: fraction) =
      some (scaled (digitsValue (digits ++ fraction)) (-(fraction.length : Int))) := by
  have taken : (digits ++ '.' :: fraction).takeWhile Char.isDigit = digits := by
    rw [List.takeWhile_append_of_pos all]
    simp
  have left : (digits ++ '.' :: fraction).dropWhile Char.isDigit = '.' :: fraction := by
    rw [List.dropWhile_append_of_pos all]
    simp
  simp [readDigits?, taken, left, span_digits allBehind, nonempty]

/-- What is written for a count of millionths is a numeral of that value. -/
theorem millionthsText_spec (count : Nat) : Token.IsNumeral (millionthsText count).toList ∧
    ∃ m k : Nat, k ≤ 6 ∧ (m : ℚ) / 10 ^ k = count / 10 ^ 6 ∧ (10 ^ 6 ∣ count → k = 0) ∧
      readMagnitude? (millionthsText count).toList = some (scaled m (-(k : Int))) := by
  have nonempty : Nat.toDigits 10 (count / 10 ^ 6) ≠ [] := Nat.toDigits_ne_nil
  have all : ∀ c ∈ Nat.toDigits 10 (count / 10 ^ 6), c.isDigit := fun c member =>
    Nat.isDigit_of_mem_toDigits (by omega) (by omega) member
  have value : digitsValue (Nat.toDigits 10 (count / 10 ^ 6)) = count / 10 ^ 6 :=
    Nat.ofDigitChars_ten_toDigits
  have whole : (toString (count / 10 ^ 6)).toList = Nat.toDigits 10 (count / 10 ^ 6) := Nat.toList_repr
  have split := Nat.div_add_mod count (10 ^ 6)
  by_cases none : count % 10 ^ 6 = 0
  · have text : (millionthsText count).toList = Nat.toDigits 10 (count / 10 ^ 6) := by
      rw [← whole]
      exact congrArg String.toList (if_pos none)
    have numeral : Token.IsNumeral (millionthsText count).toList := text ▸ .whole nonempty all
    refine ⟨numeral, count / 10 ^ 6, 0, Nat.zero_le 6, ?_, fun _ => rfl, ?_⟩
    · have : ((10 ^ 6 * (count / 10 ^ 6) : Nat) : ℚ) = count := by
        exact_mod_cast (by omega : 10 ^ 6 * (count / 10 ^ 6) = count)
      rw [pow_zero, div_one, eq_div_iff (by norm_num), ← this]
      push_cast
      ring
    · rw [readMagnitude_numeral numeral, text, readDigits_digits nonempty all, value]
      rfl
  · obtain ⟨allBehind, zeros, length, fraction⟩ :=
      fractionDigits_spec (Nat.mod_lt count (by omega : 0 < 10 ^ 6))
    have text : (millionthsText count).toList = Nat.toDigits 10 (count / 10 ^ 6) ++ '.' ::
        fractionDigits 6 (count % 10 ^ 6) := by
      have written : millionthsText count =
          toString (count / 10 ^ 6) ++ "." ++ String.ofList (fractionDigits 6 (count % 10 ^ 6)) := if_neg none
      rw [written, String.toList_append, String.toList_append, whole, String.toList_ofList]
      simp
    generalize fractionDigits 6 (count % 10 ^ 6) = digits at *
    have nonempty' : digits ≠ [] := by
      rintro rfl
      simp [digitsValue] at fraction
      omega
    have numeral : Token.IsNumeral (millionthsText count).toList := text ▸ .point all nonempty' allBehind
    refine ⟨numeral, digitsValue (Nat.toDigits 10 (count / 10 ^ 6) ++ digits), digits.length, by omega, ?_,
      fun divides => absurd (Nat.mod_eq_zero_of_dvd divides) none, ?_⟩
    · have cast : (count : ℚ) = 10 ^ 6 * (count / 10 ^ 6 : Nat) + digitsValue digits * 10 ^ zeros := by
        exact_mod_cast (by omega : count = 10 ^ 6 * (count / 10 ^ 6) + digitsValue digits * 10 ^ zeros)
      have power : (10 : ℚ) ^ 6 = 10 ^ digits.length * 10 ^ zeros := by rw [← pow_add, length]
      rw [digitsValue_append, value, div_eq_div_iff (by positivity) (by positivity), cast, power]
      push_cast
      ring
    · rw [readMagnitude_numeral numeral, text]
      exact readDigits_point all nonempty' allBehind

end Text

section Reading

theorem length_toDigits_le_of_lt {m n : Nat} (below : m < 10 ^ n) (positive : 0 < n) :
    (Nat.toDigits 10 m).length ≤ n :=
  (Nat.length_toDigits_le_iff (by omega) positive).mpr below

theorem scaled_of_size {m k : Nat} (positive : m ≠ 0) (few : k ≤ 6)
    (size : (Nat.toDigits 10 m).length ≤ 310 + k) :
    scaled m (-(k : Int)) = Float.ofScientific m (decide (-(k : Int) < 0)) k := by
  have nonempty : 0 < (Nat.toDigits 10 m).length := List.length_pos_iff.mpr Nat.toDigits_ne_nil
  have small : ¬ ((Nat.toDigits 10 m).length + -(k : Int) < -326) := by omega
  have large : ¬ ((Nat.toDigits 10 m).length + -(k : Int) > 310) := by omega
  simp [scaled, positive, small, large]

/-- A decimal is read as the double closest to it. -/
theorem scaled_closest {m k : Nat} (few : k ≤ 6) (small : (m : ℚ) / 10 ^ k ≤ 2 ^ (1023 : Int)) :
    ∃ r, IsRational (scaled m (-(k : Int))) r ∧ IsClosest (m / 10 ^ k) r := by
  by_cases zero : m = 0
  · subst zero
    exact ⟨0, IsRational.zero, by simpa using isClosest_whole 0⟩
  · have below : m < 10 ^ (309 + k) := by
      have power : (10 : ℚ) ^ k > 0 := by positivity
      have limit : (2 : ℚ) ^ (1023 : Int) < 10 ^ 309 := by
        have : 2 ^ 1023 < 10 ^ 309 := by decide +kernel
        exact (zpow_natCast (2 : ℚ) 1023).trans_lt (by exact_mod_cast this)
      have : (m : ℚ) < 10 ^ (309 + k) := by
        rw [pow_add]
        exact ((div_le_iff₀ power).mp small).trans_lt (mul_lt_mul_of_pos_right limit power)
      exact_mod_cast this
    have size := length_toDigits_le_of_lt below (by omega)
    rw [scaled_of_size zero few (by omega)]
    by_cases point : k = 0
    · subst point
      simpa using ofScientific_closest (by simpa using small)
    · have negative : decide (-(k : Int) < 0) = true := by simp; omega
      rw [negative]
      exact ofScientific_point_closest (by omega) (by omega) small

theorem readMagnitude_of_small {b : Binary} (small : |b.rational| ≤ 2 ^ (1022 : Int)) :
    ∃ v r, readMagnitude? (millionthsText (b.magnitudeTimes (tenTo 6) .even)).toList = some v ∧
      IsRational v r ∧
      IsClosest ((b.magnitudeTimes (tenTo 6) .even : ℚ) / 10 ^ 6) r := by
  have near := b.magnitudeTimes_near (tenTo 6) .even
  obtain ⟨-, m, k, few, value, -, read⟩ := millionthsText_spec (b.magnitudeTimes (tenTo 6) .even)
  have bounded : (m : ℚ) / 10 ^ k ≤ 2 ^ (1023 : Int) := by
    have one : (1 : ℚ) ≤ 2 ^ (1022 : Int) := one_le_zpow₀ (by norm_num) (by norm_num)
    have double : (2 : ℚ) ^ (1023 : Int) = 2 ^ (1022 : Int) * 2 := zpow_add_one₀ (by norm_num) 1022
    have scale : ((tenTo 6 : Nat) : ℚ) = 10 ^ 6 := by norm_num [tenTo]
    have above := (abs_le.mp near).2
    rw [value, double, div_le_iff₀ (by norm_num)]
    rw [scale] at above
    generalize (2 : ℚ) ^ (1022 : Int) = limit at *
    linarith only [above, small, one]
  obtain ⟨r, rational, closest⟩ := scaled_closest few bounded
  exact ⟨_, r, read, rational, by rwa [value] at closest⟩

/-- The mantissa and the exponent that the bits of a double spell. -/
theorem Binary.bounds {x : Float} {b : Binary} (binary : Binary.ofFloat? x = some b) :
    b.m < 2 ^ 53 ∧ b.q ≤ 971 := by
  unfold Binary.ofFloat? Binary.ofBits? at binary
  have fraction : (x.toBits &&& 0xFFFFFFFFFFFFF).toNat ≤ 2 ^ 52 - 1 := by
    rw [UInt64.toNat_and]
    exact Nat.and_le_right
  have exponent : ((x.toBits >>> 52) &&& 0x7FF).toNat ≤ 2047 := by
    rw [UInt64.toNat_and]
    exact Nat.and_le_right
  simp only at binary
  split at binary
  · cases binary
  · next finite =>
    have whole : twoTo 52 = 2 ^ 52 := rfl
    split at binary
    · obtain rfl := Option.some.inj binary
      constructor <;> simp only <;> omega
    · obtain rfl := Option.some.inj binary
      constructor <;> simp only <;> omega

/-- A double beyond `2^1022` is a whole number that fits the mantissa. -/
theorem exists_whole_of_large {x : Float} {b : Binary} (binary : Binary.ofFloat? x = some b)
    (large : 2 ^ (1022 : Int) < |b.rational|) : ∃ m q : Nat, m < 2 ^ 53 ∧ q ≤ 971 ∧ m ≠ 0 ∧
      b.magnitudeTimes (tenTo 6) .even = m * 2 ^ q * 10 ^ 6 := by
  obtain ⟨mantissa, high⟩ := Binary.bounds binary
  obtain ⟨same, value⟩ := b.magnitudeTimes_eq 1 .even
  rw [Nat.mul_one, Nat.cast_one, mul_one] at value
  have whole : 0 ≤ b.q := by
    refine le_of_not_gt fun negative => not_le_of_gt large ?_
    have power : twoTo b.q.toNat = 1 := by rw [Int.toNat_of_nonpos negative.le]; rfl
    rw [← value, power, Nat.mul_one]
    calc (b.m : ℚ) / twoTo (-b.q).toNat
      _ ≤ b.m := div_le_self (Nat.cast_nonneg _) (by exact_mod_cast twoTo_pos _)
      _ ≤ 2 ^ (53 : Int) := by
        rw [show (2 : ℚ) ^ (53 : Int) = (2 ^ 53 : Nat) by norm_num]; exact_mod_cast mantissa.le
      _ ≤ 2 ^ (1022 : Int) := zpow_le_zpow_right₀ (by norm_num) (by norm_num)
  have unit : (-b.q).toNat = 0 := by omega
  refine ⟨b.m, b.q.toNat, mantissa, by omega, ?_, ?_⟩
  · intro zero
    have positive : (0 : ℚ) ≤ 2 ^ (1022 : Int) := (zpow_pos (by norm_num) 1022).le
    rw [← value, zero, Nat.zero_mul, Nat.cast_zero, zero_div] at large
    exact absurd large positive.not_gt
  · rw [(b.magnitudeTimes_eq (tenTo 6) .even).1, unit]
    exact (congrArg (roundDiv · 1 .even) (Nat.mul_one _).symm).trans (roundDiv_exact Nat.one_pos _ _)

/-- No double has more than 309 digits before its point. -/
theorem below_overflow {m q : Nat} (mantissa : m < 2 ^ 53) (low : q ≤ 971) : m * 2 ^ q < 10 ^ 309 := by
  obtain ⟨top, last⟩ : ∃ top, top = 971 := ⟨_, rfl⟩
  have limit : 2 ^ 53 * 2 ^ top < 10 ^ 309 := by
    rw [last]
    decide +kernel
  have cap : 2 ^ q ≤ 2 ^ top := Nat.pow_le_pow_right (by omega) (last ▸ low)
  exact (Nat.mul_le_mul mantissa.le cap).trans_lt limit

/-- What is written for a finite double is read as the double closest to it. -/
theorem readMagnitude_closest {x : Float} {b : Binary} (binary : Binary.ofFloat? x = some b) :
    ∃ v r, readMagnitude? (millionthsText (b.magnitudeTimes (tenTo 6) .even)).toList = some v ∧
      IsRational v r ∧
      IsClosest ((b.magnitudeTimes (tenTo 6) .even : ℚ) / 10 ^ 6) r := by
  by_cases small : |b.rational| ≤ 2 ^ (1022 : Int)
  · exact readMagnitude_of_small small
  · obtain ⟨m, q, mantissa, low, positive, count⟩ := exists_whole_of_large binary (lt_of_not_ge small)
    obtain ⟨-, n, k, few, value, whole, read⟩ := millionthsText_spec (b.magnitudeTimes (tenTo 6) .even)
    obtain rfl := whole ⟨m * 2 ^ q, by rw [count, Nat.mul_comm]⟩
    have same : n = m * 2 ^ q := by
      have counted := value
      rw [count, Nat.cast_mul, Nat.cast_pow, Nat.cast_ofNat, mul_div_cancel_right₀ _ (by norm_num), pow_zero,
        div_one] at counted
      exact_mod_cast counted
    subst same
    have nonzero : m * 2 ^ q ≠ 0 := Nat.mul_ne_zero positive (Nat.two_pow_pos q).ne'
    have size := length_toDigits_le_of_lt (below_overflow mantissa low) (by omega)
    rw [scaled_of_size nonzero few (by omega)] at read
    refine ⟨_, _, read, isRational_ofScientific mantissa low, ?_⟩
    rw [← value, pow_zero, div_one]
    exact_mod_cast isClosest_whole (m * 2 ^ q)

theorem readMagnitude_written {x : Float} {b : Binary} (binary : Binary.ofFloat? x = some b) :
    ∃ v, readMagnitude? (millionthsText (b.magnitudeTimes (tenTo 6) .even)).toList = some v ∧ isFinite v := by
  obtain ⟨v, r, read, value, -⟩ := readMagnitude_closest binary
  exact ⟨v, read, value.isFinite⟩

theorem isFinite_neg {x : Float} (finite : isFinite x) : isFinite (-x) := by
  obtain ⟨p, rational⟩ := isRational_of_isFinite finite
  exact rational.neg.isFinite

theorem read_negated {text : String} {v : Float} (read : readMagnitude? text.toList = some v) :
    read? ("-" ++ text) = some (-v) := by
  simp [read?, read]

theorem read_minus {text : String} {v : Float} (read : readMagnitude? text.toList = some v)
    (finite : isFinite v) :
    ∃ w, read? ("-" ++ text) = some w ∧ isFinite w :=
  ⟨-v, read_negated read, isFinite_neg finite⟩

theorem read_plain {text : String} {v : Float} (numeral : Token.IsNumeral text.toList)
    (read : readMagnitude? text.toList = some v) : read? text = some v := by
  obtain ⟨c, rest, same, first⟩ := numeral.first
  unfold read?
  split
  · next equal =>
    rw [same] at equal
    exact absurd ((List.cons.inj equal).1 ▸ first) (by decide)
  · next equal =>
    rw [same] at equal
    exact absurd ((List.cons.inj equal).1 ▸ first) (by decide)
  · exact read

/-- The sign is written in front of the count of millionths, unless there are none. -/
theorem sixPlaces_eq {x : Float} {p : ℚ} (rational : IsRational x p) :
    ∃ b, Binary.ofFloat? x = some b ∧ b.rational = p ∧
    sixPlaces x = if p < 0 ∧ b.magnitudeTimes (tenTo 6) .even ≠ 0 then
      "-" ++ millionthsText (b.magnitudeTimes (tenTo 6) .even)
      else millionthsText (b.magnitudeTimes (tenTo 6) .even) := by
  obtain ⟨b, binary, value⟩ := Option.map_eq_some_iff.mp rational
  refine ⟨b, binary, value, ?_⟩
  have divisor : (0 : ℚ) < twoTo (-b.q).toNat := by exact_mod_cast twoTo_pos _
  have sign (nonzero : b.magnitudeTimes (tenTo 6) .even ≠ 0) : b.negative = true ↔ p < 0 := by
    have positive : (0 : ℚ) < (b.m * twoTo b.q.toNat : Nat) := by
      refine Nat.cast_pos.mpr (Nat.pos_of_ne_zero fun zero => nonzero ?_)
      have none := roundDiv_exact (twoTo_pos (-b.q).toNat) 0 .even
      rw [(b.magnitudeTimes_eq _ _).1, zero, Nat.zero_mul]
      rwa [Nat.zero_mul] at none
    rw [← value, Binary.rational, Binary.signed]
    cases b.negative with
    | true => simpa using div_neg_of_neg_of_pos (neg_lt_zero.mpr positive) divisor
    | false => simpa using (div_pos positive divisor).le
  unfold sixPlaces
  simp only [binary]
  by_cases none : b.magnitudeTimes (tenTo 6) .even = 0
  · simp [none]
  · simp [none, sign none]

/-- What is written for a double that is not finite. -/
theorem sixPlaces_of_infinite {x : Float} (infinite : ¬ isFinite x) :
    sixPlaces x = "NaN" ∨ sixPlaces x = "-inf" ∨ sixPlaces x = "inf" := by
  have none : Binary.ofFloat? x = none := by simpa [isFinite] using infinite
  simp only [sixPlaces, none]
  repeat' split
  all_goals simp

/-- What is written for a finite double is read as a finite double, also with a sign in front of it. -/
theorem read_sixPlaces {x : Float} (finite : isFinite x) :
    (∃ v, read? (sixPlaces x) = some v ∧ isFinite v) ∧
    ∃ v, read? ("-" ++ sixPlaces x.abs) = some v ∧ isFinite v := by
  obtain ⟨p, rational⟩ := isRational_of_isFinite finite
  obtain ⟨b, binary, -, written⟩ := sixPlaces_eq rational
  obtain ⟨c, binary', -, written'⟩ := sixPlaces_eq rational.abs
  constructor
  · obtain ⟨v, read, finite⟩ := readMagnitude_written binary
    rw [written]
    split
    · exact read_minus read finite
    · exact ⟨v, read_plain (millionthsText_spec _).1 read, finite⟩
  · obtain ⟨v, read, finite⟩ := readMagnitude_written binary'
    rw [written', if_neg fun negative => not_lt_of_ge (abs_nonneg p) negative.1]
    exact read_minus read finite

theorem slack_le (t : ℚ) : slack t ≤ (|t| + 1) / 2 ^ 52 := by
  have tiny : (2 : ℚ) ^ (-1074 : Int) ≤ 1 / 2 ^ 52 :=
    calc (2 : ℚ) ^ (-1074 : Int) ≤ 2 ^ (-52 : Int) := zpow_le_zpow_right₀ (by norm_num) (by norm_num)
      _ = 1 / 2 ^ 52 := by norm_num
  refine max_le (by gcongr; linarith) (tiny.trans ?_)
  gcongr
  linarith [abs_nonneg t]

/-- A double of moderate size is read as a double close to it. -/
theorem read_near {x : Float} {p : ℚ} (rational : IsRational x p) (small : |p| ≤ 2 ^ (1022 : Int)) :
    ∃ v r, read? (sixPlaces x) = some v ∧ IsRational v r ∧ |r - p| ≤ (|p| + 1) / 4 := by
  obtain ⟨b, binary, rfl, written⟩ := sixPlaces_eq rational
  obtain ⟨v, r, read, value, closest⟩ := readMagnitude_of_small small
  have close := closest.near
  have near := b.magnitudeTimes_near (tenTo 6) .even
  have scale : ((tenTo 6 : Nat) : ℚ) = 10 ^ 6 := by norm_num [tenTo]
  clear small
  generalize b.magnitudeTimes (tenTo 6) .even = count at *
  generalize b.rational = p at *
  have positive : (0 : ℚ) ≤ count / 10 ^ 6 := by positivity
  have slack := slack_le (count / 10 ^ 6 : ℚ)
  rw [abs_of_nonneg positive] at slack
  have near : |(count / 10 ^ 6 : ℚ) - abs p| ≤ 1 / 2 ^ 20 := by
    rw [scale] at near
    rw [abs_le] at near ⊢
    constructor <;> linarith
  have magnitude : |r - abs p| ≤ (|p| + 1) / 4 := by
    have := close.trans slack
    rw [abs_le] at this near ⊢
    have := abs_nonneg p
    constructor <;> linarith
  rw [written]
  split
  · next negative =>
    refine ⟨-v, -r, read_negated read, value.neg, ?_⟩
    rw [abs_of_neg negative.1, abs_le] at magnitude ⊢
    constructor <;> linarith
  · next other =>
    refine ⟨v, r, read_plain (millionthsText_spec _).1 read, value, ?_⟩
    rcases le_or_gt 0 p with above | below
    · rwa [abs_of_nonneg above] at magnitude ⊢
    · -- a negative number that rounds to zero is written without its sign
      have none : count = 0 := by
        by_contra nonzero
        exact other ⟨below, nonzero⟩
      have close := close.trans slack
      rw [none, Nat.cast_zero, zero_div] at close near
      rw [abs_of_neg below, abs_le] at near
      rw [abs_le] at close
      rw [abs_of_neg below, abs_le]
      constructor <;> linarith

end Reading

end Stepwise.Decimal
