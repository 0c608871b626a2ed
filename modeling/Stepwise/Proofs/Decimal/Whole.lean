import Stepwise.Decimal.Fixed
import Stepwise.Number.Ratio
import Stepwise.Proofs.Decimal.Double

/-! Whole numbers below `2^53` are read, written and taken to fractions without loss. -/
namespace Stepwise.Decimal

open Float.Model Float.Model.UnpackedFloat

structure Binary.Denotes (b : Binary) (a : Int) : Prop where
  magnitude : b.m * twoTo b.q.toNat = a.natAbs * twoTo (-b.q).toNat
  sign : a = b.signed a.natAbs

theorem twoTo_pos (n : Nat) : 0 < twoTo n := Nat.two_pow_pos n

/-- A quotient without remainder is not rounded. -/
theorem roundDiv_exact {den : Nat} (positive : 0 < den) (n : Nat) (tie : Tie) :
    roundDiv (n * den) den tie = n := by
  have order : compare (2 * (n * den % den)) den = .lt := by
    simp [Nat.mul_mod_left, compare, compareOfLessAndEq, positive]
  simp only [roundDiv, order]
  exact Nat.mul_div_cancel n positive

theorem toString_int (a : Int) :
    toString a = if a < 0 then "-" ++ toString a.natAbs else toString a.natAbs := by
  cases a with
  | ofNat n => rfl
  | negSucc n =>
    rw [if_pos (Int.negSucc_lt_zero n)]
    rfl

namespace Binary.Denotes

variable {b : Binary} {a : Int}

theorem magnitudeTimes (denotes : b.Denotes a) (scale : Nat) (tie : Tie) :
    b.magnitudeTimes scale tie = a.natAbs * scale := by
  rw [Binary.magnitudeTimes, denotes.magnitude, Nat.mul_right_comm, roundDiv_exact (twoTo_pos _)]

theorem round (denotes : b.Denotes a) : b.round = a := by
  rw [Binary.round, denotes.magnitudeTimes, Nat.mul_one, ← denotes.sign]

theorem signed (denotes : b.Denotes a) (n : Nat) : b.signed (a.natAbs * n) = a * (n : Int) := by
  have sign := denotes.sign
  unfold Binary.signed at sign ⊢
  split at sign
  · next negative =>
    rw [if_pos negative, Int.natCast_mul, ← Int.neg_mul, ← sign]
  · next positive =>
    rw [if_neg positive, Int.natCast_mul, ← sign]

theorem floor (denotes : b.Denotes a) : b.floor = a := by
  have positive := twoTo_pos (-b.q).toNat
  rw [Binary.floor, denotes.magnitude, denotes.signed, Int.mul_fdiv_cancel _ (by omega)]

theorem isWhole (denotes : b.Denotes a) : b.IsWhole := by
  rw [Binary.IsWhole, denotes.magnitude, Nat.mul_mod_left]

end Binary.Denotes

namespace IsWhole

variable {x : Float} {a : Int}

theorem binary (isWhole : IsWhole x a) : ∃ b, Binary.ofFloat? x = some b ∧ b.Denotes a := by
  obtain ⟨s, m, small, rfl, rfl⟩ := isWhole
  obtain ⟨narrow, read⟩ := ofFloat_whole s small
  refine ⟨_, read, ?_, ?_⟩
  · by_cases positive : 0 < m
    · simp [positive, natAbs_apply, twoTo]
    · obtain rfl : m = 0 := by omega
      rw [natAbs_apply]
      simp
  · rw [natAbs_apply]
    cases s <;> rfl

theorem isFinite (isWhole : IsWhole x a) : isFinite x := by
  obtain ⟨b, read, _⟩ := isWhole.binary
  simp [Decimal.isFinite, read]

/-- A whole number is written without a point. -/
theorem sixPlaces (isWhole : IsWhole x a) : sixPlaces x = toString a := by
  obtain ⟨b, read, denotes⟩ := isWhole.binary
  have count := denotes.magnitudeTimes (tenTo 6) .even
  have text : millionthsText (a.natAbs * tenTo 6) = toString a.natAbs := by simp [millionthsText, tenTo]
  have million : 0 < tenTo 6 := by decide
  simp only [Decimal.sixPlaces, read, count, text]
  have sign := denotes.sign
  unfold Binary.signed at sign
  by_cases negative : a < 0
  · have minus : b.negative = true := by
      cases flag : b.negative with
      | true => rfl
      | false =>
        rw [flag] at sign
        simp only [Bool.false_eq_true, if_false] at sign
        omega
    have nonzero : a.natAbs * tenTo 6 ≠ 0 := Nat.ne_of_gt (Nat.mul_pos (by omega) million)
    rw [minus, toString_int, if_pos negative]
    simp [nonzero]
  · have plain : (b.negative && a.natAbs * tenTo 6 != 0) = false := by
      cases flag : b.negative with
      | true =>
        rw [flag] at sign
        simp only [if_true] at sign
        have zero : a.natAbs = 0 := by omega
        simp [zero]
      | false => rfl
    rw [plain, toString_int, if_neg negative]
    rfl

theorem toWhole (isWhole : IsWhole x a) : toWhole? x = some a := by
  obtain ⟨b, read, denotes⟩ := isWhole.binary
  have small : a.natAbs < tenTo 18 := Nat.lt_trans isWhole.small (by decide)
  simp [toWhole?, read, denotes.isWhole, denotes.floor, small]

end IsWhole

theorem toFloat_whole {m : Nat} (small : m < 2 ^ 53) : m.toUInt64.toFloat = whole .positive m := by
  have exact := normalize_exact (a := m) (by simpa using small) 0
  have fits : m.toUInt64.toNat = m := Nat.mod_eq_of_lt (by omega)
  have sign : signOf m = .positive := by
    unfold signOf
    rw [if_neg (by omega)]
  rw [sign] at exact
  change Float.ofModel (.pack (normalize Format.binary64 (m.toUInt64.toNat : Int) 0 .positive)) = _
  rw [fits, whole]
  simpa using congrArg (fun u => Float.ofModel (.pack u)) exact

/-- A whole number that is written as a decimal is read exactly. -/
theorem ofScientific_whole {m : Nat} (small : m < 2 ^ 53) :
    Float.ofScientific m false 0 = whole .positive m := by
  have fast : m < 2 ^ 53 ∧ 0 ≤ 22 := ⟨small, by omega⟩
  have unit : Float.exactlyRepresentablePowersOfTen[0] = 1.0 := by decide +kernel
  have product := mul_whole .positive .positive small (n := 1) (by omega) (by omega)
  rw [Nat.mul_one] at product
  rw [Float.ofScientific, dif_pos fast]
  simp only [Bool.false_eq_true, if_false]
  rw [toFloat_whole small, unit, IsWhole.one_eq]
  exact product

theorem ofInt_whole {a : Int} (small : a.natAbs < 2 ^ 53) : IsWhole (ofInt a) a := by
  have magnitude : IsWhole (whole .positive a.natAbs) a.natAbs := ⟨.positive, _, small, rfl, rfl⟩
  rw [ofInt, ofScientific_whole small]
  by_cases negative : a < 0
  · have value : -(a.natAbs : Int) = a := by omega
    have negated := magnitude.neg
    rw [value] at negated
    rwa [if_pos negative]
  · have value : (a.natAbs : Int) = a := by omega
    rw [value] at magnitude
    rwa [if_neg negative]

/-- A whole number is the fraction over one. -/
theorem IsWhole.ratio {x : Float} {a : Int} (isWhole : IsWhole x a) : Ratio.ofFloat? x = some ⟨a, 1⟩ := by
  obtain ⟨b, read, denotes⟩ := isWhole.binary
  have billion : IsWhole 1e9 1000000000 := by
    have equal : (1e9 : Float) = whole .positive 1000000000 := by decide +kernel
    exact equal ▸ isWhole_whole (s := .positive) (by omega)
  have none := (isWhole.sub (ofInt_whole isWhole.small) (by simp)).mul billion (by simp)
  rw [Int.sub_self, Int.zero_mul] at none
  obtain ⟨c, readc, denotesc⟩ := none.binary
  have part : Ratio.split x a = (a, 0) := by
    simp [Ratio.split, readc, denotesc.round, Ratio.precision]
  have small : ¬ a.natAbs ≥ tenTo 18 := Nat.not_le_of_lt (Nat.lt_trans isWhole.small (by decide))
  simp only [Ratio.ofFloat?, read, Option.bind_some, denotes.floor, part, small, if_false]
  simp [Ratio.precision]

theorem digitsValue_eq (digits : List Char) : digitsValue digits = Nat.ofDigitChars 10 digits 0 := rfl

theorem length_toDigits_le {n : Nat} (small : n < 2 ^ 53) : (Nat.toDigits 10 n).length ≤ 16 :=
  (Nat.length_toDigits_le_iff (by omega) (by omega)).mpr (Nat.lt_trans small (by decide))

theorem scaled_whole {m : Nat} (small : m < 2 ^ 53) : scaled m 0 = whole .positive m := by
  have short := length_toDigits_le small
  by_cases zero : m = 0
  · simp [scaled, zero, IsWhole.zero_eq]
  · have low : ¬ ((Nat.toDigits 10 m).length : Int) + 0 < -326 := by omega
    have high : ¬ ((Nat.toDigits 10 m).length : Int) + 0 > 310 := by omega
    simp only [scaled, zero, low, high, decide_false, Bool.or_false, Bool.false_eq_true, if_false]
    exact ofScientific_whole small

theorem span_digits {digits : List Char} (all : ∀ c ∈ digits, c.isDigit) :
    digits.takeWhile Char.isDigit = digits ∧ digits.dropWhile Char.isDigit = [] := by
  have taken : (digits ++ []).takeWhile Char.isDigit = digits ++ [].takeWhile Char.isDigit :=
    List.takeWhile_append_of_pos all
  have left : (digits ++ []).dropWhile Char.isDigit = [].dropWhile Char.isDigit :=
    List.dropWhile_append_of_pos all
  exact ⟨by simpa using taken, by simpa using left⟩

theorem readDigits_whole {digits : List Char} (nonempty : digits ≠ [])
    (all : ∀ c ∈ digits, c.isDigit) {n : Nat} (value : digitsValue digits = n)
    (small : n < 2 ^ 53) : readDigits? digits = some (whole .positive n) := by
  simp [readDigits?, span_digits all, nonempty, value, scaled_whole small]

theorem toLower_digit {c : Char} (digit : c.isDigit) : c.toLower = c := by
  unfold Char.toLower
  split
  · next upper =>
    simp [Char.isDigit, UInt32.le_iff_toNat_le] at digit
    obtain ⟨low, high⟩ := upper
    simp [UInt32.le_iff_toNat_le] at low
    omega
  · rfl

theorem readMagnitude_whole {digits : List Char} (nonempty : digits ≠ [])
    (all : ∀ c ∈ digits, c.isDigit) {n : Nat} (value : digitsValue digits = n)
    (small : n < 2 ^ 53) : readMagnitude? digits = some (whole .positive n) := by
  have lower : digits.map Char.toLower = digits :=
    (List.map_congr_left fun c member => toLower_digit (all c member)).trans (List.map_id digits)
  have other (c : Char) (rest : List Char) (letter : c.isDigit = false) :
      digits ≠ c :: rest := fun equal => by
    rw [equal] at all
    simp [all c (List.mem_cons_self ..)] at letter
  unfold readMagnitude?
  rw [lower]
  split
  · next equal => exact absurd (String.ofList_injective equal) (other 'i' _ rfl)
  · next equal => exact absurd (String.ofList_injective equal) (other 'i' _ rfl)
  · next equal => exact absurd (String.ofList_injective equal) (other 'n' _ rfl)
  · exact readDigits_whole nonempty all value small

/-- A text of digits is read as its value. -/
theorem read_whole {text : String} (nonempty : text.toList ≠ [])
    (all : ∀ c ∈ text.toList, c.isDigit) {n : Nat} (value : digitsValue text.toList = n)
    (small : n < 2 ^ 53) : read? text = some (whole .positive n) := by
  have plain := readMagnitude_whole nonempty all value small
  unfold read?
  split
  · next magnitude equal =>
    have := all '-' (by rw [equal]; exact List.mem_cons_self ..)
    simp at this
  · next magnitude equal =>
    have := all '+' (by rw [equal]; exact List.mem_cons_self ..)
    simp at this
  · exact plain

theorem read_negative {text : String} {digits : List Char} (minus : text.toList = '-' :: digits)
    (nonempty : digits ≠ []) (all : ∀ c ∈ digits, c.isDigit) {n : Nat}
    (value : digitsValue digits = n) (small : n < 2 ^ 53) :
    read? text = some (-whole .positive n) := by
  simp [read?, minus, readMagnitude_whole nonempty all value small]

/-- What is written for a whole number reads back. -/
theorem read_toString {a : Int} (small : a.natAbs < 2 ^ 53) : read? (toString a) = some (ofInt a) := by
  have nonempty : Nat.toDigits 10 a.natAbs ≠ [] := Nat.toDigits_ne_nil
  have all : ∀ c ∈ Nat.toDigits 10 a.natAbs, c.isDigit := fun c member =>
    Nat.isDigit_of_mem_toDigits (by omega) (by omega) member
  have value : digitsValue (Nat.toDigits 10 a.natAbs) = a.natAbs := Nat.ofDigitChars_ten_toDigits
  have text : (toString a.natAbs).toList = Nat.toDigits 10 a.natAbs := Nat.toList_repr
  rw [toString_int, ofInt, ofScientific_whole small]
  by_cases negative : a < 0
  · have minus : ("-" ++ toString a.natAbs).toList = '-' :: Nat.toDigits 10 a.natAbs := by
      rw [String.toList_append, text]
      rfl
    rw [if_pos negative, if_pos negative]
    exact read_negative minus nonempty all value small
  · rw [if_neg negative, if_neg negative]
    exact read_whole (text ▸ nonempty) (text ▸ all) (text ▸ value) small

end Stepwise.Decimal
