import Mathlib
import Stepwise.Decimal.Read
import Stepwise.Text.Blank

/-! The characters of numbers. Whatever is read as a number consists of digits, unaccented letters,
points and signs: no blank stands in it, no bracket, and nothing that separates numbers or joins
them. -/
namespace Stepwise.Decimal

def isFigure (c : Char) : Bool := c.isAlphanum || c == '.' || c == '-' || c == '+'

theorem isFigure_digit {c : Char} (digit : c.isDigit) : isFigure c := by
  simp [isFigure, Char.isAlphanum, digit]

theorem isAlpha_toLower {c : Char} (small : c.toLower.isLower) : c.isAlpha := by
  unfold Char.toLower at small
  split at small
  · next upper =>
    have : c.isUpper := by simpa [Char.isUpper] using upper
    simp [Char.isAlpha, this]
  · simp [Char.isAlpha, small]

/-- No figure is a blank. -/
theorem not_blank_of_figure {c : Char} (figure : isFigure c) : Text.isBlank c = false := by
  have small : 43 ≤ c.toNat ∧ c.toNat ≤ 122 := by
    simp only [isFigure, Char.isAlphanum, Char.isAlpha, Char.isUpper, Char.isLower,
      Char.isDigit, Bool.or_eq_true, Bool.and_eq_true, decide_eq_true_eq, beq_iff_eq, ge_iff_le,
      UInt32.le_iff_toNat_le] at figure
    rcases figure with (((((⟨low, high⟩ | ⟨low, high⟩) | ⟨low, high⟩)) | rfl) | rfl) | rfl
    · exact ⟨le_trans (by decide) low, le_trans high (by decide)⟩
    · exact ⟨le_trans (by decide) low, le_trans high (by decide)⟩
    · exact ⟨le_trans (by decide) low, le_trans high (by decide)⟩
    · decide
    · decide
    · decide
  simp only [Text.isBlank, Bool.or_eq_false_iff, Bool.and_eq_false_iff, decide_eq_false_iff_not]
  omega

section Reading

variable {text : List Char} {x : Float}

theorem figure_of_taken {c : Char} (taken : c ∈ text.takeWhile Char.isDigit) : isFigure c :=
  isFigure_digit (List.mem_takeWhile_imp taken)

theorem figure_of_exponent {k : Int} (read : readExponent? text = some k) : ∀ c ∈ text, isFigure c := by
  have digits {digits : List Char} (all : digits ≠ [] ∧ digits.all Char.isDigit) : ∀ c ∈ digits, isFigure c :=
    fun c member => isFigure_digit (List.all_eq_true.mp all.2 c member)
  unfold readExponent? at read
  simp only at read
  split at read <;>
  · obtain ⟨n, found, -⟩ := Option.map_eq_some_iff.mp read
    split at found
    · next all => simpa [isFigure] using digits all
    · cases found

/-- What stands behind the digits: an exponent, or nothing. -/
theorem figure_of_mark {rest : List Char} {f : Int → Float}
    (read : Option.map f
      (match rest with
        | [] => some 0
        | mark :: exponent =>
          if mark = 'e' ∨ mark = 'E' then readExponent? exponent else none) = some x) :
    ∀ c ∈ rest, isFigure c := by
  cases rest with
  | nil => simp
  | cons mark exponent =>
    obtain ⟨k, found, -⟩ := Option.map_eq_some_iff.mp read
    simp only at found
    split at found
    · next marked =>
      have behind := figure_of_exponent found
      rcases marked with rfl | rfl <;> simpa [isFigure] using behind
    · cases found

theorem figure_of_readDigits (read : readDigits? text = some x) : ∀ c ∈ text, isFigure c := by
  intro c member
  rw [← List.takeWhile_append_dropWhile (p := Char.isDigit) (l := text)] at member
  refine (List.mem_append.mp member).elim figure_of_taken fun member => ?_
  unfold readDigits? at read
  cases left : text.dropWhile Char.isDigit with
  | nil =>
    rw [left] at member
    cases member
  | cons d more =>
    rw [left] at member
    simp only [left] at read
    by_cases point : d = '.'
    · subst point
      simp only at read
      split at read
      · cases read
      · rcases List.mem_cons.mp member with rfl | behind
        · rfl
        · rw [← List.takeWhile_append_dropWhile (p := Char.isDigit) (l := more)] at behind
          exact (List.mem_append.mp behind).elim figure_of_taken (figure_of_mark read c)
    · split at read
      · next same => exact absurd (List.cons.inj same).1 point
      · split at read
        · cases read
        · exact figure_of_mark read c member

theorem figure_of_readMagnitude (read : readMagnitude? text = some x) : ∀ c ∈ text, isFigure c := by
  have named {name : List Char} (same : String.ofList (text.map Char.toLower) = String.ofList name)
      (letters : name.all Char.isLower) : ∀ c ∈ text, isFigure c := by
    intro c member
    have small : c.toLower ∈ name := String.ofList_injective same ▸ List.mem_map_of_mem member
    simp [isFigure, Char.isAlphanum, isAlpha_toLower (List.all_eq_true.mp letters _ small)]
  unfold readMagnitude? at read
  split at read
  · next same => exact @named ['i', 'n', 'f'] same (by decide)
  · next same => exact @named ['i', 'n', 'f', 'i', 'n', 'i', 't', 'y'] same (by decide)
  · next same => exact @named ['n', 'a', 'n'] same (by decide)
  · exact figure_of_readDigits read

/-- What is read as a number consists of figures. -/
theorem figure_of_read {text : String} (read : read? text = some x) : ∀ c ∈ text.toList, isFigure c := by
  have signed {sign : Char} {magnitude : List Char} (figure : isFigure sign)
      (same : text.toList = sign :: magnitude) (read : (readMagnitude? magnitude).isSome) :
      ∀ c ∈ text.toList, isFigure c := by
    obtain ⟨v, read⟩ := Option.isSome_iff_exists.mp read
    rw [same]
    exact List.forall_mem_cons.mpr ⟨figure, figure_of_readMagnitude read⟩
  unfold read? at read
  split at read
  · next magnitude same =>
    obtain ⟨v, read, -⟩ := Option.map_eq_some_iff.mp read
    exact signed rfl same (by simp [read])
  · next magnitude same => exact signed rfl same (by simp [read])
  · exact figure_of_readMagnitude read

end Reading

end Stepwise.Decimal
