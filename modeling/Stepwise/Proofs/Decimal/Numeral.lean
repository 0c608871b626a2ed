import Stepwise.Proofs.Decimal.Whole
import Stepwise.Proofs.Token.Spelling

/-! Every numeral of a text reads as a number. -/
namespace Stepwise.Decimal

open Token (IsNumeral)

theorem readDigits_numeral {text : List Char} (numeral : IsNumeral text) : (readDigits? text).isSome := by
  cases numeral with
  | whole nonempty all => simp [readDigits?, span_digits all, nonempty]
  | @point digits fraction all nonempty allBehind =>
    have taken : (digits ++ '.' :: fraction).takeWhile Char.isDigit = digits := by
      rw [List.takeWhile_append_of_pos all]
      simp
    have left : (digits ++ '.' :: fraction).dropWhile Char.isDigit = '.' :: fraction := by
      rw [List.dropWhile_append_of_pos all]
      simp
    simp [readDigits?, taken, left, span_digits allBehind, nonempty]

/-- No numeral is the name of an infinity or of a value that is no number. -/
theorem readMagnitude_numeral {text : List Char} (numeral : IsNumeral text) :
    readMagnitude? text = readDigits? text := by
  obtain ⟨c, rest, rfl, first⟩ := numeral.first
  have other : c.toLower = c ∧ c ≠ 'i' ∧ c ≠ 'n' := by
    rcases first with digit | rfl
    · exact ⟨toLower_digit digit, fun same => by simp [same] at digit, fun same => by simp [same] at digit⟩
    · decide
  have head (name : List Char) (same : String.ofList ((c :: rest).map Char.toLower) = String.ofList name) :
      name.head? = some c := by
    rw [← String.ofList_injective same, List.map_cons, other.1]
    rfl
  unfold readMagnitude?
  split
  · next same => exact absurd (Option.some.inj (head ['i', 'n', 'f'] same)).symm other.2.1
  · next same =>
    exact absurd (Option.some.inj (head ['i', 'n', 'f', 'i', 'n', 'i', 't', 'y'] same)).symm other.2.1
  · next same => exact absurd (Option.some.inj (head ['n', 'a', 'n'] same)).symm other.2.2
  · rfl

/-- A numeral reads as a number, also behind a minus sign. -/
theorem read_numeral {text : String} {digits : List Char} (numeral : IsNumeral digits)
    (spelled : text.toList = digits ∨ text.toList = '-' :: digits) : (read? text).isSome := by
  have magnitude : (readMagnitude? digits).isSome :=
    readMagnitude_numeral numeral ▸ readDigits_numeral numeral
  rcases spelled with plain | minus
  · obtain ⟨c, rest, rfl, first⟩ := numeral.first
    unfold read?
    rw [plain]
    split
    · next same => exact absurd ((List.cons.inj same).1 ▸ first) (by decide)
    · next same => exact absurd ((List.cons.inj same).1 ▸ first) (by decide)
    · exact magnitude
  · simp [read?, minus, magnitude]

end Stepwise.Decimal
