import Stepwise.Proofs.Decimal.Integral
import Stepwise.Proofs.Quantity.Polynomial

/-! Numbers and polynomials with integer coefficients, also beyond `2^53`, where sums and products
are rounded. Main statements: dividing by a common factor, dropping a common power of the letter and
reading off the greatest common factor are exact all the same, and only zero is written `0` and only
one `1`. -/
section

open Polynomial (C X)
open scoped Polynomial

namespace Stepwise

open Decimal (IsRational)

theorem Decimal.IsRational.beq_integral {x : Float} {a : Int} (value : IsRational x a) :
    (x == 0.0) = (a == 0) := by
  have nil : IsRational 0.0 0 := .zero
  rw [value.beq nil, Bool.eq_iff_iff, decide_eq_true_eq, beq_iff_eq, Int.cast_eq_zero]

namespace Polynomial

variable {p : Polynomial} {f g : ℤ[X]} {v : Char}

/-- The coefficients are the integers of `f`, and there are no more. -/
structure Denotes (p : Polynomial) (f : ℤ[X]) : Prop where
  value (i : Nat) : IsRational (p.coefficient i) (f.coeff i)
  size : p.coefficients.size = f.natDegree + 1

theorem make_denotes {coefficients : Array Float}
    (value : ∀ i (inside : i < coefficients.size), IsRational coefficients[i] (f.coeff i))
    (enough : f.natDegree < coefficients.size) (letter : Char) :
    (make coefficients letter).Denotes f ∧ (make coefficients letter).letter = letter := by
  have nil : IsRational 0.0 (0 : Int) := by simpa using IsRational.zero
  obtain ⟨kept, size, same⟩ :=
    make_keeps (R := fun x a => IsRational x a) nil IsRational.beq_integral value enough letter
  exact ⟨⟨kept, size⟩, same⟩

namespace Denotes

theorem degree (denotes : p.Denotes f) : p.degree = f.natDegree := by
  rw [Polynomial.degree, denotes.size, Nat.add_sub_cancel]

theorem getElem (denotes : p.Denotes f) {i : Nat} (inside : i < p.coefficients.size) :
    IsRational p.coefficients[i] (f.coeff i) := by
  have here := denotes.value i
  rwa [coefficient, Array.getD_eq_getD_getElem?, Array.getElem?_eq_getElem inside] at here

/-- Every coefficient is changed on its own. -/
theorem map (denotes : p.Denotes f) {change : Float → Float}
    (changed : ∀ i, ∀ x, IsRational x (f.coeff i) → IsRational (change x) (g.coeff i))
    (degree : g.natDegree ≤ f.natDegree) :
    (p.map change).Denotes g ∧ (p.map change).letter = p.letter := by
  refine make_denotes (fun i inside => ?_) ?_ _
  · rw [Array.getElem_map]
    exact changed i _ (denotes.getElem _)
  · rw [Array.size_map, denotes.size]
    exact Nat.lt_succ_of_le degree

/-- The terms below a power are left out when there are none. -/
theorem shiftDown (denotes : p.Denotes f) {s : Nat} (nonzero : f ≠ 0) (split : f = X ^ s * g) :
    (p.shiftDown s).Denotes g ∧ (p.shiftDown s).letter = p.letter := by
  have rest : g ≠ 0 := fun zero => nonzero (by rw [split, zero, mul_zero])
  have degree : f.natDegree = g.natDegree + s := by rw [split, Polynomial.natDegree_X_pow_mul s rest]
  have size := denotes.size
  refine make_denotes (fun i inside => ?_) ?_ _
  · rw [Array.getElem_extract]
    have here := denotes.getElem (i := s + i) (by rw [Array.size_extract] at inside; omega)
    have same : f.coeff (s + i) = g.coeff i := by rw [split, Nat.add_comm, Polynomial.coeff_X_pow_mul]
    exact same ▸ here
  · rw [Array.size_extract]
    omega

/-- The lowest power is that of the first coefficient other than zero. -/
theorem lowestPower (denotes : p.Denotes f) (nonzero : f ≠ 0) :
    f.coeff p.lowestPower ≠ 0 ∧ ∀ i < p.lowestPower, f.coeff i = 0 := by
  have zeros (i : Nat) (inside : i < p.coefficients.size) :
      (p.coefficients[i] != 0.0) = !(f.coeff i == 0) := by
    rw [bne, (denotes.getElem inside).beq_integral]
  have top : f.natDegree < p.coefficients.size := denotes.size ▸ Nat.lt_succ_self _
  unfold Polynomial.lowestPower
  cases found : p.coefficients.findIdx? (· != 0.0) with
  | none =>
    rw [Array.findIdx?_eq_none_iff] at found
    have last := found _ (Array.getElem_mem top)
    rw [zeros _ top] at last
    simp [nonzero] at last
  | some s =>
    rw [Array.findIdx?_eq_some_iff_getElem] at found
    obtain ⟨inside, foundNonzero, none⟩ := found
    rw [zeros s inside] at foundNonzero
    refine ⟨by simpa using foundNonzero, fun i below => ?_⟩
    have zero := none i below
    rw [zeros i (below.trans inside)] at zero
    simpa using zero

end Denotes

/-- What the coefficients have in common with a number. -/
theorem contentFrom_integral {l : List Float}
    (value : ∀ x ∈ l, ∃ a : Int, IsRational x a ∧ a.natAbs < Decimal.tenTo 18) (n : Nat) :
    ∃ c, contentFrom? n l = (if c = 0 then none else some c) ∧
      ∀ k : Nat, k ∣ c ↔ k ∣ n ∧ ∀ x ∈ l, ∀ a : Int, IsRational x a → (k : Int) ∣ a := by
  induction l generalizing n with
  | nil =>
    exact ⟨n, rfl,
      fun k => ⟨fun divides => ⟨divides, fun x member => (List.not_mem_nil member).elim⟩, And.left⟩⟩
  | cons x l ih =>
    obtain ⟨a, here, small⟩ := value x List.mem_cons_self
    have unique (b : Int) (other : IsRational x b) : b = a := Int.cast_injective (other.unique here)
    have rest := fun y member => value y (List.mem_cons_of_mem x member)
    rw [contentFrom?, here.beq_integral]
    by_cases zero : a = 0
    · obtain ⟨c, same, divides⟩ := ih rest n
      refine ⟨c, by simp [zero, same], fun k => (divides k).trans (and_congr_right fun _ => ?_)⟩
      rw [List.forall_mem_cons]
      exact ⟨fun all => ⟨fun b other => by rw [unique b other, zero]; exact dvd_zero _, all⟩, And.right⟩
    · obtain ⟨c, same, divides⟩ := ih rest (Nat.gcd n a.natAbs)
      refine ⟨c, by simp [zero, here.toWhole_integral small, same], fun k => (divides k).trans ?_⟩
      rw [Nat.dvd_gcd_iff, List.forall_mem_cons, and_assoc, ← Int.natCast_dvd]
      exact and_congr_right fun _ => and_congr_left fun _ =>
        ⟨fun divides b other => unique b other ▸ divides, fun all => all a here⟩

theorem Denotes.content (denotes : p.Denotes f) (small : ∀ i, (f.coeff i).natAbs < Decimal.tenTo 18) :
    ∃ c, p.content? = (if c = 0 then none else some c) ∧ ∀ k : Nat, k ∣ c ↔ ∀ i, (k : Int) ∣ f.coeff i := by
  obtain ⟨c, same, divides⟩ := contentFrom_integral (l := p.coefficients.toList) (fun x member => by
    obtain ⟨i, inside, rfl⟩ := Array.mem_iff_getElem.mp (Array.mem_toList_iff.mp member)
    exact ⟨_, denotes.getElem inside, small i⟩) 0
  refine ⟨c, same, fun k =>
    (divides k).trans ⟨fun all i => ?_, fun all => ⟨dvd_zero k, fun x member a value => ?_⟩⟩⟩
  · by_cases inside : i < p.coefficients.size
    · exact all.2 _ (Array.mem_toList_iff.mpr (Array.getElem_mem inside)) _ (denotes.getElem inside)
    · rw [Polynomial.coeff_eq_zero_of_natDegree_lt (by have := denotes.size; omega)]
      exact dvd_zero _
  · obtain ⟨i, inside, rfl⟩ := Array.mem_iff_getElem.mp (Array.mem_toList_iff.mp member)
    rw [Int.cast_injective (value.unique (denotes.getElem inside))]
    exact all i

/-! ### Text -/

theorem textBelow_mem {c : Char} (n : Nat) {text : String} (member : c ∈ text.toList) :
    c ∈ (p.textBelow n text).toList := by
  induction n generalizing text with
  | zero => exact member
  | succ n ih =>
    rw [textBelow]
    simp only
    split
    · exact ih member
    · exact ih (by simp [member])

theorem mem_termText (letter : Char) {n : Nat} (positive : 0 < n) (x : Float) :
    letter ∈ (termText letter n x).toList := by
  rw [termText, if_neg positive.ne']
  simp [Char.toString]

/-- The letter is written. -/
theorem Denotes.mem_text (denotes : p.Denotes f) (positive : 0 < f.natDegree) : p.letter ∈ p.text.toList := by
  have top : f.coeff f.natDegree ≠ 0 := by
    rw [Polynomial.coeff_natDegree, Polynomial.leadingCoeff_ne_zero]
    rintro rfl
    simp at positive
  have lead : (p.coefficient f.natDegree == 0.0) = false := by
    rw [(denotes.value _).beq_integral, beq_eq_false_iff_ne]
    exact top
  have member : p.letter ∈ (p.textBelow p.coefficients.size "").toList := by
    rw [denotes.size, textBelow]
    simp only [lead, Bool.false_eq_true, if_false]
    exact textBelow_mem _ (by simp [mem_termText p.letter positive])
  have nonempty : (p.textBelow p.coefficients.size "").isEmpty = false := by
    rw [Bool.eq_false_iff, Ne, String.isEmpty_iff]
    intro empty
    rw [empty] at member
    simp at member
  rw [Polynomial.text]
  simp only [nonempty, Bool.false_eq_true, if_false]
  exact member

/-- A polynomial without the letter is written like its number. -/
theorem Denotes.text_flat (denotes : p.Denotes f) (flat : f.natDegree = 0) :
    p.text = toString (f.coeff 0) := by
  have value := denotes.value 0
  have size := denotes.size
  rw [flat] at size
  rw [Polynomial.text, size, textBelow, value.beq_integral]
  generalize f.coeff 0 = a at value ⊢
  by_cases zero : a = 0
  · subst zero
    rfl
  have magnitude : IsRational (p.coefficient 0).abs (a.natAbs : Int) := by
    have here := value.abs
    rwa [← Int.cast_abs, Int.abs_eq_natAbs] at here
  have nil : IsRational 0.0 0 := .zero
  have sign : p.coefficient 0 < 0.0 ↔ a < 0 := by rw [value.lt nil]; exact_mod_cast Iff.rfl
  have written : termText p.letter 0 (p.coefficient 0).abs = toString a.natAbs := by
    rw [termText, if_pos rfl, magnitude.sixPlaces_integral]
    rfl
  rw [Decimal.toString_int]
  by_cases negative : a < 0
  · simp [zero, textBelow, sign, negative, written]
  · simp [zero, textBelow, sign, negative, written]

end Polynomial

namespace Quantity

variable {q : Quantity} {v : Char} {f g : ℤ[X]}

inductive Denotes (v : Char) : Quantity → ℤ[X] → Prop
  | number {x : Float} {a : Int} {f : ℤ[X]} (value : IsRational x a) (flat : f = C a) :
      Denotes v (constant x) f
  | polynomial {p : Polynomial} {f : ℤ[X]} (letter : p.letter = v) (denotes : p.Denotes f) :
      Denotes v (polynomial p) f

namespace Denotes

theorem value_flat (denotes : q.Denotes v f) (flat : f.natDegree = 0) :
    ∃ x, q.value? = some x ∧ IsRational x (f.coeff 0) := by
  cases denotes with
  | number value same => exact ⟨_, rfl, by simpa [same] using value⟩
  | @polynomial p _ letter denotes =>
    exact ⟨p.coefficient 0, by rw [value?, if_pos (denotes.degree.trans flat)], denotes.value 0⟩

theorem value_proper (denotes : q.Denotes v f) (positive : 0 < f.natDegree) : q.value? = none := by
  cases denotes with
  | number value same => simp [same] at positive
  | polynomial letter denotes => rw [value?, if_neg (by rw [denotes.degree]; omega)]

theorem normalized (denotes : q.Denotes v f) : q.normalized.Denotes v f := by
  cases denotes with
  | number value flat => exact .number value flat
  | polynomial letter denotes =>
    rw [Quantity.normalized]
    split
    · next flat =>
      exact .number (denotes.value 0) (Polynomial.eq_C_of_natDegree_eq_zero (denotes.degree.symm.trans flat))
    · exact .polynomial letter denotes

theorem normalized_flat (denotes : q.Denotes v f) (flat : f.natDegree = 0) :
    ∃ x, q.normalized = constant x := by
  cases denotes with
  | @number x a _ value same => exact ⟨x, rfl⟩
  | polynomial letter denotes => exact ⟨_, by rw [Quantity.normalized, if_pos (denotes.degree.trans flat)]⟩

/-- Every coefficient is changed on its own. -/
theorem map (denotes : q.Denotes v f) {change : Float → Float}
    (changed : ∀ i, ∀ x, IsRational x (f.coeff i) → IsRational (change x) (g.coeff i))
    (degree : g.natDegree ≤ f.natDegree) :
    (q.mapCoefficients change).Denotes v g := by
  cases denotes with
  | @number x a _ value flat =>
    subst flat
    rw [Polynomial.natDegree_C, Nat.le_zero] at degree
    exact .number (changed 0 x (by simpa using value)) (Polynomial.eq_C_of_natDegree_eq_zero degree)
  | polynomial letter denotes =>
    obtain ⟨mapped, same⟩ := denotes.map changed degree
    exact .polynomial (same.trans letter) mapped

theorem neg (denotes : q.Denotes v f) : (q.scale (-1.0)).Denotes v (-f) := by
  refine denotes.map (fun i x value => ?_) (Polynomial.natDegree_neg f).le
  rw [Polynomial.coeff_neg, Int.cast_neg]
  exact value.mul_minus_one

/-- Division by a factor of all coefficients. -/
theorem shrink (denotes : q.Denotes v f) {y : Float} {m : Int} (divisor : IsRational y m) (nonzero : m ≠ 0)
    (split : f = C m * g) : (q.shrink y).Denotes v g := by
  refine denotes.map (fun i x value => ?_) ?_
  · rw [split, Polynomial.coeff_C_mul] at value
    exact value.div_integral divisor nonzero
  · rw [split, Polynomial.natDegree_C_mul nonzero]

theorem content (denotes : q.Denotes v f) (small : ∀ i, (f.coeff i).natAbs < Decimal.tenTo 18) :
    ∃ c, q.content? = (if c = 0 then none else some c) ∧ ∀ k : Nat, k ∣ c ↔ ∀ i, (k : Int) ∣ f.coeff i := by
  cases denotes with
  | @number x a _ value flat =>
    subst flat
    have whole := value.toWhole_integral (by simpa using small 0)
    refine ⟨a.natAbs, by simp [content?, contentOf?, whole], fun k => ?_⟩
    rw [← Int.natCast_dvd]
    refine ⟨fun divides i => ?_, fun all => by simpa using all 0⟩
    rw [Polynomial.coeff_C]
    split
    · exact divides
    · exact dvd_zero _
  | polynomial letter denotes => exact denotes.content small

/-- Some coefficient other than zero is a mantissa with zeros behind it. -/
theorem fits (denotes : q.Denotes v f) (i : Nat) : Decimal.FitsMantissa (f.coeff i).natAbs := by
  cases denotes with
  | @number x a _ value flat =>
    subst flat
    rw [Polynomial.coeff_C]
    split
    · exact value.fits
    · exact ⟨0, 0, by decide, by decide, rfl⟩
  | polynomial letter denotes => exact (denotes.value i).fits

theorem text_flat (denotes : q.Denotes v f) (flat : f.natDegree = 0) : q.text = toString (f.coeff 0) := by
  cases denotes with
  | number value same =>
    subst same
    exact value.sixPlaces_integral.trans (by simp)
  | polynomial letter denotes => exact denotes.text_flat flat

/-- Nothing else is written like a number. -/
theorem text_eq_number (denotes : q.Denotes v f) (letter : v.isDigit = false) (n : Nat) :
    q.text = toString n ↔ f = C (n : Int) := by
  have same : toString n = toString (n : Int) := rfl
  by_cases flat : f.natDegree = 0
  · rw [denotes.text_flat flat, same]
    constructor
    · intro written
      rw [Polynomial.eq_C_of_natDegree_eq_zero flat, Int.repr_injective written]
    · rintro rfl
      simp
  · refine ⟨fun written => ?_, fun same => absurd (by simp [same]) flat⟩
    cases denotes with
    | number value constant => exact absurd (by simp [constant]) flat
    | @polynomial p _ sameLetter denotes =>
      have member : v ∈ (toString n).toList :=
        written ▸ sameLetter ▸ denotes.mem_text (Nat.pos_of_ne_zero flat)
      have digit : v.isDigit := Nat.isDigit_of_mem_toDigits (by omega) (by omega) (Nat.toList_repr ▸ member)
      exact absurd digit (by simp [letter])

theorem text_eq_zero (denotes : q.Denotes v f) (letter : v.isDigit = false) : q.text = "0" ↔ f = 0 :=
  (denotes.text_eq_number letter 0).trans (by rw [Nat.cast_zero, Polynomial.C_0])

theorem text_eq_one (denotes : q.Denotes v f) (letter : v.isDigit = false) : q.text = "1" ↔ f = 1 :=
  (denotes.text_eq_number letter 1).trans (by rw [Nat.cast_one, Polynomial.C_1])

end Denotes

end Quantity

end Stepwise

end
