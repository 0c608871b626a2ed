import Stepwise.Proofs.Quantity.Finite
import Stepwise.Proofs.Quantity.Rational

/-! When a quotient is refused. A denominator is refused if it is written 0, and that is so of every
number up to half a millionth. Main statement: a quotient of finite numbers and of fractions in
lowest terms is refused exactly if the divisor is such a number; no denominator formed on the way is
written 0. -/
namespace Stepwise

open Decimal (IsRational isFinite sixPlaces)

namespace Decimal

theorem roundDiv_eq_zero {num den : Nat} (positive : 0 < den) :
    roundDiv num den .even = 0 ↔ 2 * num ≤ den := by
  obtain ⟨low, high⟩ := roundDiv_bounds num positive .even
  constructor
  · intro none
    rw [none] at low
    omega
  · intro small
    have quotient : num / den = 0 := Nat.div_eq_of_lt (by omega)
    have rest : num % den = num := Nat.mod_eq_of_lt (by omega)
    rcases small.lt_or_eq with less | tie
    · simp [roundDiv, quotient, rest, Nat.compare_eq_lt.mpr less]
    · simp [roundDiv, quotient, rest, Nat.compare_eq_eq.mpr tie]

theorem millionthsText_eq_zero {count : Nat} : millionthsText count = "0" ↔ count = 0 := by
  constructor
  · intro same
    have million : tenTo 6 = 10 ^ 6 := rfl
    by_cases whole : count % tenTo 6 = 0
    · simp only [millionthsText, if_pos whole] at same
      have digits : Nat.toDigits 10 (count / tenTo 6) = Nat.toDigits 10 0 :=
        Nat.toList_repr.symm.trans (congrArg String.toList same)
      have zero : count / tenTo 6 = 0 :=
        calc count / tenTo 6
          _ = Nat.ofDigitChars 10 (Nat.toDigits 10 (count / tenTo 6)) 0 := Nat.ofDigitChars_ten_toDigits.symm
          _ = Nat.ofDigitChars 10 (Nat.toDigits 10 0) 0 := by rw [digits]
          _ = 0 := Nat.ofDigitChars_ten_toDigits
      rw [million] at zero whole
      omega
    · have listed := congrArg String.toList same
      simp only [millionthsText, if_neg whole, String.toList_append] at listed
      have point : '.' ∈ "0".toList := listed ▸ List.mem_append_left _ (List.mem_append_right _ (by decide))
      exact absurd point (by decide)
  · rintro rfl
    rfl

/-- Numbers up to half a millionth are written 0. -/
theorem IsRational.sixPlaces_eq_zero {x : Float} {p : ℚ} (value : IsRational x p) :
    sixPlaces x = "0" ↔ |p| ≤ 1 / 2000000 := by
  obtain ⟨b, -, rfl, written⟩ := sixPlaces_eq value
  obtain ⟨count, magnitude⟩ := b.magnitudeTimes_eq (tenTo 6) .even
  have positive := twoTo_pos (-b.q).toNat
  have divisor : (0 : ℚ) < twoTo (-b.q).toNat := by exact_mod_cast positive
  have million : ((tenTo 6 : Nat) : ℚ) = 1000000 := by norm_num [tenTo]
  have none : b.magnitudeTimes (tenTo 6) .even = 0 ↔ |b.rational| ≤ 1 / 2000000 := by
    rw [count, roundDiv_eq_zero positive]
    generalize b.m * twoTo b.q.toNat * tenTo 6 = num at magnitude ⊢
    generalize twoTo (-b.q).toNat = den at magnitude divisor ⊢
    rw [million] at magnitude
    have cast : 2 * num ≤ den ↔ (2 * num : ℚ) ≤ den := by exact_mod_cast Iff.rfl
    have ratio : (2 * num : ℚ) ≤ den ↔ (num : ℚ) / den ≤ 1 / 2 := by
      rw [div_le_div_iff₀ divisor two_pos, one_mul, mul_comm]
    rw [cast, ratio, magnitude]
    constructor <;> intro small <;> linarith
  rw [written, ← none]
  split
  · next signed =>
    refine iff_of_false (fun same => ?_) signed.2
    have minus : '-' ∈ "0".toList := by
      rw [← same, String.toList_append]
      exact List.mem_append_left _ (by decide)
    exact absurd minus (by decide)
  · exact millionthsText_eq_zero

end Decimal

/-- The computation does not fail because a denominator is refused. -/
def Spares {α : Type} (x : Except ComputationError α) : Prop := x ≠ .error .zeroDenominator

theorem Spares.bind {α β : Type} {x : Except ComputationError α} {f : α → Except ComputationError β}
    (first : Spares x) (rest : ∀ a, x = .ok a → Spares (f a)) : Spares (x >>= f) := by
  cases x with
  | error error => exact fun same => first (congrArg Except.error (Except.error.inj same))
  | ok a => exact rest a rfl

theorem spares_ok {α : Type} (a : α) : Spares (.ok a) := nofun

theorem spares_nonFinite {α : Type} (operation : String) :
    Spares (.error (.nonFinite operation) : Except ComputationError α) :=
  nofun

theorem spares_ofNumber (x : Float) (operation : String) : Spares (Quantity.ofNumber x operation) := by
  unfold Quantity.ofNumber
  split
  · exact spares_ok _
  · exact spares_nonFinite operation

namespace Quotient

open Quantity

variable {x y : Float} {p q : ℚ}

theorem text_number (value : IsRational y q) : (constant y).text = "0" ↔ |q| ≤ 1 / 2000000 :=
  value.sixPlaces_eq_zero

theorem text_of_large (value : IsRational y q) (large : 1 / 2000000 < |q|) :
    (constant y).text ≠ "0" := fun same =>
  absurd ((text_number value).mp same) (not_le.mpr large)

/-- A denominator that is large enough and has no sign is kept. -/
theorem make_above (value : IsRational y q) (large : 1 / 2000000 < q) (n : Quantity) :
    make n (constant y) = .ok ⟨n, constant y⟩ := by
  have order : ¬ y < 0.0 := fun less => by
    have := (value.lt IsRational.zero).mp less
    linarith
  rw [make, if_neg (text_of_large value (large.trans_le (le_abs_self q)))]
  split
  · next known =>
    obtain rfl := Option.some.inj known
    rw [if_neg order]
  · rfl

/-- A denominator that is large enough is kept, without its sign. -/
theorem make_large (value : IsRational y q) (large : 1 / 2000000 < |q|) (x : Float) :
    ∃ v w, make (constant x) (constant y) = .ok ⟨constant v, constant w⟩ ∧ IsRational w |q| := by
  by_cases negative : y < 0.0
  · have below := (value.lt IsRational.zero).mp negative
    refine ⟨x * (-1.0), y * (-1.0), ?_, abs_of_neg below ▸ value.mul_minus_one⟩
    rw [make, if_neg (text_of_large value large)]
    simp only [value?, negative, if_true]
    rfl
  · have above : |q| = q :=
      abs_of_nonneg (not_lt.mp fun below => negative ((value.lt IsRational.zero).mpr below))
    rw [above] at large ⊢
    exact ⟨x, y, make_above value large _, value⟩

theorem make_refused {n d : Quantity} (zero : d.text = "0") : make n d = .error .zeroDenominator := by
  rw [make, if_pos zero]

/-- The denominator of a ratio is not refused. -/
theorem ofNumbers_spares (value : IsRational y q) (nonzero : q ≠ 0) (x : Float) : Spares (ofNumbers x y) := by
  have order : (y == 0.0) = false := by
    rw [value.beq IsRational.zero, decide_eq_false_iff_not]
    exact nonzero
  rw [ofNumbers, order]
  simp only [Bool.false_eq_true, if_false]
  split
  · next r found =>
    obtain ⟨a, -, rest⟩ := Option.bind_eq_some_iff.mp found
    obtain ⟨b, -, divided⟩ := Option.bind_eq_some_iff.mp rest
    obtain ⟨top, bottom, positive⟩ := Ratio.div_within divided
    obtain ⟨d, below, low, -⟩ := (isRatio_ofInt top bottom positive).bottom
    split
    · exact spares_ok _
    · obtain ⟨v, w, made, -⟩ := make_large below (by rw [abs_of_pos] <;> linarith) (Decimal.ofInt r.num)
      rw [ofRatio, made]
      exact spares_ok _
  · exact spares_ofNumber _ _

end Quotient

namespace Quantity

open Stepwise.Quotient (make_large make_refused ofNumbers_spares ofRatio ofNumbers)

variable {a b f g : Quantity} {x y z w : Float} {p q r : ℚ}

/-- Numbers over one another, the lower of which is large enough. -/
theorem quotientOf_spares (value : IsRational y q) (large : 1 / 2000000 < |q|) (x : Float) :
    Spares (quotientOf (some (constant x)) (some (constant y))) := by
  obtain ⟨v, w, made, value'⟩ := make_large value large x
  have nonzero : |q| ≠ 0 := by linarith
  have simplified : Quotient.simplify ⟨constant v, constant w⟩ = ofNumbers v w := rfl
  simp only [quotientOf, made, bind, Except.bind, simplified]
  exact (ofNumbers_spares value' nonzero v).bind fun _ _ => spares_ok _

inductive IsNumeric : Quantity → Prop
  | number {x : Float} {p : ℚ} (value : IsRational x p) : IsNumeric (constant x)
  | fraction {x y : Float} {r : ℚ} (above : IsRational x r.num) (below : IsRational y r.den)
      (proper : r.den ≠ 1) :
      IsNumeric (fraction (constant x) (constant y))

theorem IsNumeric.depth_le (numeric : a.IsNumeric) : a.depth ≤ 1 := by
  cases numeric with
  | number value => exact Nat.zero_le 1
  | fraction above below proper => exact Nat.le_refl 1

/-- Such a quantity is a quotient of two numbers, and the lower one is at least one. -/
theorem IsNumeric.asQuotient (numeric : a.IsNumeric) :
    ∃ x y q, a.asQuotient = .ok ⟨constant x, constant y⟩ ∧ IsRational y q ∧ 1 ≤ q := by
  cases numeric with
  | @number x p value =>
    cases read : Ratio.ofFloat? x with
    | some r =>
      obtain ⟨lowest, divides, -⟩ := Ratio.isRead_of_ofFloat value read
      have most : r.den ≤ Ratio.precision := Int.le_of_dvd (by decide) divides
      have limit : Ratio.precision = 10 ^ 9 := rfl
      have positive := lowest.positive
      have below := (Decimal.ofInt_whole (a := r.den) (by omega)).isRational
      have least : (1 : ℚ) ≤ r.den := by exact_mod_cast positive
      obtain ⟨v, w, made, value'⟩ := make_large below (by rw [abs_of_pos] <;> linarith) (Decimal.ofInt r.num)
      refine ⟨v, w, _, ?_, value', least.trans (le_abs_self _)⟩
      simp only [Quantity.asQuotient, value?, read, ofRatio]
      exact made
    | none =>
      obtain ⟨v, w, made, value'⟩ := make_large IsRational.one (by norm_num) x
      refine ⟨v, w, _, ?_, value', by norm_num⟩
      simp only [Quantity.asQuotient, value?, read, ofNumber, value.isFinite, if_true, bind, Except.bind]
      exact made
  | @fraction x y r above below proper => exact ⟨x, y, r.den, rfl, below, by exact_mod_cast r.den_pos⟩

theorem number_cases (x : Float) (operation : String) :
    (isFinite x ∧ number x operation = .ok (some (constant x))) ∨
      (¬ isFinite x ∧ number x operation = .error (.nonFinite operation)) := by
  by_cases finite : isFinite x
  · exact .inl ⟨finite, by simp [number, ofNumber, finite, Except.map]⟩
  · exact .inr ⟨finite, by simp [number, ofNumber, finite, Except.map]⟩

/-- A product with a fraction whose denominator makes the common one large enough. -/
theorem mul_spares (left : a.asQuotient = .ok ⟨constant x, constant y⟩) (shallow : a.depth ≤ 1)
    (below : IsRational y p) (below' : IsRational w q) (large : 1 / 1000000 < |p * q|) :
    Spares (a.mul (fraction (constant z) (constant w))) := by
  have depth : max a.depth (fraction (constant z) (constant w)).depth = 1 := Nat.max_eq_right shallow
  have product (x y : Float) : productTo 0 (constant x) (constant y) = number (x * y) "multiplication" := by
    unfold productTo
    rfl
  have right : (fraction (constant z) (constant w)).asQuotient = .ok ⟨constant z, constant w⟩ := rfl
  rw [mul, depth, productTo, if_pos (by simp [isFraction])]
  simp only [left, right, bind, Except.bind, product]
  rcases number_cases (x * z) "multiplication" with ⟨-, top⟩ | ⟨-, top⟩
  · rcases number_cases (y * w) "multiplication" with ⟨finite, bottom⟩ | ⟨-, bottom⟩
    · have tiny : (2 : ℚ) ^ (-1074 : Int) ≤ |p * q| :=
        (zpow_le_zpow_right₀ (by norm_num) (by norm_num : (-1074 : Int) ≤ -20)).trans
          (le_trans (by norm_num) large.le)
      obtain ⟨r, value, half⟩ := below.exists_mul below' tiny finite
      simp only [top, bottom]
      exact quotientOf_spares value (by linarith) _
    · simp only [top, bottom]
      exact spares_nonFinite _
  · simp only [top]
    exact spares_nonFinite _

/-- A number is no denominator that is refused. -/
theorem div_number_spares (left : f.IsNumeric) (value : IsRational y q)
    (large : 1 / 2000000 < |q|) : Spares (f.div (constant y)) := by
  cases left with
  | @number x p value' =>
    have divided : (constant x).div (constant y) = quotientOf (some (constant x)) (some (constant y)) := rfl
    rw [divided]
    exact quotientOf_spares value large x
  | @fraction x z r above below proper =>
    obtain ⟨v, w, made, value'⟩ := make_large value large 1.0
    have divided : (fraction (constant x) (constant z)).div (constant y) =
        (fraction (constant x) (constant z)).mul (fraction (constant v) (constant w)) := by
      simp only [div, made, bind, Except.bind]
      rfl
    rw [divided]
    -- the denominator of a fraction is two at least, which makes up for the rounding
    have two : (2 : ℚ) ≤ r.den := by
      have positive := r.den_pos
      exact_mod_cast (by omega : 2 ≤ r.den)
    refine mul_spares rfl (Nat.le_refl 1) below value' ?_
    rw [abs_mul, abs_abs, abs_of_pos (by linarith)]
    have := mul_le_mul_of_nonneg_right two (abs_nonneg q)
    linarith

theorem one_le_num (proper : r.den ≠ 1) : (1 : ℚ) ≤ |(r.num : ℚ)| := by
  have nonzero : r.num ≠ 0 := num_eq_zero fun zero => proper (by rw [zero]; rfl)
  exact_mod_cast Int.one_le_abs nonzero

/-- A fraction in lowest terms is turned over and multiplied. -/
theorem div_fraction_spares (left : f.IsNumeric) (above : IsRational x r.num) (proper : r.den ≠ 1) :
    Spares (f.div (fraction (constant x) (constant y))) := by
  have one := one_le_num proper
  obtain ⟨v, w, made, value⟩ := make_large above (by linarith) y
  obtain ⟨z, u, p, quotient, least, large⟩ := left.asQuotient
  have divided : f.div (fraction (constant x) (constant y)) = f.mul (fraction (constant v) (constant w)) := by
    simp only [div, Quotient.reciprocal, made, bind, Except.bind]
    rfl
  rw [divided]
  refine mul_spares quotient left.depth_le least value ?_
  rw [abs_mul, abs_abs, abs_of_pos (by linarith)]
  have := mul_le_mul large one (by norm_num) (by linarith)
  linarith

/-- A fraction is not written 0 unless its numerator is. -/
theorem text_fraction_ne_zero (top : (constant x).text ≠ "0") : (fraction (constant x) b).text ≠ "0" := by
  unfold Quantity.text at top ⊢
  rw [rendered, fractionRendered]
  split
  · exact top
  · intro same
    have slash : '/' ∈ "0".toList := by
      rw [← same, String.toList_append, String.toList_append]
      exact List.mem_append_left _ (List.mem_append_right _ (by decide))
    exact absurd slash (by decide)

theorem text_eq_zero_iff (numeric : g.IsNumeric) :
    g.text = "0" ↔ ∃ y q, g = constant y ∧ IsRational y q ∧ |q| ≤ 1 / 2000000 := by
  cases numeric with
  | @number y q value =>
    rw [Quotient.text_number value]
    constructor
    · intro small
      exact ⟨y, q, rfl, value, small⟩
    · rintro ⟨_, _, same, value', small⟩
      obtain rfl := constant.inj same
      rwa [value.unique value']
  | @fraction x y r above below proper =>
    have top := Quotient.text_of_large above (by linarith [one_le_num proper])
    exact iff_of_false (text_fraction_ne_zero top) (fun ⟨_, _, same, _⟩ => nomatch same)

/-- A quotient of numbers and of fractions in lowest terms is refused exactly if the divisor is
written 0, and only numbers up to half a millionth are. -/
theorem div_refused_iff (left : f.IsNumeric) (right : g.IsNumeric) :
    (f.div g = .error .zeroDenominator ↔ g.text = "0") ∧
      (g.text = "0" ↔ ∃ y q, g = constant y ∧ IsRational y q ∧ |q| ≤ 1 / 2000000) := by
  refine ⟨⟨fun refused => ?_, fun zero => ?_⟩, text_eq_zero_iff right⟩
  · rw [text_eq_zero_iff right]
    cases right with
    | @number y q value =>
      by_contra other
      exact div_number_spares left value (not_le.mp fun small => other ⟨y, q, rfl, value, small⟩) refused
    | fraction above below proper => exact absurd refused (div_fraction_spares left above proper)
  · obtain ⟨y, q, rfl, -, -⟩ := (text_eq_zero_iff right).mp zero
    cases left with
    | number value => simp only [div, make_refused zero, bind, Except.bind]
    | fraction above below proper => simp only [div, make_refused zero, bind, Except.bind]

theorem div_half_not_refused :
    (constant 1.0).div (fraction (constant 1.0) (constant 2.0)) ≠ .error .zeroDenominator := by
  have half : (fraction (constant 1.0) (constant 2.0)).IsNumeric :=
    .fraction (r := 1 / 2) (by decide +kernel) (by decide +kernel) (by decide +kernel)
  obtain ⟨refused, zero⟩ := div_refused_iff (.number IsRational.one) half
  intro same
  obtain ⟨_, _, other, -⟩ := zero.mp (refused.mp same)
  cases other

/-- One over a tenth of a millionth is refused. -/
theorem div_tiny : ¬ ∀ f g : Quantity, f.IsNumeric → g.IsNumeric →
    (f.div g = .error .zeroDenominator ↔ ∃ v, g.value? = some v ∧ IsRational v 0) := by
  intro all
  have finite : isFinite 1e-7 := by decide +kernel
  have zero : sixPlaces 1e-7 = "0" := by decide +kernel
  have nonzero : ((1e-7 : Float) == 0.0) = false := by decide +kernel
  generalize (1e-7 : Float) = y at finite zero nonzero
  obtain ⟨q, value⟩ := Decimal.isRational_of_isFinite finite
  have refused : (constant 1.0).div (constant y) = .error .zeroDenominator := by
    have made : Quotient.make (constant 1.0) (constant y) = .error .zeroDenominator := make_refused zero
    simp only [div, made, bind, Except.bind]
  obtain ⟨v, same, none⟩ := (all _ _ (.number IsRational.one) (.number value)).mp refused
  obtain rfl := Option.some.inj same
  have equal := (none.beq_iff IsRational.zero).mpr rfl
  rw [nonzero] at equal
  cases equal

end Quantity

end Stepwise
