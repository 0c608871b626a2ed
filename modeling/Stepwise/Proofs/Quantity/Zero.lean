import Stepwise.Proofs.Decimal.Quotient
import Stepwise.Proofs.Quantity.Finite
import Stepwise.Proofs.Tree.Building

/-! Zeros with either sign. A double keeps the sign of a zero, and no text does. Main statement: an
operation on numbers gives the same number, or fails alike, when zeros among its operands change
their signs. Of powers this is a hypothesis: it is documented of them, and nothing else is known of
them here. -/
namespace Stepwise

open Decimal (IsRational isFinite)
open Expression (Alike)

/-- Operands that are equal as numbers have powers that are equal as numbers or are no numbers. -/
def Decimal.PowIgnoresSigns (x y : Float) : Prop :=
  ∀ x' y', x == x' → y == y' → isFinite (x.pow y) = isFinite (x'.pow y') ∧
    (isFinite (x.pow y) → x.pow y == x'.pow y')

namespace Quantity

/-- The same quantity, up to the sign of a zero. -/
inductive Same : Quantity → Quantity → Prop
  | refl (q : Quantity) : Same q q
  | number {x y : Float} {p : ℚ} (left : IsRational x p) (right : IsRational y p) :
      Same (constant x) (constant y)

variable {a a' b b' n d : Quantity} {x x' y y' : Float} {p q : ℚ}

/-- Both are written alike. -/
theorem Same.rendered (same : Same a b) : b.rendered = a.rendered := by
  cases same with
  | refl => rfl
  | @number x y p left right =>
    by_cases zero : p = 0
    · subst zero
      have above {z : Float} (zero : IsRational z 0) : ¬ z < 0.0 := fun less => by
        have := (zero.lt IsRational.zero).mp less
        exact lt_irrefl _ this
      simp only [Quantity.rendered, Decimal.sixPlaces_zero left, Decimal.sixPlaces_zero right,
        if_neg (above left), if_neg (above right)]
    · rw [left.eq_of_ne_zero right zero]

theorem outcome_refl (outcome : Outcome) : Alike (Option.Rel Same) outcome outcome := by
  cases outcome with
  | error error => rfl
  | ok result =>
    cases result with
    | none => exact .none
    | some q => exact .some (.refl q)

theorem outcome_eq {first second : Outcome} (equal : first = second) : Alike (Option.Rel Same) first second :=
  equal ▸ outcome_refl first

theorem number_same (left : IsRational x p) (right : IsRational y p) (operation : String) :
    Alike (Option.Rel Same) (number x operation) (number y operation) := by
  simp only [number, ofNumber, left.isFinite, right.isFinite, if_true]
  exact .some (.number left right)

/-- Doubles that are equal as numbers are the same unless they are zero. -/
theorem same_or_zero (left : IsRational x p) (right : IsRational x' p) : x = x' ∨ p = 0 := by
  by_cases zero : p = 0
  · exact .inr zero
  · exact .inl (left.eq_of_ne_zero right zero)

theorem sum_same (left : IsRational x p) (left' : IsRational x' p) (right : IsRational y q)
    (right' : IsRational y' q) (operation : String) :
    Alike (Option.Rel Same) (number (x + y) operation) (number (x' + y') operation) := by
  rcases same_or_zero left left' with rfl | rfl
  · rcases same_or_zero right right' with rfl | rfl
    · exact outcome_refl _
    · exact number_same (left.add_zero right) (left.add_zero right') _
  · exact number_same (left.zero_add right) (left'.zero_add right') _

theorem product_same (left : IsRational x p) (left' : IsRational x' p) (right : IsRational y q)
    (right' : IsRational y' q) (operation : String) :
    Alike (Option.Rel Same) (number (x * y) operation) (number (x' * y') operation) := by
  rcases same_or_zero left left' with rfl | rfl
  · rcases same_or_zero right right' with rfl | rfl
    · exact outcome_refl _
    · exact number_same (left.mul_zero right) (left.mul_zero right') _
  · exact number_same (left.zero_mul right) (left'.zero_mul right') _

theorem ratio_zero (zero : IsRational x 0) : Ratio.ofFloat? x = some ⟨0, 1⟩ := by
  have whole : IsRational x (0 : Int) := by simpa using zero
  rw [whole.ratio]
  rfl

theorem asQuotient_zero (zero : IsRational x 0) : (constant x).asQuotient = Quotient.ofRatio ⟨0, 1⟩ := by
  simp only [asQuotient, value?, ratio_zero zero]

/-- The quotient of two numbers. The divisor is tested and given a positive sign before anything else. -/
theorem div_number (x y : Float) : (constant x).div (constant y) =
    if Decimal.sixPlaces y = "0" then .error .zeroDenominator
    else if y < 0.0 then (Quotient.ofNumbers (x * (-1.0)) (y * (-1.0))).bind combined
      else (Quotient.ofNumbers x y).bind combined := by
  have text : (constant y).text = Decimal.sixPlaces y := rfl
  simp only [div, Quotient.make, text, value?]
  by_cases refused : Decimal.sixPlaces y = "0"
  · simp only [refused, if_true]
    rfl
  · simp only [refused, if_false]
    split <;> rfl

theorem ofNumbers_same (zero : IsRational x 0) (zero' : IsRational x' 0) (finite : IsRational y q) :
    Alike Same (Quotient.ofNumbers x y) (Quotient.ofNumbers x' y) := by
  have refl (result : Except ComputationError Quantity) : Alike Same result result := by
    cases result with
    | error error => rfl
    | ok q => exact .refl q
  unfold Quotient.ofNumbers
  rw [ratio_zero zero, ratio_zero zero']
  split
  · rfl
  · next unequal =>
    split
    · exact refl _
    · have nonzero : q ≠ 0 := fun none => unequal ((finite.beq_iff .zero).mpr none)
      have left := zero.zero_div finite nonzero
      have right := zero'.zero_div finite nonzero
      simp only [ofNumber, left.isFinite, right.isFinite, if_true]
      exact .number left right

theorem combined_same {first second : Except ComputationError Quantity} (same : Alike Same first second) :
    Alike (Option.Rel Same) (first.bind combined) (second.bind combined) := by
  cases first with
  | error error =>
    cases second with
    | error other => exact (show error = other from same)
    | ok b => cases same
  | ok a =>
    cases second with
    | error error => cases same
    | ok b =>
      cases (show Same a b from same) with
      | refl => exact outcome_refl _
      | number left right => exact .some (.number left right)

theorem quotient_same (left : IsRational x p) (left' : IsRational x' p) (right : IsRational y q)
    (right' : IsRational y' q) :
    Alike (Option.Rel Same) ((constant x).div (constant y)) ((constant x').div (constant y')) := by
  rw [div_number, div_number]
  rcases same_or_zero right right' with rfl | rfl
  · rcases same_or_zero left left' with rfl | rfl
    · exact outcome_refl _
    · have zero {x : Float} (zero : IsRational x 0) : IsRational (x * (-1.0)) 0 := by
        simpa using zero.mul_minus_one
      split
      · rfl
      · split
        · exact combined_same (ofNumbers_same (zero left) (zero left') right.mul_minus_one)
        · exact combined_same (ofNumbers_same left left' right)
  · rw [if_pos (Decimal.sixPlaces_zero right), if_pos (Decimal.sixPlaces_zero right')]
    rfl

/-! A fraction meets a number as the quotient that the number is. -/

theorem productTo_zero (zero : IsRational x 0) (zero' : IsRational x' 0) (k : Nat) :
    productTo (k + 1) (constant x) (fraction n d) = productTo (k + 1) (constant x') (fraction n d) ∧
      productTo (k + 1) (fraction n d) (constant x) = productTo (k + 1) (fraction n d) (constant x') := by
  simp only [productTo, isFraction, Bool.or_true, Bool.true_or, if_true, asQuotient_zero zero,
    asQuotient_zero zero', and_self]

theorem sumTo_zero (zero : IsRational x 0) (zero' : IsRational x' 0) (k : Nat) :
    sumTo (k + 1) (constant x) (fraction n d) = sumTo (k + 1) (constant x') (fraction n d) ∧
      sumTo (k + 1) (fraction n d) (constant x) = sumTo (k + 1) (fraction n d) (constant x') := by
  simp only [sumTo, isFraction, Bool.or_true, Bool.true_or, if_true, asQuotient_zero zero,
    asQuotient_zero zero', and_self]

theorem max_depth (x : Float) (n d : Quantity) :
    max (constant x).depth (fraction n d).depth = max n.depth d.depth + 1 ∧
    max (fraction n d).depth (constant x).depth = max n.depth d.depth + 1 :=
  ⟨Nat.zero_max .., Nat.max_zero ..⟩

/-- No operation but the power looks at the sign of a zero beside a fraction. -/
theorem zero_apply_fraction (zero : IsRational x 0) (zero' : IsRational x' 0)
    {operation : Operation} (other : operation ≠ .power) :
    (constant x).apply operation (fraction n d) = (constant x').apply operation (fraction n d) := by
  have product (n d : Quantity) : (constant x).mul (fraction n d) = (constant x').mul (fraction n d) := by
    rw [mul, mul, (max_depth ..).1, (max_depth ..).1, (productTo_zero zero zero' _).1]
  have sum (n d : Quantity) : (constant x).add (fraction n d) = (constant x').add (fraction n d) := by
    rw [add, add, (max_depth ..).1, (max_depth ..).1, (sumTo_zero zero zero' _).1]
  cases operation with
  | add => exact sum n d
  | subtract => exact sum _ _
  | multiply => exact product n d
  | divide => simp only [apply, div, Quotient.toQuantity, product]
  | power => exact absurd rfl other

theorem fraction_apply_zero (zero : IsRational x 0) (zero' : IsRational x' 0)
    {operation : Operation} (other : operation ≠ .power) :
    (fraction n d).apply operation (constant x) = (fraction n d).apply operation (constant x') := by
  have sum {x x' : Float} (zero : IsRational x 0) (zero' : IsRational x' 0) :
      (fraction n d).add (constant x) = (fraction n d).add (constant x') := by
    rw [add, add, (max_depth ..).2, (max_depth ..).2, (sumTo_zero zero zero' _).2]
  have turned {x : Float} (zero : IsRational x 0) : IsRational (x * (-1.0)) 0 := by
    simpa using zero.mul_minus_one
  cases operation with
  | add => exact sum zero zero'
  | subtract => exact sum (turned zero) (turned zero')
  | multiply => simp only [apply, mul, (max_depth ..).2, (productTo_zero zero zero' _).2]
  | divide =>
    have refused {x : Float} (zero : IsRational x 0) :
        (fraction n d).div (constant x) = .error .zeroDenominator := by
      have text : (constant x).text = "0" := Decimal.sixPlaces_zero zero
      simp [div, Quotient.make, text, bind, Except.bind]
    exact (refused zero).trans (refused zero').symm
  | power => exact absurd rfl other

theorem power_same (signs : Decimal.PowIgnoresSigns x y) (left : x == x') (right : y == y') :
    Alike Same (ofNumber (x.pow y) "power") (ofNumber (x'.pow y') "power") := by
  obtain ⟨finite, equal⟩ := signs x' y' left right
  unfold ofNumber
  rw [← finite]
  split
  · next here =>
    obtain ⟨p, value⟩ := Decimal.isRational_of_isFinite here
    obtain ⟨q, value'⟩ := Decimal.isRational_of_isFinite (finite ▸ here)
    obtain rfl := (value.beq_iff value').mp (equal here)
    exact .number value value'
  · rfl

theorem numbers_apply {operation : Operation} (left : IsRational x p)
    (left' : IsRational x' p) (right : IsRational y q) (right' : IsRational y' q)
    (signs : operation = .power → Decimal.PowIgnoresSigns x y) :
    Alike (Option.Rel Same) ((constant x).apply operation (constant y))
      ((constant x').apply operation (constant y')) := by
  cases operation with
  | add => exact sum_same left left' right right' "addition"
  | subtract => exact sum_same left left' right.mul_minus_one right'.mul_minus_one "addition"
  | multiply => exact product_same left left' right right' "multiplication"
  | divide => exact quotient_same left left' right right'
  | power =>
    exact (power_same (signs rfl) ((left.beq_iff left').mpr rfl)
      ((right.beq_iff right').mpr rfl)).map fun _ _ same => .some same

/-- A power of a fraction is taken of the double that the fraction is. -/
theorem fraction_power {u : Float} (value : (fraction n d).value? = some u) (finite : isFinite u)
    (right : IsRational y q) (right' : IsRational y' q) (signs : Decimal.PowIgnoresSigns u y) :
    (fraction n d).pow (constant y) = (fraction n d).pow (constant y') := by
  have without : (fraction n d).isConstant := by rw [isConstant_eq, value]; rfl
  have power (y : Float) : (fraction n d).pow (constant y) =
      (ofNumber (u.pow y) "power").bind fun v => v.asQuotient.bind fun f => f.simplify.bind combined := by
    have known : (constant y).value? = some y := rfl
    simp only [pow, known, without, if_true, value, Option.getD_some]
    rfl
  obtain ⟨p, base⟩ := Decimal.isRational_of_isFinite finite
  have same := power_same signs ((base.beq_iff base).mpr rfl) ((right.beq_iff right').mpr rfl)
  rw [power, power]
  generalize ofNumber (u.pow y) "power" = first, ofNumber (u.pow y') "power" = second at same ⊢
  cases first with
  | error error =>
    cases second with
    | error other => rw [show error = other from same]
    | ok w => cases same
  | ok v =>
    cases second with
    | error other => cases same
    | ok w =>
      cases (show Same v w from same) with
      | refl => rfl
      | number left right =>
        rcases same_or_zero left right with rfl | rfl
        · rfl
        · simp only [Except.bind, asQuotient_zero left, asQuotient_zero right]

theorem Same.of_constant (same : Same (constant x) a) (finite : isFinite x) :
    ∃ y p, a = constant y ∧ IsRational x p ∧ IsRational y p := by
  cases same with
  | refl =>
    obtain ⟨p, value⟩ := Decimal.isRational_of_isFinite finite
    exact ⟨x, p, rfl, value, value⟩
  | number left right => exact ⟨_, _, rfl, left, right⟩

theorem Same.of_fraction (same : Same (fraction n d) a) : a = fraction n d := by
  cases same with
  | refl => rfl

/-- An operation does not look at the signs of zeros. -/
theorem apply_same {operation : Operation} (settled : a.IsSettled) (settled' : b.IsSettled)
    (left : Same a a') (right : Same b b')
    (signs : operation = .power → ∀ x y, a.value? = some x → b.value? = some y →
      Decimal.PowIgnoresSigns x y) :
    Alike (Option.Rel Same) (a.apply operation b) (a'.apply operation b') := by
  obtain ⟨u, value, finite⟩ := settled.value
  obtain ⟨v, value', finite'⟩ := settled'.value
  have blind (power : operation = .power) := signs power u v value value'
  cases settled with
  | number =>
    obtain rfl := Option.some.inj value
    obtain ⟨x', p, rfl, value, other⟩ := left.of_constant finite
    cases settled' with
    | number =>
      obtain rfl := Option.some.inj value'
      obtain ⟨y', q, rfl, value', other'⟩ := right.of_constant finite'
      exact numbers_apply value other value' other' blind
    | ratio ratio =>
      obtain rfl := right.of_fraction
      rcases same_or_zero value other with rfl | rfl
      · exact outcome_refl _
      · by_cases power : operation = .power
        · subst power
          obtain ⟨q, exponent⟩ := Decimal.isRational_of_isFinite finite'
          have same := power_same (blind rfl) ((value.beq_iff other).mpr rfl)
            ((exponent.beq_iff exponent).mpr rfl)
          simp only [apply, pow, value']
          exact same.map fun _ _ same => .some same
        · exact outcome_eq (zero_apply_fraction value other power)
  | ratio ratio =>
    obtain rfl := left.of_fraction
    cases settled' with
    | number =>
      obtain rfl := Option.some.inj value'
      obtain ⟨y', q, rfl, value', other'⟩ := right.of_constant finite'
      rcases same_or_zero value' other' with rfl | rfl
      · exact outcome_refl _
      · by_cases power : operation = .power
        · subst power
          exact outcome_eq (fraction_power value finite value' other' (blind rfl))
        · exact outcome_eq (fraction_apply_zero value' other' power)
    | ratio ratio' =>
      obtain rfl := right.of_fraction
      exact outcome_refl _

end Quantity

end Stepwise
