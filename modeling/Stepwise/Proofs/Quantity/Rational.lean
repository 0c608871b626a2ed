import Stepwise.Proofs.Number.Ratio
import Stepwise.Quantity.Arithmetic

/-! Quantities that stand for rational numbers: a whole number, or a fraction in lowest terms with the
sign above the line. Main statement: as long as the whole numbers on the way are below `2^53`, an
operation on two of them gives the exact result in the same form, or fails because it divides by zero. -/
namespace Stepwise

open Decimal (IsWhole)

/-- The whole number is represented without loss. -/
def Exact (n : Int) : Prop := n.natAbs < 2 ^ 53

instance (n : Int) : Decidable (Exact n) := inferInstanceAs (Decidable (_ < _))

theorem Decimal.IsWhole.unique {x : Float} {a b : Int} (first : IsWhole x a)
    (second : IsWhole x b) : a = b := by
  obtain ⟨c, read, denotes⟩ := first.binary
  obtain ⟨d, read', denotes'⟩ := second.binary
  obtain rfl := Option.some.inj (read.symm.trans read')
  rw [← denotes.floor, denotes'.floor]

theorem toString_injective {a b : Int} (first : Exact a) (second : Exact b)
    (same : toString a = toString b) : a = b := by
  have read := Decimal.read_toString first
  rw [same, Decimal.read_toString second] at read
  have whole := Decimal.ofInt_whole first
  rw [← Option.some.inj read] at whole
  exact whole.unique (Decimal.ofInt_whole second)

def Operation.rational? (operation : Operation) (p q : Rat) : Option Rat :=
  match operation with
  | .add => some (p + q)
  | .subtract => some (p - q)
  | .multiply => some (p * q)
  | .divide => if q = 0 then none else some (p / q)
  | .power => none

/-- The numerators, denominators and cross products that the operation forms are represented without loss. -/
def Operation.Fits (operation : Operation) (p q : Rat) : Prop :=
  match operation with
  | .add =>
    Exact (p.num * q.den) ∧ Exact (q.num * p.den) ∧ Exact (p.num * q.den + q.num * p.den) ∧
      Exact (p.den * q.den)
  | .subtract =>
    Exact (p.num * q.den) ∧ Exact (q.num * p.den) ∧ Exact (p.num * q.den - q.num * p.den) ∧
      Exact (p.den * q.den)
  | .multiply => Exact (p.num * q.num) ∧ Exact (p.den * q.den)
  | .divide => Exact (p.num * q.den) ∧ Exact (p.den * q.num)
  | .power => False

instance (operation : Operation) (p q : Rat) : Decidable (operation.Fits p q) :=
  match operation with
  | .add | .subtract => inferInstanceAs (Decidable (_ ∧ _ ∧ _ ∧ _))
  | .multiply | .divide => inferInstanceAs (Decidable (_ ∧ _))
  | .power => inferInstanceAs (Decidable False)

namespace Quotient

structure Sides (f : Quotient) (n d : Int) : Prop where
  numerator : ∃ x, f.numerator = .constant x ∧ IsWhole x n
  denominator : ∃ y, f.denominator = .constant y ∧ IsWhole y d

end Quotient

namespace Quantity

/-- The quantity is the rational number in lowest terms. -/
inductive Shows : Quantity → Rat → Prop
  | whole {x : Float} {r : Rat} (value : IsWhole x r.num) (unit : r.den = 1) : Shows (.constant x) r
  | fraction {x y : Float} {r : Rat} (above : IsWhole x r.num) (below : IsWhole y r.den)
      (proper : r.den ≠ 1) :
      Shows (.fraction (.constant x) (.constant y)) r

theorem text_whole {x : Float} {a : Int} (whole : IsWhole x a) : (constant x).text = toString a :=
  whole.sixPlaces

theorem text_eq_zero {x : Float} {a : Int} (whole : IsWhole x a) : (constant x).text = "0" ↔ a = 0 := by
  rw [text_whole whole]
  refine ⟨fun same => toString_injective whole.small (b := 0) (by decide) same, ?_⟩
  rintro rfl
  rfl

theorem text_eq_one {x : Float} {a : Int} (whole : IsWhole x a) : (constant x).text = "1" ↔ a = 1 := by
  rw [text_whole whole]
  refine ⟨fun same => toString_injective whole.small (b := 1) (by decide) same, ?_⟩
  rintro rfl
  rfl

theorem number_whole {x : Float} {a : Int} (whole : IsWhole x a) (operation : String) :
    number x operation = .ok (some (constant x)) := by
  simp [number, ofNumber, whole.isFinite, Except.map]

end Quantity

namespace Quotient

open Quantity

theorem whole_neg {x : Float} {a : Int} (whole : IsWhole x a) : IsWhole (x * -1.0) (-a) := by
  have one : IsWhole (-1.0) (-1) := IsWhole.one.neg
  have small := whole.small
  have product := whole.mul one (by omega)
  rwa [Int.mul_neg_one] at product

theorem make_zero {x y : Float} {d : Int} (below : IsWhole y d) (zero : d = 0) :
    make (.constant x) (.constant y) = .error .zeroDenominator := by
  simp [make, (text_eq_zero below).mpr zero]

theorem make_positive {x y : Float} {n d : Int} (above : IsWhole x n) (below : IsWhole y d)
    (positive : 0 < d) :
    ∃ f, make (.constant x) (.constant y) = .ok f ∧ f.Sides n d := by
  have text : (Quantity.constant y).text ≠ "0" := fun same => by
    have := (text_eq_zero below).mp same
    omega
  have order : ¬ y < 0.0 := fun less => by
    have := below.lt_zero.mp less
    omega
  refine ⟨_, by simp only [make, text, if_false, value?, order]; rfl, ⟨_, rfl, above⟩, ⟨_, rfl, below⟩⟩

/-- The sign stands above the line. -/
theorem make_negative {x y : Float} {n d : Int} (above : IsWhole x n) (below : IsWhole y d)
    (negative : d < 0) :
    ∃ f, make (.constant x) (.constant y) = .ok f ∧ f.Sides (-n) (-d) := by
  have text : (Quantity.constant y).text ≠ "0" := fun same => by
    have := (text_eq_zero below).mp same
    omega
  have order := below.lt_zero.mpr negative
  refine ⟨_, by simp only [make, text, if_false, value?, order, if_true]; rfl, ⟨_, rfl, whole_neg above⟩,
    ⟨_, rfl, whole_neg below⟩⟩

theorem div_whole {n d : Int} (above : n.natAbs < 2 ^ 127) (below : d.natAbs < 2 ^ 127) (nonzero : d ≠ 0) :
    Ratio.div? ⟨n, 1⟩ ⟨d, 1⟩ = some ⟨(Rat.divInt n d).num, (Rat.divInt n d).den⟩ := by
  simp only [Ratio.div?, Int.mul_one, Int.one_mul, Ratio.fits_of_lt above, Ratio.fits_of_lt below,
    Bool.and_self, if_true]
  rw [Ratio.make_eq n nonzero, Rat.divInt_eq_div]
  rfl

theorem exact_divInt {n d : Int} (above : Exact n) (below : Exact d) (nonzero : d ≠ 0) :
    Exact (Rat.divInt n d).num ∧ Exact (Rat.divInt n d).den := by
  unfold Exact at *
  have dvdn : (Int.gcd d n : Int) ∣ n := Int.gcd_dvd_right ..
  constructor
  · rw [Rat.num_divInt, Int.mul_ediv_assoc _ dvdn, Int.natAbs_mul,
      Int.natAbs_sign_of_ne_zero nonzero, Nat.one_mul, Int.natAbs_ediv_of_dvd dvdn]
    exact Nat.lt_of_le_of_lt (Nat.div_le_self ..) above
  · rw [Rat.den_divInt, if_neg nonzero, Int.natAbs_natCast]
    exact Nat.lt_of_le_of_lt (Nat.div_le_self ..) below

/-- Whole sides are brought to lowest terms. -/
theorem simplify_whole {f : Quotient} {n d : Int} (sides : f.Sides n d) (nonzero : d ≠ 0) :
    ∃ q, f.simplify = .ok q ∧ q.Shows (Rat.divInt n d) := by
  obtain ⟨numerator, denominator⟩ := f
  obtain ⟨⟨x, rfl, above⟩, ⟨y, rfl, below⟩⟩ := sides
  obtain ⟨num, den⟩ := exact_divInt above.small below.small nonzero
  have order : (y == 0.0) = false := by rw [below.beq_zero, beq_eq_false_iff_ne]; exact nonzero
  have quotient : Quotient.simplify ⟨.constant x, .constant y⟩ = ofNumbers x y := rfl
  rw [quotient, ofNumbers, order, above.ratio, below.ratio]
  simp only [Bool.false_eq_true, if_false, Option.bind_some,
    div_whole (above.small.trans (by norm_num)) (below.small.trans (by norm_num)) nonzero]
  by_cases unit : (Rat.divInt n d).den = 1
  · rw [if_pos (by rw [unit]; rfl)]
    exact ⟨_, rfl, .whole (Decimal.ofInt_whole num) unit⟩
  · rw [if_neg (by omega)]
    have positive := (Rat.divInt n d).den_pos
    obtain ⟨f, made, ⟨x, numerator, above⟩, ⟨y, denominator, below⟩⟩ :=
      make_positive (Decimal.ofInt_whole num) (Decimal.ofInt_whole den) (by omega)
    refine ⟨f.toQuantity, by rw [ofRatio, made]; rfl, ?_⟩
    rw [toQuantity, numerator, denominator]
    exact .fraction above below unit

end Quotient

namespace Quantity

variable {a b : Quantity} {p q : Rat}

/-- Lowest terms are as simple as they get. -/
theorem Shows.normalized (isShown : a.Shows p) : a.normalized = a := by
  cases isShown with
  | whole value unit => rfl
  | fraction above below proper =>
    have numerator : ¬ (constant _).text = "0" := fun same => proper (by
      have zero := (text_eq_zero above).mp same
      have reduced := p.reduced
      rw [zero] at reduced
      simpa using reduced)
    have denominator : ¬ (constant _).text = "1" := fun same => proper (by
      have one := (text_eq_one below).mp same
      omega)
    rw [Quantity.normalized, if_neg numerator, if_neg denominator]

theorem Shows.asQuotient (isShown : a.Shows p) : ∃ f, a.asQuotient = .ok f ∧ f.Sides p.num p.den := by
  cases isShown with
  | whole value unit =>
    obtain ⟨f, made, sides⟩ :=
      Quotient.make_positive (Decimal.ofInt_whole value.small)
        (Decimal.ofInt_whole (a := 1) (by decide)) (by decide)
    refine ⟨f, ?_, by rw [unit]; exact sides⟩
    simp only [Quantity.asQuotient, value?, value.ratio, Quotient.ofRatio]
    exact made
  | fraction above below proper => exact ⟨_, rfl, ⟨_, rfl, above⟩, ⟨_, rfl, below⟩⟩

/-- Two whole numbers over one another, brought to lowest terms. -/
theorem divided_whole {x y : Float} {n d : Int} (above : IsWhole x n) (below : IsWhole y d)
    (nonzero : d ≠ 0) :
    ∃ v, quotientOf (some (constant x)) (some (constant y)) = .ok (some v) ∧ v.Shows (Rat.divInt n d) := by
  obtain ⟨f, v, made, simplified, isShown⟩ : ∃ f v, Quotient.make (constant x) (constant y) = .ok f ∧
      f.simplify = .ok v ∧ v.Shows (Rat.divInt n d) := by
    by_cases negative : d < 0
    · obtain ⟨f, made, sides⟩ := Quotient.make_negative above below negative
      obtain ⟨v, simplified, isShown⟩ := Quotient.simplify_whole sides (by omega)
      exact ⟨f, v, made, simplified, Rat.neg_divInt_neg n d ▸ isShown⟩
    · obtain ⟨f, made, sides⟩ := Quotient.make_positive above below (by omega)
      obtain ⟨v, simplified, isShown⟩ := Quotient.simplify_whole sides nonzero
      exact ⟨f, v, made, simplified, isShown⟩
  refine ⟨v, ?_, isShown⟩
  simp only [quotientOf, made, bind, Except.bind, simplified, combined, isShown.normalized]

theorem product_whole {x y : Float} {m n : Int} (left : IsWhole x m) (right : IsWhole y n)
    (unrounded : Exact (m * n)) (k : Nat) :
    productTo k (constant x) (constant y) = .ok (some (constant (x * y))) := by
  unfold productTo
  exact number_whole (left.mul right unrounded) "multiplication"

theorem sum_whole {x y : Float} {m n : Int} (left : IsWhole x m) (right : IsWhole y n)
    (unrounded : Exact (m + n)) (k : Nat) :
    sumTo k (constant x) (constant y) = .ok (some (constant (x + y))) := by
  unfold sumTo
  exact number_whole (left.add right unrounded) "addition"

/-- The quantity is a quotient of the two whole numbers, which need not be in lowest terms. -/
def Over (a : Quantity) (n d : Int) : Prop := ∃ f, a.asQuotient = .ok f ∧ f.Sides n d

theorem Shows.exact (isShown : a.Shows p) : Exact p.num ∧ Exact p.den := by
  cases isShown with
  | whole value unit =>
    rw [unit]
    exact ⟨value.small, by decide⟩
  | fraction above below proper => exact ⟨above.small, below.small⟩

theorem Shows.asRatio (isShown : a.Shows p) : a.Over p.num p.den := isShown.asQuotient

theorem over_of_sides {f : Quotient} {n d : Int} (sides : f.Sides n d) :
    f.toQuantity.Over n d ∧ f.toQuantity.isFraction ∧ f.toQuantity.depth = 1 := by
  obtain ⟨numerator, denominator⟩ := f
  obtain ⟨⟨x, rfl, above⟩, ⟨y, rfl, below⟩⟩ := sides
  exact ⟨⟨_, rfl, ⟨x, rfl, above⟩, ⟨y, rfl, below⟩⟩, rfl, rfl⟩

theorem Shows.depth_le (isShown : a.Shows p) : a.depth ≤ 1 := by
  cases isShown with
  | whole value unit => exact Nat.zero_le 1
  | fraction above below proper => exact Nat.le_refl 1

/-- Either both quantities are whole numbers, or one of them is a fraction. -/
theorem shows_cases (left : a.Shows p) (right : b.Shows q) :
    (∃ x y, a = constant x ∧ b = constant y ∧ IsWhole x p.num ∧ IsWhole y q.num ∧ p.den = 1 ∧ q.den = 1) ∨
      (a.isFraction || b.isFraction) ∧ max a.depth b.depth = 1 := by
  cases left with
  | whole value unit =>
    cases right with
    | whole value' unit' => exact .inl ⟨_, _, rfl, rfl, value, value', unit, unit'⟩
    | fraction above below proper => exact .inr ⟨rfl, rfl⟩
  | fraction above below proper =>
    cases right with
    | whole value unit => exact .inr ⟨rfl, rfl⟩
    | fraction above' below' proper' => exact .inr ⟨rfl, rfl⟩

theorem mul_over {m n d e : Int} (left : a.Over m d)
    (right : b.Over n e) (fraction : a.isFraction || b.isFraction) (depth : max a.depth b.depth = 1)
    (above : Exact (m * n)) (below : Exact (d * e)) (nonzero : d * e ≠ 0) :
    ∃ v, a.mul b = .ok (some v) ∧ v.Shows (Rat.divInt (m * n) (d * e)) := by
  obtain ⟨l, quotient, ⟨x, lnum, xnum⟩, ⟨y, lden, yden⟩⟩ := left
  obtain ⟨r, quotient', ⟨z, rnum, znum⟩, ⟨w, rden, wden⟩⟩ := right
  obtain ⟨v, divided, isShown⟩ := divided_whole (xnum.mul znum above) (yden.mul wden below) nonzero
  refine ⟨v, ?_, isShown⟩
  rw [mul, depth, productTo, if_pos fraction]
  simp only [quotient, quotient', bind, Except.bind, lnum, rnum, lden, rden, product_whole xnum znum above 0,
    product_whole yden wden below 0]
  exact divided

theorem add_over {m n d e : Int} (left : a.Over m d)
    (right : b.Over n e) (fraction : a.isFraction || b.isFraction) (depth : max a.depth b.depth = 1)
    (first : Exact (m * e)) (second : Exact (n * d)) (sum : Exact (m * e + n * d))
    (below : Exact (d * e)) (nonzero : d * e ≠ 0) :
    ∃ v, a.add b = .ok (some v) ∧ v.Shows (Rat.divInt (m * e + n * d) (d * e)) := by
  obtain ⟨l, quotient, ⟨x, lnum, xnum⟩, ⟨y, lden, yden⟩⟩ := left
  obtain ⟨r, quotient', ⟨z, rnum, znum⟩, ⟨w, rden, wden⟩⟩ := right
  have above := (xnum.mul wden first).add (znum.mul yden second) sum
  obtain ⟨v, divided, isShown⟩ := divided_whole above (yden.mul wden below) nonzero
  refine ⟨v, ?_, isShown⟩
  rw [add, depth, sumTo, if_pos fraction]
  simp only [quotient, quotient', bind, Except.bind, lnum, rnum, lden, rden, mul,
    product_whole xnum wden first, product_whole znum yden second, product_whole yden wden below,
    sum_whole (xnum.mul wden first) (znum.mul yden second) sum 0]
  exact divided

theorem den_ne_zero (p q : Rat) : (p.den : Int) * q.den ≠ 0 := by
  have first := p.den_pos
  have second := q.den_pos
  exact Int.mul_ne_zero (by omega) (by omega)

theorem eq_intCast {r : Rat} (unit : r.den = 1) : r = (r.num : Rat) := Rat.ext rfl unit

theorem mul_shows (left : a.Shows p) (right : b.Shows q) (fits : Operation.Fits .multiply p q) :
    ∃ v, a.mul b = .ok (some v) ∧ v.Shows (p * q) := by
  obtain ⟨above, below⟩ := fits
  rcases shows_cases left right with ⟨x, y, rfl, rfl, first, second, unit, unit'⟩ | ⟨fraction, depth⟩
  · refine ⟨_, product_whole first second above _, ?_⟩
    rw [eq_intCast unit, eq_intCast unit', ← Rat.intCast_mul]
    exact .whole (first.mul second above) rfl
  · have value : p * q = Rat.divInt (p.num * q.num) (p.den * q.den) := by
      rw [Rat.mul_def', ← Rat.divInt_ofNat]
      rfl
    rw [value]
    exact mul_over left.asRatio right.asRatio fraction depth above below (den_ne_zero p q)

theorem add_shows (left : a.Shows p) (right : b.Shows q) (fits : Operation.Fits .add p q) :
    ∃ v, a.add b = .ok (some v) ∧ v.Shows (p + q) := by
  obtain ⟨first, second, sum, below⟩ := fits
  rcases shows_cases left right with ⟨x, y, rfl, rfl, whole, whole', unit, unit'⟩ | ⟨fraction, depth⟩
  · rw [unit, unit', Int.natCast_one, Int.mul_one, Int.mul_one] at sum
    refine ⟨_, sum_whole whole whole' sum _, ?_⟩
    rw [eq_intCast unit, eq_intCast unit', ← Rat.intCast_add]
    exact .whole (whole.add whole' sum) rfl
  · have value : p + q = Rat.divInt (p.num * q.den + q.num * p.den) (p.den * q.den) := by
      rw [Rat.add_def', ← Rat.divInt_ofNat]
      rfl
    rw [value]
    exact add_over left.asRatio right.asRatio fraction depth first second sum below (den_ne_zero p q)

theorem Shows.neg (isShown : a.Shows p) : (a.scale (-1.0)).Shows (-p) := by
  cases isShown with
  | whole value unit => exact .whole (Quotient.whole_neg value) unit
  | fraction above below proper => exact .fraction (Quotient.whole_neg above) below proper

theorem sub_shows (left : a.Shows p) (right : b.Shows q) (fits : Operation.Fits .subtract p q) :
    ∃ v, a.sub b = .ok (some v) ∧ v.Shows (p - q) := by
  obtain ⟨first, second, difference, below⟩ := fits
  have negated : Operation.Fits .add p (-q) := by
    unfold Operation.Fits Exact at *
    simp only [Rat.neg_num, Rat.neg_den, Int.neg_mul, Int.natAbs_neg, ← Int.sub_eq_add_neg]
    exact ⟨first, second, difference, below⟩
  rw [Rat.sub_eq_add_neg]
  exact add_shows left right.neg negated

theorem div_eq_divInt (p q : Rat) : p / q = Rat.divInt (p.num * q.den) (p.den * q.num) := by
  have value : p = Rat.divInt p.num p.den := (Rat.num_divInt_den p).symm
  rw [Rat.div_def, Rat.inv_def]
  conv => lhs; arg 1; rw [value]
  rw [Rat.divInt_mul_divInt]

theorem num_eq_zero {q : Rat} (nonzero : q ≠ 0) : q.num ≠ 0 := fun zero => nonzero (Rat.num_eq_zero.mp zero)

/-- A quotient with the sides of `q` exchanged. -/
theorem div_fraction {x y : Float} (left : a.Shows p) (above : IsWhole x q.num)
    (below : IsWhole y q.den) (nonzero : q ≠ 0) (fits : Operation.Fits .divide p q) :
    ∃ v, a.div (.fraction (constant x) (constant y)) = .ok (some v) ∧ v.Shows (p / q) := by
  obtain ⟨first, second⟩ := fits
  unfold Exact at first second
  have num := num_eq_zero nonzero
  have den : (p.den : Int) ≠ 0 := by have := p.den_pos; omega
  have product : (p.den : Int) * q.num ≠ 0 := Int.mul_ne_zero den num
  have depth {c : Quantity} (one : c.depth = 1) : max a.depth c.depth = 1 := by
    rw [one]
    exact Nat.max_eq_right left.depth_le
  rw [div_eq_divInt]
  by_cases negative : q.num < 0
  · obtain ⟨f, made, sides⟩ := Quotient.make_negative below above negative
    obtain ⟨ratio, fraction, one⟩ := over_of_sides sides
    have unrounded : Exact (p.num * -q.den) ∧ Exact (p.den * -q.num) := by
      unfold Exact
      rw [Int.mul_neg, Int.mul_neg, Int.natAbs_neg, Int.natAbs_neg]
      exact ⟨first, second⟩
    obtain ⟨v, result, isShown⟩ := mul_over left.asRatio ratio (by simp [fraction])
      (depth one) unrounded.1 unrounded.2 (by rw [Int.mul_neg]; omega)
    rw [Int.mul_neg, Int.mul_neg, Rat.neg_divInt_neg] at isShown
    exact ⟨v, by simp only [div, Quotient.reciprocal, made, bind, Except.bind]; exact result, isShown⟩
  · obtain ⟨f, made, sides⟩ := Quotient.make_positive below above (by omega)
    obtain ⟨ratio, fraction, one⟩ := over_of_sides sides
    obtain ⟨v, result, isShown⟩ :=
      mul_over left.asRatio ratio (by simp [fraction]) (depth one) first second product
    exact ⟨v, by simp only [div, Quotient.reciprocal, made, bind, Except.bind]; exact result, isShown⟩

/-- A fraction over a whole number. -/
theorem div_whole {y : Float} (left : a.Shows p) (proper : a.isFraction) (below : IsWhole y q.num)
    (unit : q.den = 1) (nonzero : q ≠ 0) (fits : Operation.Fits .divide p q) :
    ∃ v, a.div (constant y) = .ok (some v) ∧ v.Shows (p / q) := by
  obtain ⟨first, second⟩ := fits
  rw [unit, Int.natCast_one] at first
  unfold Exact at first second
  have num := num_eq_zero nonzero
  have den : (p.den : Int) ≠ 0 := by have := p.den_pos; omega
  have product : (p.den : Int) * q.num ≠ 0 := Int.mul_ne_zero den num
  have depth {c : Quantity} (one : c.depth = 1) : max a.depth c.depth = 1 := by
    rw [one]
    exact Nat.max_eq_right left.depth_le
  have over_unit {f : Quotient} (made : Quotient.make (constant 1.0) (constant y) = .ok f) :
      a.div (constant y) = a.mul f.toQuantity := by
    cases left with
    | whole value unit => simp [isFraction] at proper
    | fraction above below proper => simp only [div, made, bind, Except.bind]
  rw [div_eq_divInt, unit, Int.natCast_one]
  by_cases negative : q.num < 0
  · obtain ⟨f, made, sides⟩ := Quotient.make_negative IsWhole.one below negative
    obtain ⟨ratio, fraction, one⟩ := over_of_sides sides
    have unrounded : Exact (p.num * -1) ∧ Exact (p.den * -q.num) := by
      unfold Exact
      rw [Int.mul_neg, Int.mul_neg, Int.natAbs_neg, Int.natAbs_neg]
      exact ⟨first, second⟩
    obtain ⟨v, result, isShown⟩ := mul_over left.asRatio ratio (by simp [fraction])
      (depth one) unrounded.1 unrounded.2 (by rw [Int.mul_neg]; omega)
    rw [Int.mul_neg, Int.mul_neg, Rat.neg_divInt_neg] at isShown
    exact ⟨v, (over_unit made).trans result, isShown⟩
  · obtain ⟨f, made, sides⟩ := Quotient.make_positive IsWhole.one below (by omega)
    obtain ⟨ratio, fraction, one⟩ := over_of_sides sides
    obtain ⟨v, result, isShown⟩ :=
      mul_over left.asRatio ratio (by simp [fraction]) (depth one) first second product
    exact ⟨v, (over_unit made).trans result, isShown⟩

theorem div_shows (left : a.Shows p) (right : b.Shows q) (nonzero : q ≠ 0)
    (fits : Operation.Fits .divide p q) :
    ∃ v, a.div b = .ok (some v) ∧ v.Shows (p / q) := by
  cases right with
  | fraction above below proper => exact div_fraction left above below nonzero fits
  | whole value unit =>
    cases left with
    | fraction above below proper =>
      exact div_whole (.fraction above below proper) rfl value unit nonzero fits
    | whole value' unit' =>
      obtain ⟨v, result, isShown⟩ := divided_whole value' value (num_eq_zero nonzero)
      refine ⟨v, result, ?_⟩
      rw [div_eq_divInt, unit, unit', Int.natCast_one, Int.mul_one, Int.one_mul]
      exact isShown

theorem div_zero (left : a.Shows p) (right : b.Shows 0) : a.div b = .error .zeroDenominator := by
  cases right with
  | fraction above below proper => exact absurd rfl proper
  | whole value unit =>
    cases left with
    | fraction above below proper => simp only [div, Quotient.make_zero value rfl, bind, Except.bind]
    | whole value' unit' => simp only [div, Quotient.make_zero value rfl, bind, Except.bind]

/-- An operation on two rational numbers gives the exact result, or divides by zero. -/
theorem apply_shows {operation : Operation} (left : a.Shows p) (right : b.Shows q)
    (fits : operation.Fits p q) :
    match operation.rational? p q with
    | some r => ∃ v, a.apply operation b = .ok (some v) ∧ v.Shows r
    | none => a.apply operation b = .error .zeroDenominator := by
  cases operation with
  | add => exact add_shows left right fits
  | subtract => exact sub_shows left right fits
  | multiply => exact mul_shows left right fits
  | divide =>
    simp only [Operation.rational?]
    by_cases zero : q = 0
    · rw [if_pos zero]
      exact div_zero left (zero ▸ right)
    · rw [if_neg zero]
      exact div_shows left right zero fits
  | power => exact fits.elim

/-- A rational number is written as it is read. -/
theorem Shows.text (isShown : a.Shows p) : a.text = toString p := by
  cases isShown with
  | whole value unit =>
    rw [text_whole value]
    simp [toString, unit]
  | @fraction x y _ above below proper =>
    have order : ¬ y < 0.0 := fun less => by
      have := below.lt_zero.mp less
      omega
    have denominator : (constant y).rendered = ⟨toString (p.den : Int), .atom⟩ := by
      simp only [rendered, order, if_false, below.sixPlaces]
    have numerator : (constant x).rendered.text = toString p.num := text_whole above
    have one : ¬ (constant y).rendered.text = "1" := fun same => proper (by
      have := (text_eq_one below).mp same
      omega)
    have zero : ¬ (constant x).rendered.text = "0" := fun same => proper (by
      have zero := (text_eq_zero above).mp same
      have reduced := p.reduced
      rw [zero] at reduced
      simpa using reduced)
    have plain : (decide ((constant y).rendered.text = "1") ||
        decide ((constant x).rendered.text = "0")) = false := by
      rw [decide_eq_false one, decide_eq_false zero]
      rfl
    rw [Quantity.text, rendered, fractionRendered, plain, denominator]
    simp only [Bool.false_eq_true, if_false, if_true, numerator, Rendered.within]
    simp only [toString, proper, if_false]
    rfl

end Quantity

end Stepwise
