import Stepwise.Proofs.Decimal.Integral
import Stepwise.Proofs.Quantity.Constant

/-! Quantities without an infinity or NaN in them. Main statement: an operation on two numbers fails
or gives a finite number, or a fraction of two whole numbers. -/
namespace Stepwise

open Decimal (isFinite IsRational slack)

def Argument.IsFinite : Argument → Prop
  | numeric x => isFinite x
  | symbolic _ => True

def Polynomial.IsFinite (p : Polynomial) : Prop := ∀ c ∈ p.coefficients, isFinite c

def Quantity.IsFinite : Quantity → Prop
  | constant x => isFinite x
  | polynomial p => p.IsFinite
  | trig t => t.argument.IsFinite ∧ isFinite t.coef ∧ isFinite t.power
  | log t => isFinite t.base ∧ t.argument.IsFinite ∧ isFinite t.coef ∧ isFinite t.power
  | fraction n d => n.IsFinite ∧ d.IsFinite

def Ratio.IsWithin (n : Int) : Prop := n.natAbs ≤ 2 ^ 127

namespace Ratio

theorem isWithin_of_fits {n : Int} (fits : Ratio.fits n) : IsWithin n := by
  have power : (Decimal.twoTo 127 : Int) = 2 ^ 127 := rfl
  simp only [Ratio.fits, power, Bool.and_eq_true, decide_eq_true_eq] at fits
  unfold IsWithin
  omega

theorem make_within {num den : Int} {r : Ratio} (top : IsWithin num) (bottom : IsWithin den)
    (made : make? num den = some r) :
    IsWithin r.num ∧ IsWithin r.den ∧ 0 < r.den := by
  unfold make? at made
  split at made
  · cases made
  · next nonzero =>
    obtain rfl := Option.some.inj made
    have positive : (0 : Int) < Int.gcd num den := by
      exact_mod_cast Int.gcd_pos_of_ne_zero_right num nonzero
    obtain ⟨k, factor⟩ : (Int.gcd num den : Int) ∣ den := Int.gcd_dvd_right ..
    have quotient : den.tdiv (Int.gcd num den) = k := Int.tdiv_eq_of_eq_mul_right positive.ne' factor
    have signed {n : Int} (within : IsWithin n) :
        IsWithin ((if den < 0 then -1 else 1) * n.tdiv (Int.gcd num den)) := by
      have less := Int.natAbs_tdiv_le_natAbs n (Int.gcd num den)
      have unit : (if den < 0 then -1 else 1 : Int).natAbs = 1 := by split <;> rfl
      rw [IsWithin, Int.natAbs_mul, unit, Nat.one_mul]
      exact less.trans within
    refine ⟨signed top, signed bottom, ?_⟩
    simp only [quotient]
    split
    · next negative =>
      have : k < 0 := by
        by_contra other
        exact absurd (factor ▸ mul_nonneg positive.le (not_lt.mp other)) (not_le.mpr negative)
      omega
    · next other =>
      have : k ≠ 0 := by
        rintro rfl
        exact nonzero (by rw [factor, mul_zero])
      have : 0 ≤ k := by
        by_contra negative
        exact other (factor ▸ mul_neg_of_pos_of_neg positive (not_le.mp negative))
      omega

theorem div_within {a b r : Ratio} (divided : a.div? b = some r) :
    IsWithin r.num ∧ IsWithin r.den ∧ 0 < r.den := by
  unfold div? at divided
  simp only at divided
  split at divided
  · next both =>
    rw [Bool.and_eq_true] at both
    exact make_within (isWithin_of_fits both.1) (isWithin_of_fits both.2) divided
  · cases divided

end Ratio

theorem Decimal.ofInt_near {n : Int} (small : |(n : ℚ)| ≤ 2 ^ (1023 : Int)) :
    ∃ p, IsRational (ofInt n) p ∧ |p - n| ≤ slack n := by
  have magnitude : ((n.natAbs : Nat) : ℚ) = |(n : ℚ)| := by
    rw [Nat.cast_natAbs]
    push_cast
    rfl
  obtain ⟨r, value, near⟩ := ofScientific_near (m := n.natAbs) (magnitude.trans_le small)
  have even : slack |(n : ℚ)| = slack n := by rw [slack, slack, abs_abs]
  rw [magnitude, even] at near
  unfold ofInt
  simp only
  split
  · next negative =>
    have below : (n : ℚ) < 0 := by exact_mod_cast negative
    refine ⟨-r, value.neg, ?_⟩
    rwa [abs_of_neg below, ← abs_neg, neg_sub, sub_eq_add_neg, add_comm, ← sub_eq_add_neg] at near
  · next positive =>
    have above : (0 : ℚ) ≤ n := by exact_mod_cast not_lt.mp positive
    rw [abs_of_nonneg above] at near
    exact ⟨r, value, near⟩

namespace Quantity

structure IsRatio (x y : Float) : Prop where
  top : ∃ p, IsRational x p ∧ |p| ≤ 2 ^ 128
  bottom : ∃ q, IsRational y q ∧ 1 / 2 ≤ q ∧ q ≤ 2 ^ 128
  whole : ∃ n d : Int, IsRational x n ∧ IsRational y d

inductive IsSettled : Quantity → Prop
  | number {x : Float} (finite : isFinite x) : IsSettled (constant x)
  | ratio {x y : Float} (ratio : IsRatio x y) : IsSettled (fraction (constant x) (constant y))

theorem isRatio_ofInt {r : Ratio} (top : Ratio.IsWithin r.num) (bottom : Ratio.IsWithin r.den)
    (positive : 0 < r.den) :
    IsRatio (Decimal.ofInt r.num) (Decimal.ofInt r.den) := by
  have within {n : Int} (small : Ratio.IsWithin n) : |(n : ℚ)| ≤ 2 ^ 127 := by
    have magnitude : |(n : ℚ)| = (n.natAbs : Nat) := by
      rw [Nat.cast_natAbs]
      push_cast
      rfl
    rw [magnitude]
    exact_mod_cast small
  have near {n : Int} (small : Ratio.IsWithin n) :
      ∃ p, IsRational (Decimal.ofInt n) p ∧ |p - n| ≤ (|(n : ℚ)| + 1) / 2 ^ 52 := by
    have power : (2 : ℚ) ^ 127 ≤ 2 ^ (1023 : Int) := by
      rw [← zpow_natCast]
      exact zpow_le_zpow_right₀ (by norm_num) (by norm_num)
    obtain ⟨p, value, near⟩ := Decimal.ofInt_near ((within small).trans power)
    exact ⟨p, value, near.trans (Decimal.slack_le _)⟩
  obtain ⟨p, value, close⟩ := near top
  obtain ⟨q, value', close'⟩ := near bottom
  have small := within top
  have small' := within bottom
  have one : (1 : ℚ) ≤ r.den := by exact_mod_cast positive
  have magnitude : |(r.den : ℚ)| = r.den := abs_of_nonneg (zero_le_one.trans one)
  rw [magnitude] at small' close'
  obtain ⟨n, whole⟩ := Decimal.ofInt_rounded top
  obtain ⟨d, whole'⟩ := Decimal.ofInt_rounded bottom
  refine ⟨⟨p, value, ?_⟩, ⟨q, value', ?_, ?_⟩, n, d, whole, whole'⟩
  · have := abs_sub_abs_le_abs_sub p r.num
    linarith
  · have := (abs_le.mp close').1
    linarith
  · have := (abs_le.mp close').2
    linarith

theorem IsSettled.isFinite {q : Quantity} (settled : q.IsSettled) : q.IsFinite := by
  cases settled with
  | number finite => exact finite
  | ratio ratio =>
    obtain ⟨⟨p, top, -⟩, ⟨q, bottom, -⟩, -⟩ := ratio
    exact ⟨top.isFinite, bottom.isFinite⟩

/-- The number that a settled quantity amounts to is finite. -/
theorem IsSettled.value {q : Quantity} (settled : q.IsSettled) :
    ∃ v, q.value? = some v ∧ Decimal.isFinite v := by
  cases settled with
  | @number x finite => exact ⟨x, rfl, finite⟩
  | @ratio x y ratio =>
    obtain ⟨⟨p, top, small⟩, ⟨q, bottom, low, -⟩, -⟩ := ratio
    have positive : 0 < q := by linarith
    have quotient : |p / q| ≤ 2 ^ (1023 : Int) := by
      rw [abs_div, abs_of_pos positive, div_le_iff₀ positive]
      calc |p| ≤ 2 ^ 129 * (1 / 2) := by linarith
        _ ≤ 2 ^ 129 * q := by gcongr
        _ ≤ 2 ^ (1023 : Int) * q := by
          refine mul_le_mul_of_nonneg_right ?_ positive.le
          rw [← zpow_natCast]
          exact zpow_le_zpow_right₀ (by norm_num) (by norm_num)
    obtain ⟨r, value, -⟩ := top.div_near bottom positive.ne' quotient
    exact ⟨x / y, rfl, value.isFinite⟩

theorem IsSettled.normalized {q : Quantity} (settled : q.IsSettled) : q.normalized.IsSettled := by
  cases settled with
  | number finite => exact .number finite
  | ratio ratio =>
    obtain ⟨p, value, -⟩ := ratio.top
    unfold Quantity.normalized
    split
    · exact .number IsRational.zero.isFinite
    · split
      · exact .number value.isFinite
      · exact .ratio ratio

end Quantity

namespace Quotient

open Quantity

theorem ofNumber_settled (x : Float) (operation : String) : Yields IsSettled (ofNumber x operation) := by
  unfold ofNumber
  split
  · next finite => exact .number finite
  · trivial

theorem ofNumbers_settled (n d : Float) : Yields IsSettled (ofNumbers n d) := by
  unfold ofNumbers
  split
  · trivial
  · split
    · next r found =>
      obtain ⟨a, _, b, _, divided⟩ :
          ∃ a, Ratio.ofFloat? n = some a ∧ ∃ b, Ratio.ofFloat? d = some b ∧ a.div? b = some r := by
        obtain ⟨a, first, rest⟩ := Option.bind_eq_some_iff.mp found
        obtain ⟨b, second, divided⟩ := Option.bind_eq_some_iff.mp rest
        exact ⟨a, first, b, second, divided⟩
      obtain ⟨top, bottom, positive⟩ := Ratio.div_within divided
      have ratio := isRatio_ofInt top bottom positive
      split
      · obtain ⟨p, value, -⟩ := ratio.top
        exact .number value.isFinite
      · obtain ⟨q, value, low, -⟩ := ratio.bottom
        have above : ¬ Decimal.ofInt r.den < 0.0 := fun negative => by
          have := (value.lt IsRational.zero).mp negative
          linarith
        simp only [ofRatio, make, value?, if_neg above]
        split
        · trivial
        · exact .ratio ratio
    · exact ofNumber_settled _ _

end Quotient

namespace Quantity

def Settles (q : Option Quantity) : Prop := ∃ r, q = some r ∧ r.IsSettled

theorem number_settles (x : Float) (operation : String) : Yields Settles (number x operation) :=
  (Quotient.ofNumber_settled x operation).map fun _ settled => ⟨_, rfl, settled⟩

theorem quotientOf_settles {k : Nat} {n d : Option Quantity} (top : Combines k n) (bottom : Combines k d) :
    Yields Settles (quotientOf n d) :=
  quotientOf_yields (fun n d => (Quotient.ofNumbers_settled n d).mono fun _ settled =>
    ⟨_, rfl, settled.normalized⟩) top bottom

variable {k : Nat} {a b : Quantity}

theorem productTo_settles (left : a.Plain k) (right : b.Plain k) : Yields Settles (productTo k a b) := by
  unfold productTo
  split
  · next fractions =>
    cases k with
    | zero => simp [plain_zero left, plain_zero right] at fractions
    | succ k =>
      refine (asQuotient_plain left).bind fun l lplain => (asQuotient_plain right).bind fun r rplain => ?_
      refine combined_bind (productTo_combines lplain.1 rplain.1) fun numerator nplain => ?_
      refine (productTo_combines lplain.2 rplain.2).bind fun denominator dplain => ?_
      exact quotientOf_settles (n := some numerator) nplain dplain
  · exact plainProduct_yields number_settles left right

theorem sumTo_settles (left : a.Plain k) (right : b.Plain k) : Yields Settles (sumTo k a b) := by
  unfold sumTo
  split
  · next fractions =>
    cases k with
    | zero => simp [plain_zero left, plain_zero right] at fractions
    | succ k =>
      refine (asQuotient_plain left).bind fun l lplain => (asQuotient_plain right).bind fun r rplain => ?_
      refine combined_bind (mul_combines lplain.1 rplain.2) fun ad first => ?_
      refine combined_bind (mul_combines rplain.1 lplain.2) fun cb second => ?_
      refine combined_bind (sumTo_combines first second) fun numerator nplain => ?_
      refine (mul_combines lplain.2 rplain.2).bind fun denominator dplain => ?_
      exact quotientOf_settles (n := some numerator) nplain dplain
  · exact plainSum_yields number_settles left right

theorem mul_settles (left : a.Plain k) (right : b.Plain k) : Yields Settles (a.mul b) :=
  productTo_settles ⟨left.1, Nat.le_max_left ..⟩ ⟨right.1, Nat.le_max_right ..⟩

theorem add_settles (left : a.Plain k) (right : b.Plain k) : Yields Settles (a.add b) :=
  sumTo_settles ⟨left.1, Nat.le_max_left ..⟩ ⟨right.1, Nat.le_max_right ..⟩

theorem div_settles (left : a.Plain k) (right : b.Plain k) : Yields Settles (a.div b) := by
  unfold div
  split
  · next n d =>
    cases k with
    | zero => exact absurd right.2 (by simp [depth])
    | succ k =>
      obtain ⟨top, bottom⟩ := plain_fraction.mp right
      exact (Quotient.make_plain bottom top).bind fun f plain => mul_settles left (plain_fraction.mpr plain)
  · exact (Quotient.make_plain (plain_constant k 1.0) right).bind fun f plain =>
      mul_settles (left.mono (Nat.le_succ k)) (plain_fraction.mpr plain)
  · exact (Quotient.make_plain left right).bind fun f plain =>
      (Quotient.simplify_yields Quotient.ofNumbers_settled plain).bind fun q settled =>
        ⟨_, rfl, settled.normalized⟩

theorem pow_settles (left : a.Plain k) (right : b.Plain k) : Yields Settles (a.pow b) := by
  obtain ⟨exponent, value⟩ := right.value
  unfold pow
  simp only [value]
  split
  · next n d =>
    rw [if_pos left.1]
    refine (Quotient.ofNumber_plain 1 _ _).bind fun v plain => (asQuotient_plain plain).bind fun f plain => ?_
    exact (Quotient.simplify_yields Quotient.ofNumbers_settled plain).bind fun q settled =>
      ⟨_, rfl, settled.normalized⟩
  · rw [if_pos left.1]
    exact number_settles _ _

/-- An operation on two numbers fails, or it gives a finite number or a fraction of two whole numbers. -/
theorem apply_settles (operation : Operation) (left : a.value?.isSome) (right : b.value?.isSome) :
    Yields Settles (a.apply operation b) := by
  have plain {q : Quantity} (value : q.value?.isSome) (room : q.depth ≤ max a.depth b.depth) :
      q.Plain (max a.depth b.depth) := ⟨(isConstant_eq q).trans value, room⟩
  have left := plain left (Nat.le_max_left ..)
  have right := plain right (Nat.le_max_right ..)
  cases operation with
  | add => exact add_settles left right
  | subtract => exact add_settles left (plain_scale _ right)
  | multiply => exact mul_settles left right
  | divide => exact div_settles left right
  | power => exact pow_settles left right

end Quantity

end Stepwise
