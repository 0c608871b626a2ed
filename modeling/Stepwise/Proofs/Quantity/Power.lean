import Stepwise.Proofs.Quantity.Constant
import Stepwise.Proofs.Quantity.Rational

/-! Powers of fractions. A power is formed in floating-point numbers and taken back to a ratio, so
its denominator divides one billion whatever the power function gives, and a product has any
denominator. Main statement: a power is the product of so many factors if the denominator divides
one billion and the power function comes close enough, and otherwise never is. -/
namespace Stepwise

open Decimal (IsRational IsWhole)

namespace Decimal

/-- An integer below `2^53` is a whole number. -/
theorem IsRational.isWhole {x : Float} {n : Int} (value : IsRational x n) (small : Exact n)
    (nonzero : n ≠ 0) : IsWhole x n :=
  value.ofInt_eq nonzero ▸ ofInt_whole small

end Decimal

namespace Quantity

def repeated (q : Quantity) : Nat → Outcome
  | 0 => .ok (some (constant 1.0))
  | k + 1 => do
    match ← repeated q k with
    | some product => product.mul q
    | none => deferred

/-- What becomes of a power of a fraction, once the power function has given a number. -/
def raised (v : Float) : Outcome := do
  let value ← ofNumber v "power"
  combined (← (← value.asQuotient).simplify)

theorem pow_eq_raised (x y e : Float) :
    (fraction (constant x) (constant y)).pow (constant e) = raised ((x / y).pow e) :=
  rfl

variable {a b q : Quantity} {r : ℚ}

/-- A number other than zero is shown in one way only. -/
theorem Shows.unique (first : a.Shows r) (second : b.Shows r) (nonzero : r ≠ 0) : a = b := by
  have top : (r.num : ℚ) ≠ 0 := Int.cast_ne_zero.mpr (num_eq_zero nonzero)
  have bottom : ((r.den : Int) : ℚ) ≠ 0 := by exact_mod_cast r.den_nz
  have same {x y : Float} {n : Int} (left : IsWhole x n) (right : IsWhole y n)
      (nonzero : (n : ℚ) ≠ 0) : x = y :=
    left.isRational.eq_of_ne_zero right.isRational nonzero
  cases first with
  | whole value unit =>
    cases second with
    | whole value' unit' => rw [same value value' top]
    | fraction above below proper => exact absurd unit proper
  | fraction above below proper =>
    cases second with
    | whole value unit => exact absurd unit proper
    | fraction above' below' proper' => rw [same above above' top, same below below' bottom]

section Product

variable {k : Nat}

/-- Powers grow with the exponent, so that what is below a bound stays below it. -/
theorem exact_pow {n : Int} (nonzero : n ≠ 0) {j : Nat} (le : j ≤ k) (unrounded : Exact (n ^ k)) :
    Exact (n ^ j) := by
  have grows : n.natAbs ^ j ≤ n.natAbs ^ k := Nat.pow_le_pow_right (Int.natAbs_pos.mpr nonzero) le
  rw [← Int.natAbs_pow, ← Int.natAbs_pow] at grows
  exact grows.trans_lt unrounded

/-- Products of a fraction with itself are exact as long as they can be. -/
theorem repeated_shows (isShown : q.Shows r) (nonzero : r ≠ 0) (top : Exact (r.num ^ k))
    (bottom : Exact ((r.den : Int) ^ k)) :
    ∃ p, repeated q k = .ok (some p) ∧ p.Shows (r ^ k) := by
  induction k with
  | zero =>
    rw [pow_zero]
    exact ⟨_, rfl, .whole IsWhole.one rfl⟩
  | succ k ih =>
    have den : (r.den : Int) ≠ 0 := by exact_mod_cast r.den_nz
    obtain ⟨p, product, power⟩ := ih (exact_pow (num_eq_zero nonzero) (Nat.le_succ k) top)
      (exact_pow den (Nat.le_succ k) bottom)
    have fits : Operation.Fits .multiply (r ^ k) r := by
      simp only [Operation.Fits, Rat.num_pow, Rat.den_pow]
      rw [← pow_succ]
      push_cast
      rw [← pow_succ]
      exact ⟨top, bottom⟩
    obtain ⟨v, result, shown⟩ := mul_shows power isShown fits
    refine ⟨v, ?_, pow_succ r k ▸ shown⟩
    simp only [repeated, product, bind, Except.bind]
    exact result

end Product

end Quantity

namespace Quotient

open Quantity

/-- A number, or a fraction whose denominator divides the integer. -/
inductive IsPart (d : Int) : Quantity → Prop
  | number (x : Float) : IsPart d (constant x)
  | fraction (x : Float) {m : Int} (small : Exact m) (divides : m ∣ d) :
      IsPart d (fraction (constant x) (constant (Decimal.ofInt m)))

theorem IsPart.normalized {d : Int} {q : Quantity} (part : IsPart d q) : IsPart d q.normalized := by
  cases part with
  | number x => exact .number x
  | fraction x small divides =>
    unfold Quantity.normalized
    split
    · exact .number _
    · split
      · exact .number x
      · exact .fraction x small divides

theorem make_over (x : Float) {y : Float} {d : Int} (below : IsWhole y d) (positive : 0 < d) :
    make (constant x) (constant y) = .ok ⟨constant x, constant y⟩ := by
  have text : (constant y).text ≠ "0" := fun same => positive.ne' ((text_eq_zero below).mp same)
  have order : ¬ y < 0.0 := fun less => by
    have := below.lt_zero.mp less
    omega
  simp only [make, text, if_false, value?, order]

theorem ofNumber_part (d : Int) (x : Float) (operation : String) :
    Yields (IsPart d) (ofNumber x operation) := by
  unfold ofNumber
  split
  · exact .number x
  · trivial

/-- A quotient of two integers keeps no more of its denominator than there is. -/
theorem ofNumbers_part {x y : Float} {n d : Int} (above : IsRational x n) (below : IsWhole y d)
    (positive : 0 < d) :
    Yields (IsPart d) (ofNumbers x y) := by
  have order : (y == 0.0) = false := by
    rw [below.beq_zero, beq_eq_false_iff_ne]
    exact positive.ne'
  rw [ofNumbers, order, above.ratio, below.ratio]
  by_cases small : n.natAbs < Decimal.tenTo 18
  · have bound : Decimal.tenTo 18 < 2 ^ 127 := by decide
    have den : Exact (Rat.divInt n d).den :=
      (Nat.le_of_dvd (Int.natAbs_pos.mpr positive.ne')
        (Int.natAbs_dvd_natAbs.mpr (Rat.den_dvd n d))).trans_lt below.small
    have least : (0 : Int) < (Rat.divInt n d).den := by exact_mod_cast (Rat.divInt n d).den_pos
    simp only [Bool.false_eq_true, if_false, if_pos small, Option.bind_some,
      Quotient.div_whole (small.trans bound) (below.small.trans (by norm_num)) positive.ne']
    split
    · exact .number _
    · rw [ofRatio, make_over _ (Decimal.ofInt_whole den) least]
      exact .fraction _ den (Rat.den_dvd n d)
  · simp only [Bool.false_eq_true, if_false, if_neg small, Option.bind_none]
    exact ofNumber_part d _ _

end Quotient

namespace Quantity

/-- A number is taken to a quotient of two numbers, which keeps no more of the denominator than
there is in one billion. -/
theorem asQuotient_part {v : Float} (finite : Decimal.isFinite v) : ∃ x y,
    (constant v).asQuotient = .ok ⟨constant x, constant y⟩ ∧
      Yields (Quotient.IsPart Ratio.precision) (Quotient.ofNumbers x y) := by
  obtain ⟨p, value⟩ := Decimal.isRational_of_isFinite finite
  cases read : Ratio.ofFloat? v with
  | some a =>
    obtain ⟨lowest, divides, small⟩ := Ratio.isRead_of_ofFloat value read
    have positive := lowest.positive
    have most : a.den ≤ Ratio.precision := Int.le_of_dvd (by decide) divides
    have limit : Ratio.precision = 10 ^ 9 := rfl
    have below : IsWhole (Decimal.ofInt a.den) a.den := Decimal.ofInt_whole (by omega)
    obtain ⟨n, above⟩ := Decimal.ofInt_rounded (k := a.num) (small.trans (by norm_num))
    refine ⟨Decimal.ofInt a.num, Decimal.ofInt a.den, ?_,
      (Quotient.ofNumbers_part above below positive).mono fun q part => ?_⟩
    · simp only [asQuotient, value?, read, Quotient.ofRatio]
      exact Quotient.make_over _ below positive
    · cases part with
      | number x => exact .number x
      | fraction x unrounded divides' => exact .fraction x unrounded (divides'.trans divides)
  | none =>
    refine ⟨v, 1.0, ?_, ?_⟩
    · simp only [asQuotient, value?, read, ofNumber, finite, if_true, bind, Except.bind]
      exact Quotient.make_over v IsWhole.one one_pos
    · have order : ((1.0 : Float) == 0.0) = false := rfl
      simp only [Quotient.ofNumbers, order, read, Bool.false_eq_true, if_false, Option.bind_none]
      exact Quotient.ofNumber_part _ _ _

/-- Whatever the power function gives, the denominator divides one billion. -/
theorem raised_part (v : Float) :
    Yields (fun result => ∃ q, result = some q ∧ Quotient.IsPart Ratio.precision q) (raised v) := by
  unfold raised ofNumber
  split
  · next finite =>
    obtain ⟨x, y, quotient, part⟩ := asQuotient_part finite
    have simplified : Quotient.simplify ⟨constant x, constant y⟩ = Quotient.ofNumbers x y := rfl
    simp only [bind, Except.bind, quotient, simplified]
    exact part.bind fun q part => ⟨_, rfl, part.normalized⟩
  · trivial

/-- No other denominator comes out of a power. -/
theorem divides_of_raised {v : Float} {q : Quantity} {r : ℚ} (done : raised v = .ok (some q))
    (isShown : q.Shows r) :
    (r.den : Int) ∣ Ratio.precision := by
  have part := raised_part v
  rw [done] at part
  obtain ⟨_, same, part⟩ := part
  obtain rfl := Option.some.inj same
  cases part with
  | number x =>
    cases isShown with
    | whole value unit => rw [unit]; exact one_dvd _
  | fraction x small divides =>
    cases isShown with
    | fraction above below proper =>
      rw [below.unique (Decimal.ofInt_whole small)]
      exact divides

/-- A power that is close enough to a number of billionths is taken to that number. -/
theorem raised_shows {v : Float} {r : ℚ} (beside : Ratio.IsBeside v r)
    (divides : (r.den : Int) ∣ Ratio.precision) (small : Exact r.num) :
    ∃ q, raised v = .ok (some q) ∧ q.Shows r := by
  have read := Ratio.ofFloat_of_isBeside beside divides (small.trans (by norm_num))
  obtain ⟨p, value, -⟩ := beside
  have most := Int.le_of_dvd (by decide) divides
  have limit : Ratio.precision = 10 ^ 9 := rfl
  have den : Exact r.den := by unfold Exact; omega
  have least : (0 : Int) < r.den := by exact_mod_cast r.den_pos
  obtain ⟨f, made, sides⟩ :=
    Quotient.make_positive (Decimal.ofInt_whole small) (Decimal.ofInt_whole den) least
  obtain ⟨q, simplified, isShown⟩ := Quotient.simplify_whole sides least.ne'
  rw [Rat.num_divInt_den] at isShown
  refine ⟨q, ?_, isShown⟩
  have quotient : (constant v).asQuotient = .ok f := by
    simp only [asQuotient, value?, read, Quotient.ofRatio]
    exact made
  simp only [raised, ofNumber, value.isFinite, if_true, bind, Except.bind, quotient, simplified,
    combined, isShown.normalized]

/-- A power of a fraction is the product of so many factors if the denominator divides one billion
and the power function comes close enough, and never is if the denominator does not divide one
billion. -/
theorem pow_fraction {x y : Float} {r : ℚ} {k : Nat} (above : IsRational x r.num)
    (below : IsRational y r.den) (proper : r.den ≠ 1) (top : Exact (r.num ^ k))
    (bottom : Exact ((r.den : Int) ^ k)) :
    ∃ q, repeated (fraction (constant x) (constant y)) k = .ok (some q) ∧ q.Shows (r ^ k) ∧
      (∀ e, (fraction (constant x) (constant y)).pow (constant e) = raised ((x / y).pow e)) ∧
      (r.den ^ k ∣ 10 ^ 9 → ∀ v, Ratio.IsBeside v (r ^ k) → raised v = .ok (some q)) ∧
      (¬ r.den ^ k ∣ 10 ^ 9 → ∀ v, raised v ≠ .ok (some q)) := by
  have nonzero : r ≠ 0 := fun zero => proper (by rw [zero]; rfl)
  have num := num_eq_zero nonzero
  have den : (r.den : Int) ≠ 0 := by exact_mod_cast r.den_nz
  obtain ⟨q, product, isShown⟩ :
      ∃ q, repeated (fraction (constant x) (constant y)) k = .ok (some q) ∧ q.Shows (r ^ k) := by
    cases k with
    | zero =>
      rw [pow_zero]
      exact ⟨_, rfl, .whole IsWhole.one rfl⟩
    | succ k =>
      have above := above.isWhole (pow_one r.num ▸ exact_pow num (Nat.le_add_left 1 k) top) num
      have below : IsRational y (r.den : Int) := by exact_mod_cast below
      have below := below.isWhole (pow_one (r.den : Int) ▸ exact_pow den (Nat.le_add_left 1 k) bottom) den
      exact repeated_shows (.fraction above below proper) nonzero top bottom
  have precise : ((r ^ k).den : Int) ∣ Ratio.precision ↔ r.den ^ k ∣ 10 ^ 9 := by
    rw [Rat.den_pow, show Ratio.precision = ((10 ^ 9 : Nat) : Int) from rfl, Int.natCast_dvd_natCast]
  refine ⟨q, product, isShown, pow_eq_raised x y, fun divides v beside => ?_, fun other v done => ?_⟩
  · obtain ⟨p, done, shown⟩ := raised_shows beside (precise.mpr divides) (by rw [Rat.num_pow]; exact top)
    rw [done, shown.unique isShown (pow_ne_zero k nonzero)]
  · exact other (precise.mp (divides_of_raised done isShown))

theorem pow_half :
    ∃ q, repeated (fraction (constant 1.0) (constant 2.0)) 2 = .ok (some q) ∧
      q.Shows ((1 / 2) ^ 2) ∧
    raised 0.25 = .ok (some q) := by
  obtain ⟨q, product, isShown, -, same, -⟩ :=
    pow_fraction (x := 1.0) (y := 2.0) (r := 1 / 2) (k := 2) (by decide +kernel) (by decide +kernel)
    (by decide +kernel) (by decide +kernel) (by decide +kernel)
  have value : IsRational 0.25 (1 / 4) := by decide +kernel
  exact ⟨q, product, isShown, same (by decide +kernel) 0.25 ⟨1 / 4, value, by norm_num⟩⟩

/-- A square of thirds is no product of thirds, whatever the power function gives. -/
theorem pow_third :
    ¬ ∀ (x y e : Float) (r : ℚ) (k : Nat), IsRational x r.num → IsRational y r.den → r.den ≠ 1 →
      IsWhole e k →
    Exact (r.num ^ k) → Exact ((r.den : Int) ^ k) →
      (fraction (constant x) (constant y)).pow (constant e) =
      repeated (fraction (constant x) (constant y)) k := by
  intro all
  have num : (1 / 3 : ℚ).num = 1 := by decide +kernel
  have one : IsWhole 1.0 ((1 / 3 : ℚ).num) := num ▸ IsWhole.one
  have three : IsRational 3.0 ((1 / 3 : ℚ).den : Int) := by decide +kernel
  have two : IsRational 2.0 (2 : Int) := by decide +kernel
  have same := all 1.0 3.0 2.0 (1 / 3) 2 one.isRational (by exact_mod_cast three) (by decide +kernel)
    (two.isWhole (by decide) (by decide)) (by decide +kernel) (by decide +kernel)
  have below := three.isWhole (by decide +kernel) (by decide +kernel)
  obtain ⟨q, product, isShown⟩ := repeated_shows (k := 2) (.fraction one below (by decide +kernel))
    (by norm_num) (by decide +kernel) (by decide +kernel)
  rw [product, pow_eq_raised] at same
  exact absurd (divides_of_raised same isShown) (by decide +kernel)

end Quantity

end Stepwise
