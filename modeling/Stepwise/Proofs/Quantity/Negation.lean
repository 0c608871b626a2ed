import Stepwise.Proofs.Decimal.Sign
import Stepwise.Proofs.Quantity.Zero
import Stepwise.Proofs.Quantity.ZeroDivision

/-! Zero less a quantity. Main statement: if zero less a quotient of integers is a fraction, the
quotient is the fraction with the other sign above the line, also where numerators and denominators
are too large for every operation to be exact. -/
namespace Stepwise

open Decimal (IsRational)

namespace Quantity

variable {a x y u v : Float} {p : ℚ} {k m i j : Int}

/-- Zero less a number is a number. -/
theorem zero_sub_constant (zero : IsRational a 0) (value : IsRational x p) : ∃ z,
    (constant a).apply .subtract (constant x) = .ok (some (constant z)) ∧ IsRational z (-p) := by
  have difference := zero.zero_add value.mul_minus_one
  refine ⟨_, ?_, difference⟩
  have sum : (constant a).apply .subtract (constant x) = number (a + x * (-1.0)) "addition" := rfl
  simp only [sum, number, ofNumber, difference.isFinite, if_true]
  rfl

/-- A positive number with a minus sign in front is written like its negation. -/
theorem rendered_zero_sub (value : IsRational x p) (value' : IsRational y (-p)) (positive : 0 < p)
    (printed : Decimal.sixPlaces x ≠ "0") :
    (constant y).rendered = ⟨"-" ++ (constant x).rendered.within .product, .sum⟩ := by
  have above : ¬ x < 0.0 := fun less => by
    have := (value.lt .zero).mp less
    linarith
  have below : y < 0.0 := (value'.lt .zero).mpr (by linarith)
  have bare : (constant x).rendered.within .product = Decimal.sixPlaces x := by
    simp only [rendered, if_neg above]
    rfl
  rw [bare, rendered, value.sixPlaces_neg value' positive printed, if_pos below]

/-- The ratio of two integers that are read. -/
theorem ratio_of_integers {r : Ratio} (top : IsRational x k) (bottom : IsRational y m)
    (found : ((Ratio.ofFloat? x).bind fun a => (Ratio.ofFloat? y).bind a.div?) = some r) :
    r = .ofRational (k / m) := by
  have integer {z : Float} {n : Int} {b : Ratio} (value : IsRational z n)
      (read : Ratio.ofFloat? z = some b) : b = ⟨n, 1⟩ := by
    rw [value.ratio] at read
    split at read
    · exact (Option.some.inj read).symm
    · cases read
  obtain ⟨a, reada, rest⟩ := Option.bind_eq_some_iff.mp found
  obtain ⟨b, readb, divided⟩ := Option.bind_eq_some_iff.mp rest
  rw [Ratio.div_read (Ratio.isRead_of_ofFloat top reada) (Ratio.isRead_of_ofFloat bottom readb)] at divided
  obtain rfl := integer top reada
  obtain rfl := integer bottom readb
  split at divided
  · cases divided
  · rw [← Option.some.inj divided, Ratio.rational, Ratio.rational, Int.cast_one, div_one, div_one]

/-- A quotient of integers that is a fraction is one in lowest terms. -/
theorem div_fraction_lowest (top : IsRational x k) (bottom : IsRational y m) (positive : 0 < m)
    (divided : (constant x).div (constant y) = .ok (some (fraction (constant u) (constant v)))) :
    IsRational u ((k : ℚ) / m).num ∧ IsRational v ((k : ℚ) / m).den := by
  have order : ¬ y < 0.0 := fun less => by
    have := (bottom.lt .zero).mp less
    rw [Int.cast_lt_zero] at this
    omega
  have nonzero : (y == 0.0) = false := by
    rw [bottom.beq .zero, decide_eq_false_iff_not, Int.cast_eq_zero]
    omega
  rw [div_number, if_neg order] at divided
  split at divided
  · cases divided
  · unfold Quotient.ofNumbers at divided
    rw [nonzero] at divided
    simp only [Bool.false_eq_true, if_false] at divided
    split at divided
    · next r found =>
      obtain rfl := ratio_of_integers top bottom found
      split at divided
      · cases divided
      · next proper =>
        have integral {n d : Int} (fits : Decimal.FitsMantissa d.natAbs) (factorNonzero : d ≠ 0)
            (divides : n ∣ d) : IsRational (Decimal.ofInt n) n :=
          Decimal.ofInt_integral
            (fits.of_dvd (Int.natAbs_pos.mpr factorNonzero) (Int.natAbs_dvd_natAbs.mpr divides))
        have reduced := Rat.divInt_eq_div k m
        have factorNonzero : k ≠ 0 := by
          rintro rfl
          exact proper (by simp [Ratio.ofRational])
        have above : IsRational (Decimal.ofInt ((k : ℚ) / m).num) ((k : ℚ) / m).num :=
          integral top.fits factorNonzero (reduced ▸ Rat.num_dvd k positive.ne')
        have below : IsRational (Decimal.ofInt ((k : ℚ) / m).den) (((k : ℚ) / m).den : Int) :=
          integral bottom.fits positive.ne' (reduced ▸ Rat.den_dvd k m)
        have least : (1 : ℚ) ≤ (((k : ℚ) / m).den : Int) := by exact_mod_cast ((k : ℚ) / m).den_pos
        have made := Quotient.make_above below (by linarith) (constant (Decimal.ofInt ((k : ℚ) / m).num))
        simp only [Quotient.ofRatio, Ratio.ofRational, made, Except.map, Except.bind,
          Quotient.toQuantity, combined, normalized] at divided
        split at divided
        · cases divided
        · split at divided
          · cases divided
          · cases divided
            exact ⟨above, below⟩
    · next none =>
      unfold ofNumber at divided
      split at divided <;> cases divided

/-- Zero less a fraction of integers is the quotient with the sign changed above the line. -/
theorem zero_sub_fraction (zero : IsRational a 0) (top : IsRational u i) (bottom : IsRational v j) : ∃ x y,
    (constant a).apply .subtract (fraction (constant u) (constant v)) = (constant x).div (constant y) ∧
      IsRational x (-i : Int) ∧ IsRational y j := by
  have unit : IsRational (Decimal.ofInt 1) ((1 : Int) : ℚ) :=
    Decimal.ofInt_integral ⟨1, 0, by decide, by decide, rfl⟩
  have none : IsRational (Decimal.ofInt 0) ((0 : Int) : ℚ) :=
    Decimal.ofInt_integral ⟨0, 0, by decide, by decide, rfl⟩
  have one : IsRational (Decimal.ofInt 1) 1 := by simpa using unit
  have nothing : IsRational (Decimal.ofInt 0) 0 := by simpa using none
  have same : Decimal.ofInt 1 = 1.0 := one.eq_of_ne_zero IsRational.one one_ne_zero
  have first := nothing.zero_mul bottom
  have second := top.mul_minus_one.mul_one
  have above := first.zero_add second
  have left : (constant a).asQuotient = .ok ⟨constant (Decimal.ofInt 0), constant 1.0⟩ := by
    rw [asQuotient_zero zero, Quotient.ofRatio, Quotient.make_above one (by norm_num), same]
  have right : (fraction (constant (u * (-1.0))) (constant v)).asQuotient =
    .ok ⟨constant (u * (-1.0)), constant v⟩ := rfl
  have below := bottom.unit_mul
  have tested {x : Float} {p : ℚ} (value : IsRational x p) (operation : String) :
      number x operation = .ok (some (constant x)) := by
    simp only [number, ofNumber, value.isFinite, if_true]
    rfl
  have product (x y : Float) : (constant x).mul (constant y) = number (x * y) "multiplication" := rfl
  have sum (x y : Float) : sumTo 0 (constant x) (constant y) = number (x + y) "addition" := rfl
  have difference : (constant a).apply .subtract (fraction (constant u) (constant v)) =
      sumTo 1 (constant a) (fraction (constant (u * (-1.0))) (constant v)) := rfl
  refine ⟨_, _, ?_, by simpa using above, below⟩
  rw [difference, sumTo, if_pos (by simp [isFraction])]
  simp only [left, right, bind, Except.bind, product, sum, tested first, tested second,
    tested above, tested below]
  rfl

/-- A quotient that gives a fraction with its sign changed is the fraction without the change. -/
theorem fraction_of_zero_sub {q : Quantity}
    (zero : IsRational a 0) (top : IsRational x i) (bottom : IsRational y m) (positive : 0 < m)
    (divided : (constant x).div (constant y) = .ok (some q)) (settled : q.IsSettled)
    (negated : (constant a).apply .subtract q = .ok (some (fraction (constant u) (constant v))))
    (above : IsRational u (-i : Int)) (below : IsRational v m) :
    ∃ s t, q = fraction (constant s) (constant t) ∧ IsRational s i ∧ IsRational t m := by
  cases settled with
  | number finite =>
    obtain ⟨p, value⟩ := Decimal.isRational_of_isFinite finite
    obtain ⟨z, difference, -⟩ := zero_sub_constant zero value
    rw [difference] at negated
    cases negated
  | @ratio s t ratio =>
    obtain ⟨value, value'⟩ := div_fraction_lowest top bottom positive divided
    have den : (0 : Int) < ((i : ℚ) / m).den := by exact_mod_cast ((i : ℚ) / m).den_pos
    have value' : IsRational t (((i : ℚ) / m).den : Int) := by exact_mod_cast value'
    obtain ⟨x', y', difference, top', bottom'⟩ := zero_sub_fraction zero value value'
    obtain ⟨num, den'⟩ := div_fraction_lowest top' bottom' den (difference.symm.trans negated)
    have lowest : ((-((i : ℚ) / m).num : Int) : ℚ) / (((i : ℚ) / m).den : Int) = -((i : ℚ) / m) := by
      push_cast
      rw [neg_div, Rat.num_div_den]
    rw [lowest] at num den'
    have same : ((-((i : ℚ) / m)).num : ℚ) = (-i : Int) := num.unique above
    have same' : ((-((i : ℚ) / m)).den : ℚ) = m := den'.unique below
    rw [Rat.neg_num, Int.cast_inj, neg_inj] at same
    rw [Rat.neg_den] at same'
    exact ⟨s, t, rfl, same ▸ value, same' ▸ value'⟩

end Quantity

end Stepwise
