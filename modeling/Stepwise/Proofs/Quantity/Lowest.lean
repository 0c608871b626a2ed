import Stepwise.Proofs.Quantity.Integral

/-! Quotients of integer polynomials in one letter, up to coefficients of eighteen digits. Main
statement: bringing one to lowest terms always succeeds, keeps its value, and leaves no whole factor
and no power of the letter that both sides share. The letter is no digit: the zero denominator is
recognised by its text, and a letter `0` would be written like the number. -/
section

open Polynomial (C X C_mul)
open scoped Polynomial

namespace Stepwise

open Decimal (IsRational)

/-- No whole number above one divides every coefficient of both sides, and the letter does not divide both. -/
structure IsLowest (f g : ℤ[X]) : Prop where
  content : ∀ k : Nat, 1 < k → ¬ ((∀ i, (k : Int) ∣ f.coeff i) ∧ ∀ i, (k : Int) ∣ g.coeff i)
  power : ¬ (f.coeff 0 = 0 ∧ g.coeff 0 = 0)

theorem isLowest_one (f : ℤ[X]) : IsLowest f 1 where
  content k large both := by
    have one : (k : Int) ∣ 1 := by simpa using both.2 0
    have := Int.natCast_dvd_natCast.mp one
    exact absurd (Nat.dvd_one.mp this) large.ne'
  power both := by simp at both

theorem IsLowest.neg {f g : ℤ[X]} (lowest : IsLowest f g) : IsLowest (-f) (-g) where
  content := by simpa using lowest.content
  power := by simpa using lowest.power

namespace Quantity

/-- The quantity is a fraction of the two polynomials, or the first of them and the other is one. -/
inductive IsQuotient (v : Char) : Quantity → ℤ[X] → ℤ[X] → Prop
  | whole {q : Quantity} {f : ℤ[X]} (denotes : q.Denotes v f) : IsQuotient v q f 1
  | fraction {n d : Quantity} {f g : ℤ[X]} (above : n.Denotes v f) (below : d.Denotes v g) :
      IsQuotient v (.fraction n d) f g

def InLowestTerms (v : Char) (q : Quantity) (f g : ℤ[X]) : Prop :=
  ∃ f' g', q.IsQuotient v f' g' ∧ f * g' = f' * g ∧ IsLowest f' g'

variable {v : Char} {q n d : Quantity} {f g f' g' : ℤ[X]}

/-- Another quotient of the same value. -/
theorem InLowestTerms.of_cross (terms : q.InLowestTerms v f' g') (cross : f * g' = f' * g)
    (nonzero : g' ≠ 0) :
    q.InLowestTerms v f g := by
  obtain ⟨r, s, quotient, same, lowest⟩ := terms
  refine ⟨r, s, quotient, mul_right_cancel₀ nonzero ?_, lowest⟩
  calc f * s * g' = f * g' * s := by ring
    _ = f' * s * g := by rw [cross]; ring
    _ = r * g * g' := by rw [same]; ring

/-- A fraction over one or of zero disappears. -/
theorem fraction_lowest (above : n.Denotes v f) (below : d.Denotes v g) (letter : v.isDigit = false)
    (lowest : f ≠ 0 → IsLowest f g) : (fraction n d).normalized.InLowestTerms v f g := by
  rw [normalized]
  split
  · next none =>
    have nil : IsRational 0.0 (0 : Int) := by simpa using IsRational.zero
    exact ⟨0, 1, .whole (.number nil (by simp)), by simp [(above.text_eq_zero letter).mp none],
      isLowest_one 0⟩
  · next printed =>
    split
    · next unit =>
        exact ⟨f, 1, .whole above.normalized, by rw [(below.text_eq_one letter).mp unit],
          isLowest_one f⟩
    · exact ⟨f, g, .fraction above below, rfl, lowest fun none =>
        printed ((above.text_eq_zero letter).mpr none)⟩

end Quantity

namespace Quotient

open Quantity

variable {v : Char} {n d : Quantity} {h : Quotient} {f g : ℤ[X]}

structure Denotes (v : Char) (h : Quotient) (f g : ℤ[X]) : Prop where
  numerator : h.numerator.Denotes v f
  denominator : h.denominator.Denotes v g

theorem Denotes.normalized (denotes : h.Denotes v f g) : h.normalized.Denotes v f g :=
  ⟨denotes.numerator.normalized, denotes.denominator.normalized⟩

def IsModest (f : ℤ[X]) : Prop := ∀ i, (f.coeff i).natAbs < Decimal.tenTo 18

theorem IsModest.of_split {f' : ℤ[X]} (modest : IsModest f) {m s : Nat} (nonzero : m ≠ 0)
    (split : f = C (m : Int) * (X ^ s * f')) : IsModest f' := by
  intro i
  refine Nat.lt_of_le_of_lt ?_ (modest (i + s))
  rw [split, Polynomial.coeff_C_mul, Polynomial.coeff_X_pow_mul, Int.natAbs_mul, Int.natAbs_natCast]
  exact Nat.le_mul_of_pos_left _ (Nat.pos_of_ne_zero nonzero)

theorem IsModest.neg (modest : IsModest f) : IsModest (-f) := by
  intro i
  rw [Polynomial.coeff_neg, Int.natAbs_neg]
  exact modest i

/-- The sign may change sides. -/
theorem make_integral (above : n.Denotes v f) (below : d.Denotes v g) (letter : v.isDigit = false)
    (nonzero : g ≠ 0) :
    ∃ h, make n d = .ok h ∧ (h.Denotes v f g ∨ h.Denotes v (-f) (-g)) := by
  have printed : d.text ≠ "0" := fun zero => nonzero ((below.text_eq_zero letter).mp zero)
  rw [make, if_neg printed]
  split
  · split
    · exact ⟨_, rfl, .inr ⟨above.neg, below.neg⟩⟩
    · exact ⟨_, rfl, .inl ⟨above, below⟩⟩
  · exact ⟨_, rfl, .inl ⟨above, below⟩⟩

/-- Numbers are brought to lowest terms as fractions. -/
theorem ofNumbers_integral {x y : Float} {a b : Int} (above : IsRational x a)
    (below : IsRational y b) (nonzero : b ≠ 0) (small : a.natAbs < Decimal.tenTo 18)
    (small' : b.natAbs < Decimal.tenTo 18) (letter : v.isDigit = false) :
    ∃ q, ofNumbers x y = .ok q ∧ q.InLowestTerms v (C a) (C b) := by
  have bound : Decimal.tenTo 18 < 2 ^ 127 := by decide
  have order : (y == 0.0) = false := by rw [below.beq_integral, beq_eq_false_iff_ne]; exact nonzero
  have divided := div_whole (small.trans bound) (small'.trans bound) nonzero
  have numerator : Decimal.FitsMantissa (Rat.divInt a b).num.natAbs := by
    by_cases zero : a = 0
    · subst zero
      exact ⟨0, 0, by decide, by decide, by simp⟩
    · exact above.fits.of_dvd (Int.natAbs_pos.mpr zero) (Int.natAbs_dvd_natAbs.mpr (Rat.num_dvd a nonzero))
  have denominator : Decimal.FitsMantissa ((Rat.divInt a b).den : Int).natAbs :=
    below.fits.of_dvd (Int.natAbs_pos.mpr nonzero) (Int.natAbs_dvd_natAbs.mpr (Rat.den_dvd a b))
  have cross : C a * C ((Rat.divInt a b).den : Int) = C (Rat.divInt a b).num * C b := by
    have positive : ((Rat.divInt a b).den : Int) ≠ 0 := Int.natCast_ne_zero.mpr (Rat.divInt a b).den_nz
    rw [← C_mul, ← C_mul, (Rat.divInt_eq_divInt_iff nonzero positive).mp (Rat.num_divInt_den _).symm]
  generalize Rat.divInt a b = r at divided numerator denominator cross
  have value := Decimal.ofInt_integral numerator
  have value' := Decimal.ofInt_integral denominator
  rw [ofNumbers, order, above.ratio, below.ratio, if_pos small, if_pos small']
  simp only [Bool.false_eq_true, if_false, Option.bind_some, divided]
  split
  · next unit =>
    rw [unit, Polynomial.C_1] at cross
    exact ⟨_, rfl, C r.num, 1, .whole (.number value rfl), cross, isLowest_one _⟩
  · have divisor : C (r.den : Int) ≠ 0 := by simp [r.den_nz]
    have lowest : IsLowest (C r.num) (C (r.den : Int)) := by
      refine ⟨fun k large both => ?_, fun both => ?_⟩
      · have top : k ∣ r.num.natAbs := Int.natCast_dvd.mp (by simpa using both.1 0)
        have bottom : k ∣ r.den := Int.natCast_dvd_natCast.mp (by simpa using both.2 0)
        exact absurd (Nat.dvd_one.mp (r.reduced ▸ Nat.dvd_gcd top bottom)) large.ne'
      · simpa using both.2
    obtain ⟨h, made, same | turned⟩ := make_integral (.number value rfl) (.number value' rfl) letter divisor
    · exact ⟨h.toQuantity, by rw [ofRatio, made]; rfl, _, _,
        .fraction same.numerator same.denominator, cross, lowest⟩
    · refine ⟨h.toQuantity, by rw [ofRatio, made]; rfl, _, _,
        .fraction turned.numerator turned.denominator, ?_, lowest.neg⟩
      rw [mul_neg, neg_mul, cross]

/-- A factor that all coefficients share is a factor of the polynomial. -/
theorem exists_common {c : Nat} (divides : ∀ i, (c : Int) ∣ f.coeff i) : ∃ f', f = C (c : Int) * f' :=
  (Polynomial.C_dvd_iff_dvd_coeff _ f).mpr divides

/-- The greatest common factor of all coefficients is cancelled. -/
theorem cancelContent_integral (denotes : h.Denotes v f g) (modest : IsModest f)
    (modest' : IsModest g) (first : f ≠ 0) (second : g ≠ 0) :
    ∃ (m : Nat) (f' g' : ℤ[X]), m ≠ 0 ∧ f = C (m : Int) * f' ∧ g = C (m : Int) * g' ∧
      h.cancelContent.Denotes v f' g' ∧
      ∀ k : Nat, 1 < k → ¬ ((∀ i, (k : Int) ∣ f'.coeff i) ∧ ∀ i, (k : Int) ∣ g'.coeff i) := by
  obtain ⟨a, above, divides⟩ := denotes.numerator.content modest
  obtain ⟨b, below, divides'⟩ := denotes.denominator.content modest'
  have contentNonzero {c : Nat} {f : ℤ[X]} (divides : ∀ k : Nat, k ∣ c ↔ ∀ i, (k : Int) ∣ f.coeff i)
      (nonzero : f ≠ 0) : c ≠ 0 := by
    rintro rfl
    refine nonzero (Polynomial.ext fun i => ?_)
    simpa using (divides 0).mp (dvd_zero 0) i
  have one := contentNonzero divides first
  have positive : 0 < Nat.gcd a b := Nat.gcd_pos_of_pos_left _ (Nat.pos_of_ne_zero one)
  obtain ⟨f', split⟩ := exists_common ((divides _).mp (Nat.gcd_dvd_left a b))
  obtain ⟨g', split'⟩ := exists_common ((divides' _).mp (Nat.gcd_dvd_right a b))
  have factor : ((Nat.gcd a b : Nat) : Int) ≠ 0 := Int.natCast_ne_zero.mpr positive.ne'
  refine ⟨Nat.gcd a b, f', g', positive.ne', split, split', ?_, fun k large both => ?_⟩
  · rw [cancelContent, above, below, if_neg one, if_neg (contentNonzero divides' second)]
    simp only
    split
    · have fits : Decimal.FitsMantissa ((Nat.gcd a b : Nat) : Int).natAbs := by
        have lead : f.coeff f.natDegree ≠ 0 := by simpa using first
        refine (denotes.numerator.fits f.natDegree).of_dvd (Int.natAbs_pos.mpr lead) ?_
        exact Int.natCast_dvd.mp ((divides _).mp (Nat.gcd_dvd_left a b) _)
      have divisor := Decimal.ofInt_integral fits
      exact ⟨denotes.numerator.shrink divisor factor split, denotes.denominator.shrink divisor factor split'⟩
    · next alone =>
      have unit : Nat.gcd a b = 1 := by omega
      rw [unit, Nat.cast_one, Polynomial.C_1, one_mul] at split split'
      exact split ▸ split' ▸ denotes
  · -- a factor of the rest times the greatest one would be a greater one
    have more {f f' : ℤ[X]} (split : f = C ((Nat.gcd a b : Nat) : Int) * f')
        (shared : ∀ i, (k : Int) ∣ f'.coeff i) (i : Nat) :
        ((Nat.gcd a b * k : Nat) : Int) ∣ f.coeff i := by
      rw [split, Polynomial.coeff_C_mul, Nat.cast_mul]
      exact mul_dvd_mul_left _ (shared i)
    have greater : Nat.gcd a b * k ∣ Nat.gcd a b :=
      Nat.dvd_gcd ((divides _).mpr (more split both.1)) ((divides' _).mpr (more split' both.2))
    have := Nat.le_of_dvd positive greater
    have := Nat.mul_lt_mul_of_pos_left large positive
    omega

/-- The lowest power of the letter is cancelled. -/
theorem cancelPowers_integral (denotes : h.Denotes v f g) (first : f ≠ 0) (second : g ≠ 0) :
    ∃ (s : Nat) (f' g' : ℤ[X]), f = X ^ s * f' ∧ g = X ^ s * g' ∧ h.cancelPowers.Denotes v f' g' ∧
      ¬ (f'.coeff 0 = 0 ∧ g'.coeff 0 = 0) := by
  obtain ⟨n, d⟩ := h
  obtain ⟨above, below⟩ := denotes
  simp only at above below
  have same (kept : cancelPowers ⟨n, d⟩ = ⟨n, d⟩) (constant : f.coeff 0 ≠ 0 ∨ g.coeff 0 ≠ 0) :
      ∃ (s : Nat) (f' g' : ℤ[X]), f = X ^ s * f' ∧ g = X ^ s * g' ∧ (cancelPowers ⟨n, d⟩).Denotes v f' g' ∧
        ¬ (f'.coeff 0 = 0 ∧ g'.coeff 0 = 0) := by
    refine ⟨0, f, g, by simp, by simp, by rw [kept]; exact ⟨above, below⟩, fun both => ?_⟩
    exact constant.elim (fun nonzero => nonzero both.1) fun nonzero => nonzero both.2
  cases above with
  | number value flat =>
    refine same rfl (.inl fun zero => first ?_)
    rw [flat, Polynomial.coeff_C_zero] at zero
    rw [flat, zero, Polynomial.C_0]
  | @polynomial p _ letter denotes =>
    cases below with
    | number value flat =>
      refine same rfl (.inr fun zero => second ?_)
      rw [flat, Polynomial.coeff_C_zero] at zero
      rw [flat, zero, Polynomial.C_0]
    | @polynomial q _ letter' denotes' =>
      obtain ⟨lowestNonzero, below⟩ := denotes.lowestPower first
      obtain ⟨lowestNonzero', below'⟩ := denotes'.lowestPower second
      obtain ⟨f', split⟩ := Polynomial.X_pow_dvd_iff.mpr fun i (less : i < min p.lowestPower q.lowestPower) =>
        below i (less.trans_le (Nat.min_le_left ..))
      obtain ⟨g', split'⟩ :=
          Polynomial.X_pow_dvd_iff.mpr fun i (less : i < min p.lowestPower q.lowestPower) =>
        below' i (less.trans_le (Nat.min_le_right ..))
      obtain ⟨shifted, kept⟩ := denotes.shiftDown first split
      obtain ⟨shifted', kept'⟩ := denotes'.shiftDown second split'
      refine ⟨_, f', g', split, split', ?_, fun both => ?_⟩
      · simp only [cancelPowers, letter.trans letter'.symm, if_true]
        exact ⟨.polynomial (kept.trans letter) shifted, .polynomial (kept'.trans letter') shifted'⟩
      · -- the coefficient at the lower one of the two lowest powers has become the constant term
        have constant {f f' : ℤ[X]} {s : Nat} (split : f = X ^ s * f') (zero : f'.coeff 0 = 0) :
            f.coeff s = 0 := by
          rw [split, ← zero, ← Polynomial.coeff_X_pow_mul f' s 0, Nat.zero_add]
        rcases Nat.le_total p.lowestPower q.lowestPower with less | less
        · rw [Nat.min_eq_left less] at split
          exact lowestNonzero (constant split both.1)
        · rw [Nat.min_eq_right less] at split'
          exact lowestNonzero' (constant split' both.2)

/-- Both steps of cancelling leave the quotient as it is and nothing more to cancel. -/
theorem cancel_integral (denotes : h.Denotes v f g) (modest : IsModest f) (modest' : IsModest g)
    (nonzero : g ≠ 0) (flat : f = 0 → ∃ x, h.numerator = .constant x) :
    ∃ f' g', h.cancelContent.cancelPowers.Denotes v f' g' ∧ f * g' = f' * g ∧ g' ≠ 0 ∧
      IsModest f' ∧ IsModest g' ∧ (f' ≠ 0 → IsLowest f' g') := by
  by_cases zero : f = 0
  · obtain ⟨x, constant⟩ := flat zero
    have same : h.cancelContent = h := by
      obtain ⟨c, content, divides⟩ := denotes.numerator.content modest
      have none : c = 0 := by
        have all := (divides (c + 1)).mpr fun i => by simp [zero]
        exact Nat.eq_zero_of_dvd_of_lt all (Nat.lt_succ_self c)
      rw [cancelContent, content, if_pos none]
    have same' : h.cancelPowers = h := by
      obtain ⟨n, d⟩ := h
      subst constant
      rfl
    exact ⟨f, g, by rwa [same, same'], rfl, nonzero, modest, modest', fun topNonzero =>
      absurd zero topNonzero⟩
  · obtain ⟨m, f₁, g₁, contentNonzero, split, split', denotes', content⟩ :=
      cancelContent_integral denotes modest modest' zero nonzero
    have first : f₁ ≠ 0 := fun none => zero (by rw [split, none, mul_zero])
    have second : g₁ ≠ 0 := fun none => nonzero (by rw [split', none, mul_zero])
    obtain ⟨s, f₂, g₂, shift, shift', denotes'', power⟩ := cancelPowers_integral denotes' first second
    have factor {f f' : ℤ[X]} (shift : f = X ^ s * f') {k : Nat}
        (shared : ∀ i, (k : Int) ∣ f'.coeff i) (i : Nat) : (k : Int) ∣ f.coeff i := by
      rw [shift, Polynomial.coeff_X_pow_mul']
      split
      · exact shared _
      · exact dvd_zero _
    refine ⟨f₂, g₂, denotes'', ?_, fun none => second (by rw [shift', none, mul_zero]),
      modest.of_split contentNonzero (shift ▸ split),
      modest'.of_split contentNonzero (shift' ▸ split'), fun _ => ⟨fun k large both => ?_, power⟩⟩
    · rw [split, split', shift, shift']
      ring
    · exact content k large ⟨factor shift both.1, factor shift' both.2⟩

/-- Two numbers are brought to lowest terms at once. -/
theorem number_integral (denotes : h.Denotes v f g) (letter : v.isDigit = false) (nonzero : g ≠ 0)
    (modest : IsModest f) (modest' : IsModest g) :
    (∃ q, h.number? = some (.ok q) ∧ q.InLowestTerms v f g) ∨ h.number? = none := by
  by_cases flat : f.natDegree = 0
  · obtain ⟨x, value, rational⟩ := denotes.numerator.value_flat flat
    by_cases flat' : g.natDegree = 0
    · obtain ⟨y, value', rational'⟩ := denotes.denominator.value_flat flat'
      rw [Polynomial.eq_C_of_natDegree_eq_zero flat'] at nonzero
      have constantNonzero : g.coeff 0 ≠ 0 := fun zero => nonzero (by rw [zero, Polynomial.C_0])
      obtain ⟨q, same, terms⟩ :=
        ofNumbers_integral rational rational' constantNonzero (modest 0) (modest' 0) letter
      rw [← Polynomial.eq_C_of_natDegree_eq_zero flat, ← Polynomial.eq_C_of_natDegree_eq_zero flat'] at terms
      exact .inl ⟨q, by simp [number?, value, value', same], terms⟩
    · exact .inr (by simp [number?, denotes.denominator.value_proper (Nat.pos_of_ne_zero flat')])
  · exact .inr (by simp [number?, denotes.numerator.value_proper (Nat.pos_of_ne_zero flat)])

/-- The last step, when nothing is left to cancel. -/
theorem finish_integral (denotes : h.Denotes v f g) (letter : v.isDigit = false) (nonzero : g ≠ 0)
    (lowest : f ≠ 0 → IsLowest f g) : ∃ q, (make h.numerator h.denominator).map
      (fun (f : Quotient) => f.toQuantity.normalized) = .ok q ∧ q.InLowestTerms v f g := by
  obtain ⟨made, same, kept | turned⟩ := make_integral denotes.numerator denotes.denominator letter nonzero
  · exact ⟨_, by rw [same]; rfl, fraction_lowest kept.numerator kept.denominator letter lowest⟩
  · have lowest' : -f ≠ 0 → IsLowest (-f) (-g) := fun topNonzero => (lowest (neg_ne_zero.mp topNonzero)).neg
    have terms := fraction_lowest turned.numerator turned.denominator letter lowest'
    exact ⟨_, by rw [same]; rfl, terms.of_cross (by rw [mul_neg, neg_mul]) (neg_ne_zero.mpr nonzero)⟩

theorem simplify_integral (denotes : h.Denotes v f g) (letter : v.isDigit = false) (nonzero : g ≠ 0)
    (modest : IsModest f) (modest' : IsModest g) :
    ∃ q, h.simplify = .ok q ∧ q.InLowestTerms v f g := by
  have plain := denotes.normalized
  have flat (zero : f = 0) : ∃ x, h.normalized.numerator = .constant x :=
    denotes.numerator.normalized_flat (by rw [zero, Polynomial.natDegree_zero])
  obtain ⟨f', g', cancelled, cross, nonzero', small, small', lowest⟩ :=
    cancel_integral plain modest modest' nonzero flat
  unfold simplify
  simp only
  rcases number_integral plain letter nonzero modest modest' with ⟨q, numbers, terms⟩ | none
  · exact ⟨q, by rw [numbers], terms⟩
  rw [none]
  simp only
  rcases number_integral cancelled.normalized letter nonzero' small small' with ⟨q, numbers, terms⟩ | none
  · exact ⟨q, by rw [numbers], terms.of_cross cross nonzero'⟩
  rw [none]
  obtain ⟨q, made, terms⟩ := finish_integral cancelled.normalized letter nonzero' lowest
  exact ⟨q, made, terms.of_cross cross nonzero'⟩

/-- A quotient of integers, or of polynomials in one letter with integer coefficients, is brought to
lowest terms: the result is the same quotient, no whole number above one divides all of its
coefficients, and the letter does not divide both of its sides. -/
theorem simplify_lowest {n d : Quantity} (above : n.Denotes v f)
    (below : d.Denotes v g) (letter : v.isDigit = false) (small : ∀ i, (f.coeff i).natAbs < 10 ^ 18)
    (small' : ∀ i, (g.coeff i).natAbs < 10 ^ 18) (nonzero : g ≠ 0) :
    ∃ h q f' g', make n d = .ok h ∧ h.simplify = .ok q ∧ q.IsQuotient v f' g' ∧ f * g' = f' * g ∧
      IsLowest f' g' := by
  have modest : IsModest f := small
  have modest' : IsModest g := small'
  obtain ⟨h, made, kept | turned⟩ := make_integral above below letter nonzero
  · obtain ⟨q, simplified, f', g', quotient, cross, lowest⟩ :=
      simplify_integral kept letter nonzero modest modest'
    exact ⟨h, q, f', g', made, simplified, quotient, cross, lowest⟩
  · obtain ⟨q, simplified, terms⟩ :=
      simplify_integral turned letter (neg_ne_zero.mpr nonzero) modest.neg modest'.neg
    have back : q.InLowestTerms v f g := terms.of_cross (by rw [mul_neg, neg_mul]) (neg_ne_zero.mpr nonzero)
    obtain ⟨f', g', quotient, cross, lowest⟩ := back
    exact ⟨h, q, f', g', made, simplified, quotient, cross, lowest⟩

/-- The quotient of `2^54 x^2 + 6 x` and `4 x`, whose first coefficient takes more than 53 bits. -/
theorem simplify_lowest_long : ∃ h q f' g',
    make (.polynomial ⟨#[0.0, 6.0, 18014398509481984.0], 'x'⟩) (.polynomial ⟨#[0.0, 4.0], 'x'⟩) =
      .ok h ∧ h.simplify = .ok q ∧
      q.IsQuotient 'x' f' g' ∧ (C 18014398509481984 * X ^ 2 + C 6 * X) * g' = f' * (C 4 * X) ∧
      IsLowest f' g' := by
  have degree : (C 18014398509481984 * X ^ 2 + C 6 * X + C 0 : ℤ[X]).natDegree = 2 :=
    Polynomial.natDegree_quadratic (by decide)
  have degree' : (C 4 * X : ℤ[X]).natDegree = 1 := Polynomial.natDegree_C_mul_X 4 (by decide)
  rw [Polynomial.C_0, add_zero] at degree
  have six : IsRational 6.0 6 := by decide +kernel
  have four : IsRational 4.0 4 := by decide +kernel
  have long : IsRational 18014398509481984.0 18014398509481984 := by decide +kernel
  have above : Polynomial.Denotes ⟨#[0.0, 6.0, 18014398509481984.0], 'x'⟩
      (C 18014398509481984 * X ^ 2 + C 6 * X) := by
    refine ⟨fun i => ?_, by rw [degree]; rfl⟩
    rcases i with _ | _ | _ | i
    · simpa [Polynomial.coefficient] using IsRational.zero
    · simpa [Polynomial.coeff_X_pow, Polynomial.coefficient] using six
    · simpa [Polynomial.coeff_X, Polynomial.coefficient] using long
    · simpa [Polynomial.coeff_X_pow, Polynomial.coeff_X, Polynomial.coefficient] using IsRational.zero
  have below : Polynomial.Denotes ⟨#[0.0, 4.0], 'x'⟩ (C 4 * X) := by
    refine ⟨fun i => ?_, by rw [degree']; rfl⟩
    rcases i with _ | _ | i
    · simpa [Polynomial.coefficient] using IsRational.zero
    · simpa [Polynomial.coefficient] using four
    · simpa [Polynomial.coeff_X, Polynomial.coefficient] using IsRational.zero
  refine simplify_lowest (.polynomial rfl above) (.polynomial rfl below) (by decide) (fun i => ?_)
    (fun i => ?_) ?_
  · rcases i with _ | _ | _ | i <;> simp [Polynomial.coeff_X_pow, Polynomial.coeff_X]
  · rcases i with _ | _ | i <;> simp [Polynomial.coeff_X]
  · simp

end Quotient

end Stepwise

end
