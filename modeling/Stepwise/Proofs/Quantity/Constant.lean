import Mathlib
import Stepwise.Quantity.Arithmetic

/-! Quantities without a letter. Main statement: sums, products and quotients of two of them are
never put off; they fail or give another one. -/
namespace Stepwise

namespace Polynomial

theorem dropZeros_of_size_le_one {coefficients : Array Float} (small : coefficients.size ≤ 1) :
    dropZeros coefficients = coefficients := by
  rw [dropZeros, if_neg fun h => Nat.not_lt_of_le small h.1]

theorem degree_make {coefficients : Array Float} (small : coefficients.size ≤ 1) (letter : Char) :
    (make coefficients letter).degree = 0 := by
  unfold make degree
  split
  · rfl
  · simp only [dropZeros_of_size_le_one small]; omega

theorem degree_map (f : Float → Float) {p : Polynomial} (flat : p.degree = 0) : (p.map f).degree = 0 := by
  refine degree_make ?_ p.letter
  unfold degree at flat
  rw [Array.size_map]
  omega

end Polynomial

namespace Quantity

theorem isConstant_eq (q : Quantity) : q.isConstant = q.value?.isSome := by
  induction q with
  | constant x => rfl
  | polynomial p => by_cases flat : p.degree = 0 <;> simp [isConstant, value?, flat]
  | trig t =>
    cases argument : t.argument <;>
      simp [isConstant, value?, TrigTerm.value?, argument, Argument.isNumeric]
  | log t =>
    cases argument : t.argument <;>
      simp [isConstant, value?, LogTerm.value?, argument, Argument.isNumeric]
  | fraction n d ihn ihd =>
    simp only [isConstant, value?, ihn, ihd]
    cases n.value? <;> cases d.value? <;> rfl

/-- A quantity without a letter, of fractions nested up to the given depth. -/
def Plain (k : Nat) (q : Quantity) : Prop := q.isConstant = true ∧ q.depth ≤ k

theorem Plain.mono {k m : Nat} {q : Quantity} (plain : q.Plain k) (le : k ≤ m) : q.Plain m :=
  ⟨plain.1, Nat.le_trans plain.2 le⟩

theorem Plain.value {k : Nat} {q : Quantity} (plain : q.Plain k) : ∃ x, q.value? = some x :=
  Option.isSome_iff_exists.mp (isConstant_eq q ▸ plain.1)

theorem plain_constant (k : Nat) (x : Float) : (constant x).Plain k := ⟨rfl, Nat.zero_le k⟩

theorem plain_zero {q : Quantity} (plain : q.Plain 0) : q.isFraction = false := by
  cases q with
  | fraction n d => exact absurd plain.2 (by simp [depth])
  | _ => rfl

theorem plain_fraction {k : Nat} {n d : Quantity} :
    (fraction n d).Plain (k + 1) ↔ n.Plain k ∧ d.Plain k := by
  simp only [Plain, isConstant, depth, Bool.and_eq_true, Nat.add_le_add_iff_right, Nat.max_le]
  exact ⟨fun ⟨⟨cn, cd⟩, dn, dd⟩ => ⟨⟨cn, dn⟩, cd, dd⟩, fun ⟨⟨cn, dn⟩, cd, dd⟩ => ⟨⟨cn, cd⟩, dn, dd⟩⟩

theorem plain_mapCoefficients {k : Nat} {q : Quantity} (f : Float → Float) (plain : q.Plain k) :
    (q.mapCoefficients f).Plain k := by
  induction q generalizing k with
  | constant x => exact plain_constant k _
  | polynomial p =>
    have flat : p.degree = 0 := by simpa [isConstant] using plain.1
    exact ⟨by simp [mapCoefficients, isConstant, Polynomial.degree_map f flat], Nat.zero_le k⟩
  | trig t => exact ⟨plain.1, Nat.zero_le k⟩
  | log t => exact ⟨plain.1, Nat.zero_le k⟩
  | fraction n d ihn ihd =>
    cases k with
    | zero => exact absurd plain.2 (by simp [depth])
    | succ k =>
      obtain ⟨top, bottom⟩ := plain_fraction.mp plain
      exact plain_fraction.mpr ⟨ihn top, bottom⟩

theorem plain_scale {k : Nat} {q : Quantity} (factor : Float) (plain : q.Plain k) :
    (q.scale factor).Plain k :=
  plain_mapCoefficients _ plain

theorem plain_normalized {k : Nat} {q : Quantity} (plain : q.Plain k) : q.normalized.Plain k := by
  induction q generalizing k with
  | constant x => exact plain
  | polynomial p => unfold normalized; split <;> first | exact plain | exact plain_constant k _
  | trig t | log t =>
    unfold normalized
    repeat' split
    all_goals first | exact plain | exact plain_constant k _
  | fraction n d ihn ihd =>
    unfold normalized
    split
    · exact plain_constant k _
    · split
      · cases k with
        | zero => exact absurd plain.2 (by simp [depth])
        | succ k => exact (ihn (plain_fraction.mp plain).1).mono (Nat.le_succ k)
      · exact plain

/-- The derivative of a quantity without a letter has none either. -/
theorem derivative_constant {q : Quantity} (constant : q.isConstant) :
    ∃ d, q.derivative? = some d ∧ d.isConstant := by
  cases q with
  | polynomial p =>
    have flat : p.derivative.degree = 0 := by
      have small : p.coefficients.size ≤ 1 := by
        simp only [isConstant, Polynomial.degree, beq_iff_eq] at constant
        omega
      exact Polynomial.degree_make (by rw [Array.size_ofFn]; omega) p.letter
    exact ⟨_, rfl, by simp [normalized, flat, isConstant]⟩
  | _ => exact ⟨.constant 0.0, by simp only [derivative?, constant, if_true], rfl⟩

end Quantity

/-- A computation fails or gives a result with the given property. -/
def Yields {α : Type} (property : α → Prop) : Except ComputationError α → Prop
  | .ok a => property a
  | .error _ => True

theorem Yields.bind {α β : Type} {p : α → Prop} {q : β → Prop} {x : Except ComputationError α}
    {f : α → Except ComputationError β} (first : Yields p x) (rest : ∀ a, p a → Yields q (f a)) :
    Yields q (x >>= f) := by
  cases x with
  | error error => trivial
  | ok a => exact rest a first

theorem Yields.map {α β : Type} {p : α → Prop} {q : β → Prop} {x : Except ComputationError α} {f : α → β}
    (first : Yields p x) (rest : ∀ a, p a → q (f a)) : Yields q (x.map f) := by
  cases x with
  | error error => trivial
  | ok a => exact rest a first

theorem Yields.mono {α : Type} {p q : α → Prop} {x : Except ComputationError α} (first : Yields p x)
    (rest : ∀ a, p a → q a) : Yields q x := by
  cases x with
  | error error => trivial
  | ok a => exact rest a first

namespace Quotient

open Quantity

def Plain (k : Nat) (f : Quotient) : Prop := f.numerator.Plain k ∧ f.denominator.Plain k

theorem make_plain {k : Nat} {n d : Quantity} (top : n.Plain k) (bottom : d.Plain k) :
    Yields (Plain k) (make n d) := by
  unfold make
  repeat' split
  all_goals first
    | trivial
    | exact ⟨top, bottom⟩
    | exact ⟨plain_scale _ top, plain_scale _ bottom⟩

theorem ofRatio_plain (k : Nat) (r : Ratio) : Yields (Plain k) (ofRatio r) :=
  make_plain (plain_constant k _) (plain_constant k _)

theorem ofNumber_plain (k : Nat) (x : Float) (operation : String) :
    Yields (Quantity.Plain k) (ofNumber x operation) := by
  unfold ofNumber
  split
  · exact plain_constant k x
  · trivial

theorem ofNumbers_plain (n d : Float) : Yields (Quantity.Plain 1) (ofNumbers n d) := by
  unfold ofNumbers
  split
  · trivial
  · split
    · split
      · exact plain_constant 1 _
      · exact (ofRatio_plain 0 _).map fun f plain => plain_fraction.mpr plain
    · exact ofNumber_plain 1 _ _

/-- Without a letter a quotient is simplified to that of two numbers. -/
theorem simplify_yields {P : Quantity → Prop} (numbers : ∀ n d, Yields P (ofNumbers n d)) {k : Nat}
    {f : Quotient} (plain : f.Plain k) : Yields P f.simplify := by
  obtain ⟨n, top⟩ := (plain_normalized plain.1).value
  obtain ⟨d, bottom⟩ := (plain_normalized plain.2).value
  have number : f.normalized.number? = some (ofNumbers n d) := by
    simp [number?, Quotient.normalized, top, bottom]
  simp only [simplify, number]
  exact numbers n d

end Quotient

namespace Quantity

def Combines (k : Nat) : Option Quantity → Prop
  | some q => q.Plain k
  | none => False

theorem Combines.mono {k m : Nat} {q : Option Quantity} (combines : Combines k q) (le : k ≤ m) :
    Combines m q := by
  cases q with
  | none => exact combines
  | some q => exact Plain.mono combines le

theorem number_combines (k : Nat) (x : Float) (operation : String) :
    Yields (Combines k) (number x operation) :=
  (Quotient.ofNumber_plain k x operation).map fun _ plain => plain

/-- What holds of all quotients of numbers holds of quotients of quantities without a letter. -/
theorem quotientOf_yields {P : Option Quantity → Prop}
    (numbers : ∀ n d, Yields (fun q => P (some q.normalized)) (Quotient.ofNumbers n d)) {k : Nat}
    {n d : Option Quantity} (top : Combines k n) (bottom : Combines k d) :
    Yields P (quotientOf n d) := by
  cases n with
  | none => exact top.elim
  | some n =>
    cases d with
    | none => exact bottom.elim
    | some d =>
      exact (Quotient.make_plain top bottom).bind fun f plain =>
        (Quotient.simplify_yields numbers plain).bind fun q normal => normal

theorem quotientOf_combines {k : Nat} {n d : Option Quantity} (top : Combines k n) (bottom : Combines k d) :
    Yields (Combines 1) (quotientOf n d) :=
  quotientOf_yields (fun n d => (Quotient.ofNumbers_plain n d).mono fun _ plain =>
    plain_normalized plain) top bottom

theorem asQuotient_plain {k : Nat} {q : Quantity} (plain : q.Plain (k + 1)) :
    Yields (Quotient.Plain k) q.asQuotient := by
  cases fraction : q.isFraction with
  | true =>
    cases q with
    | fraction n d => exact plain_fraction.mp plain
    | _ => simp [isFraction] at fraction
  | false =>
    obtain ⟨x, value⟩ := plain.value
    cases read : Ratio.ofFloat? x with
    | some r =>
      have whole : q.asQuotient = Quotient.ofRatio r := by
        cases q with
        | fraction n d => simp [isFraction] at fraction
        | _ => simp only [asQuotient, value, read]
      rw [whole]
      exact Quotient.ofRatio_plain k _
    | none =>
      have whole : q.asQuotient = (ofNumber x "fraction").bind fun n => Quotient.make n (constant 1.0) := by
        cases q with
        | fraction n d => simp [isFraction] at fraction
        | _ => simp only [asQuotient, value, read]; rfl
      rw [whole]
      exact (Quotient.ofNumber_plain k x _).bind fun n plain => Quotient.make_plain plain (plain_constant k _)

section Plain

variable {P : Option Quantity → Prop} (numbers : ∀ x operation, Yields P (number x operation))
  {m : Nat} {a b : Quantity}
  (left : a.Plain m) (right : b.Plain m)

include numbers left right

theorem plainProduct_yields : Yields P (plainProduct a b) := by
  obtain ⟨x, first⟩ := left.value
  obtain ⟨y, second⟩ := right.value
  simp only [plainProduct, first, second]
  exact numbers _ _

theorem plainSum_yields : Yields P (plainSum a b) := by
  obtain ⟨x, first⟩ := left.value
  obtain ⟨y, second⟩ := right.value
  simp only [plainSum, first, second]
  exact numbers _ _

end Plain

theorem combined_bind {k : Nat} {p : Option Quantity → Prop} {x : Outcome}
    {rest : Option Quantity → Outcome} (first : Yields (Combines k) x)
    (next : ∀ q, q.Plain k → Yields p (rest (some q))) : Yields p (x >>= rest) :=
  first.bind fun
    | some q, plain => next q plain
    | none, absurd => absurd.elim

theorem productTo_combines {k : Nat} {a b : Quantity} (left : a.Plain k) (right : b.Plain k) :
    Yields (Combines k) (productTo k a b) := by
  induction k generalizing a b with
  | zero =>
    unfold productTo
    rw [if_neg (by simp [plain_zero left, plain_zero right])]
    exact plainProduct_yields (number_combines _) left right
  | succ k ih =>
    unfold productTo
    split
    · refine (asQuotient_plain left).bind fun l lplain => (asQuotient_plain right).bind fun r rplain => ?_
      refine combined_bind (ih lplain.1 rplain.1) fun numerator nplain => ?_
      refine (ih lplain.2 rplain.2).bind fun denominator dplain => ?_
      exact (quotientOf_combines (n := some numerator) nplain dplain).mono fun q combines =>
        combines.mono (Nat.le_add_left 1 k)
    · exact plainProduct_yields (number_combines _) left right

theorem mul_combines {k : Nat} {a b : Quantity} (left : a.Plain k) (right : b.Plain k) :
    Yields (Combines k) (a.mul b) :=
  (productTo_combines ⟨left.1, Nat.le_max_left ..⟩ ⟨right.1, Nat.le_max_right ..⟩).mono fun _ combines =>
    combines.mono (Nat.max_le.mpr ⟨left.2, right.2⟩)

theorem sumTo_combines {k : Nat} {a b : Quantity} (left : a.Plain k) (right : b.Plain k) :
    Yields (Combines k) (sumTo k a b) := by
  induction k generalizing a b with
  | zero =>
    unfold sumTo
    rw [if_neg (by simp [plain_zero left, plain_zero right])]
    exact plainSum_yields (number_combines _) left right
  | succ k ih =>
    unfold sumTo
    split
    · refine (asQuotient_plain left).bind fun l lplain => (asQuotient_plain right).bind fun r rplain => ?_
      refine combined_bind (mul_combines lplain.1 rplain.2) fun ad first => ?_
      refine combined_bind (mul_combines rplain.1 lplain.2) fun cb second => ?_
      refine combined_bind (ih first second) fun numerator nplain => ?_
      refine (mul_combines lplain.2 rplain.2).bind fun denominator dplain => ?_
      exact (quotientOf_combines (n := some numerator) nplain dplain).mono fun q combines =>
        combines.mono (Nat.le_add_left 1 k)
    · exact plainSum_yields (number_combines _) left right

theorem add_combines {k : Nat} {a b : Quantity} (left : a.Plain k) (right : b.Plain k) :
    Yields (Combines k) (a.add b) :=
  (sumTo_combines ⟨left.1, Nat.le_max_left ..⟩ ⟨right.1, Nat.le_max_right ..⟩).mono fun _ combines =>
    combines.mono (Nat.max_le.mpr ⟨left.2, right.2⟩)

theorem sub_combines {k : Nat} {a b : Quantity} (left : a.Plain k) (right : b.Plain k) :
    Yields (Combines k) (a.sub b) :=
  add_combines left (plain_scale _ right)

theorem div_combines {k : Nat} {a b : Quantity} (left : a.Plain k) (right : b.Plain k) :
    Yields (Combines (k + 1)) (a.div b) := by
  unfold div
  split
  · next n d =>
    cases k with
    | zero => exact absurd right.2 (by simp [depth])
    | succ k =>
      obtain ⟨top, bottom⟩ := plain_fraction.mp right
      exact (Quotient.make_plain bottom top).bind fun f plain =>
        (mul_combines left (plain_fraction.mpr plain)).mono fun _ combines => combines.mono (Nat.le_succ _)
  · exact (Quotient.make_plain (plain_constant k 1.0) right).bind fun f plain =>
      mul_combines (left.mono (Nat.le_succ k)) (plain_fraction.mpr plain)
  · exact (Quotient.make_plain left right).bind fun f plain =>
        (Quotient.simplify_yields Quotient.ofNumbers_plain plain).bind fun q plain =>
      (plain_normalized plain).mono (Nat.le_add_left 1 k)

/-- Two quantities without a letter have a sum, a difference and a quotient without one, or fail. -/
theorem apply_combines {k : Nat} {a b : Quantity} {operation : Operation} (left : a.Plain k)
    (right : b.Plain k) (other : operation ≠ .power) :
    Yields (Combines (k + 1)) (a.apply operation b) := by
  have weaker {x : Outcome} (combines : Yields (Combines k) x) : Yields (Combines (k + 1)) x :=
    combines.mono fun _ combines => combines.mono (Nat.le_succ k)
  cases operation with
  | add => exact weaker (add_combines left right)
  | subtract => exact weaker (sub_combines left right)
  | multiply => exact weaker (mul_combines left right)
  | divide => exact div_combines left right
  | power => exact absurd rfl other

end Quantity

end Stepwise
