import Stepwise.Proofs.Quantity.ZeroDivision

/-! The normal form of quantities. A polynomial shows its letter and no zero at its top, a term has
neither coefficient nor power zero, and a fraction has two normal sides of which neither could be
left out. Main statement: what an operation on normal quantities gives is normal, whatever their
letters, arguments and numbers are, and nothing normal is simplified further. Letters and arguments
are those of the operands, so a property of them is carried along. -/
namespace Stepwise

open Decimal (IsRational)

namespace Polynomial

variable {p q r : Polynomial}

def EndsNonzero (p : Polynomial) : Prop :=
  1 < p.coefficients.size → p.coefficients.back?.any (· == 0.0) = false

theorem dropZeros_top (coefficients : Array Float) :
    1 < (dropZeros coefficients).size → (dropZeros coefficients).back?.any (· == 0.0) = false := by
  fun_induction dropZeros coefficients with
  | case1 coefficients zero ih => exact ih
  | case2 coefficients other =>
    intro long
    rw [Bool.eq_false_iff]
    exact fun zero => other ⟨long, zero⟩

structure IsIn (letter : Char) (p : Polynomial) : Prop where
  letter : p.letter = letter
  trimmed : p.EndsNonzero

theorem make_isIn (coefficients : Array Float) (letter : Char) : (make coefficients letter).IsIn letter := by
  unfold make
  split
  · exact ⟨rfl, fun long => absurd long (by simp)⟩
  · exact ⟨rfl, dropZeros_top coefficients⟩

theorem zipWith_isIn {f : Float → Float → Float} (combined : zipWith? f p q = some r) : r.IsIn p.letter := by
  unfold zipWith? at combined
  split at combined
  · exact Option.some.inj combined ▸ make_isIn _ _
  · cases combined

theorem mul_isIn (combined : p.mul? q = some r) : r.IsIn p.letter := by
  unfold mul? at combined
  split at combined
  · exact Option.some.inj combined ▸ make_isIn _ _
  · cases combined

theorem pow_isIn (p : Polynomial) (n : Nat) : (p.pow n).IsIn p.letter := by
  induction n with
  | zero => exact make_isIn _ _
  | succ n ih =>
    rw [pow]
    cases product : (p.pow n).mul? p with
    | none => exact ih
    | some r => exact ih.letter ▸ mul_isIn product

end Polynomial

namespace Quantity

def Offers (P : Quantity → Prop) (q : Option Quantity) : Prop := ∀ r ∈ q, P r

section Offers

variable {P Q : Quantity → Prop} {q : Quantity}

theorem Offers.mono (weaker : ∀ q, P q → Q q) {q : Option Quantity} (offers : Offers P q) : Offers Q q :=
  fun r member => weaker r (offers r member)

theorem offers_some (here : P q) : Offers P (some q) := fun _ same => Option.some.inj same ▸ here

theorem offers_none : Offers P none := nofun

theorem deferred_offers (P : Quantity → Prop) : Yields (Offers P) deferred := offers_none

theorem offers_bind {R : Option Quantity → Prop} {x : Outcome} {rest : Option Quantity → Outcome}
    (first : Yields (Offers P) x) (put : Yields R (rest none)) (next : ∀ q, P q → Yields R (rest (some q))) :
    Yields R (x >>= rest) :=
  first.bind fun
    | none, _ => put
    | some q, offers => next q (offers q rfl)

end Offers

/-- No fraction, and nothing simpler. -/
def IsTerm : Quantity → Prop
  | constant _ => True
  | polynomial p => p.EndsNonzero ∧ p.degree ≠ 0
  | trig t => (t.coef == 0.0) = false ∧ (t.power == 0.0) = false
  | log t => (t.coef == 0.0) = false ∧ (t.power == 0.0) = false
  | fraction _ _ => False

/-- A fraction of two terms that is nothing simpler. Two numbers over one another are constants
without a sign below the line. -/
structure IsProper (n d : Quantity) : Prop where
  top : n.IsTerm
  bottom : d.IsTerm
  nonzero : n.text ≠ "0"
  divides : d.text ≠ "0"
  proper : d.text ≠ "1"
  numbers : n.value?.isSome → d.value?.isSome → ∃ x y, n = constant x ∧ d = constant y ∧ 0.0 < y

def IsNormal : Quantity → Prop
  | fraction n d => IsProper n d
  | q => q.IsTerm

/-- What is normal is not simplified further. -/
theorem IsNormal.normalized {q : Quantity} (normal : q.IsNormal) : q.normalized = q := by
  cases q with
  | constant x => rfl
  | polynomial p => rw [Quantity.normalized, if_neg normal.2]
  | trig t => simp only [Quantity.normalized, normal.1, normal.2, Bool.false_eq_true, if_false]
  | log t => simp only [Quantity.normalized, normal.1, normal.2, Bool.false_eq_true, if_false]
  | fraction n d => rw [Quantity.normalized, if_neg normal.nonzero, if_neg normal.proper]

end Quantity

/-- The letters and the arguments that quantities are made of. -/
structure Vocabulary where
  letter : Char → Prop
  argument : Argument → Prop

namespace Vocabulary

open Quantity

variable {V : Vocabulary} {a b n d q : Quantity}

/-- No fraction, and made of these letters and arguments. It may still have a simpler form. -/
def IsSide (V : Vocabulary) : Quantity → Prop
  | constant _ => True
  | polynomial p => V.letter p.letter ∧ p.EndsNonzero
  | trig t => V.argument t.argument
  | log t => V.argument t.argument
  | fraction _ _ => False

def IsFlat (V : Vocabulary) : Quantity → Prop
  | fraction n d => V.IsSide n ∧ V.IsSide d
  | q => V.IsSide q

def IsSimple (V : Vocabulary) (q : Quantity) : Prop := V.IsSide q ∧ q.IsTerm

/-- What an operation gives. A fraction of two numbers is one of whole numbers. -/
structure IsResult (V : Vocabulary) (q : Quantity) : Prop where
  flat : V.IsFlat q
  normal : q.IsNormal
  settled : ∀ n d, q = fraction n d → n.value?.isSome → d.value?.isSome → q.IsSettled

theorem IsSide.whole (side : V.IsSide q) : q.isFraction = false := by
  cases q with
  | fraction n d => exact side.elim
  | _ => rfl

theorem IsSide.flat (side : V.IsSide q) : V.IsFlat q := by
  cases q with
  | fraction n d => exact side.elim
  | _ => exact side

theorem IsFlat.side (flat : V.IsFlat q) (whole : q.isFraction = false) : V.IsSide q := by
  cases q with
  | fraction n d => cases whole
  | _ => exact flat

theorem IsFlat.side_of_ne (flat : V.IsFlat q) (other : ∀ n d, q = fraction n d → False) : V.IsSide q := by
  cases q with
  | fraction n d => exact (other n d rfl).elim
  | _ => exact flat

theorem side_polynomial {p : Polynomial} {letter : Char} (known : V.letter letter) (there : p.IsIn letter) :
    V.IsSide (polynomial p) := ⟨there.letter ▸ known, there.trimmed⟩

theorem side_mapCoefficients (side : V.IsSide q) (f : Float → Float) : V.IsSide (q.mapCoefficients f) := by
  cases q with
  | polynomial p => exact side_polynomial side.1 (Polynomial.make_isIn _ _)
  | fraction n d => exact side.elim
  | _ => exact side

theorem flat_scale (flat : V.IsFlat q) (factor : Float) : V.IsFlat (q.scale factor) := by
  cases whole : q.isFraction with
  | false => exact (side_mapCoefficients (flat.side whole) _).flat
  | true =>
    cases q with
    | fraction n d => exact ⟨side_mapCoefficients flat.1 _, flat.2⟩
    | _ => cases whole

theorem simple_constant (V : Vocabulary) (x : Float) : V.IsSimple (constant x) := ⟨trivial, trivial⟩

theorem simple_normalized (side : V.IsSide q) : V.IsSimple q.normalized := by
  cases q with
  | constant x => exact simple_constant V x
  | polynomial p =>
    unfold normalized
    split
    · exact simple_constant V _
    · next proper => exact ⟨side, side.2, proper⟩
  | trig t | log t =>
    unfold normalized
    split
    · exact simple_constant V _
    · next coef =>
      split
      · exact simple_constant V _
      · next power => exact ⟨side, Bool.eq_false_iff.mpr coef, Bool.eq_false_iff.mpr power⟩
  | fraction n d => exact side.elim

theorem IsSimple.result (simple : V.IsSimple q) : V.IsResult q := by
  obtain ⟨side, term⟩ := simple
  cases q with
  | fraction n d => exact side.elim
  | _ => exact ⟨side, term, nofun⟩

/-- A fraction of simple sides takes its normal form. -/
theorem normalized_result (top : V.IsSimple n) (bottom : V.IsSimple d) (divides : d.text ≠ "0")
    (settled : n.value?.isSome → d.value?.isSome → (fraction n d).IsSettled) :
    V.IsResult (fraction n d).normalized := by
  unfold normalized
  split
  · exact (simple_constant V 0.0).result
  · next nonzero =>
    split
    · exact (simple_normalized top.1).result
    · next proper =>
      refine ⟨⟨top.1, bottom.1⟩, ⟨top.2, bottom.2, nonzero, divides, proper, fun first second => ?_⟩, ?_⟩
      · cases settled first second with
        | @ratio x y ratio =>
          obtain ⟨q, below, low, -⟩ := ratio.bottom
          exact ⟨x, y, rfl, rfl, (IsRational.zero.lt below).mpr (by linarith)⟩
      · rintro _ _ same first second
        cases same
        exact settled first second

theorem settled_result (V : Vocabulary) (settled : q.IsSettled) : V.IsResult q.normalized := by
  cases settled with
  | @number x finite => exact (simple_constant V x).result
  | @ratio x y ratio =>
    obtain ⟨q, below, low, -⟩ := ratio.bottom
    have large : 1 / 2000000 < |q| := by
      rw [abs_of_pos (by linarith)]
      linarith
    exact normalized_result (simple_constant V x) (simple_constant V y)
      (Quotient.text_of_large below large) fun _ _ => .ratio ratio

theorem number_offers (V : Vocabulary) (x : Float) (operation : String) :
    Yields (Offers V.IsSimple) (number x operation) := by
  unfold number ofNumber
  split
  · exact offers_some (simple_constant V x)
  · trivial

theorem combined_offers (side : V.IsSide q) : Yields (Offers V.IsSimple) (combined q) :=
  offers_some (simple_normalized side)

theorem plainSum_offers (left : V.IsSide a) (right : V.IsSide b) :
    Yields (Offers V.IsSimple) (plainSum a b) := by
  unfold plainSum
  split
  · exact number_offers V _ _
  · split
    · split
      · next sum added => exact combined_offers (side_polynomial left.1 (Polynomial.zipWith_isIn added))
      · exact deferred_offers _
    · split
      · exact combined_offers (side_polynomial left.1 (Polynomial.make_isIn _ _))
      · exact deferred_offers _
    · split
      · exact combined_offers (side_polynomial right.1 (Polynomial.make_isIn _ _))
      · exact deferred_offers _
    · split
      · exact combined_offers left
      · exact deferred_offers _
    · split
      · exact combined_offers left
      · exact deferred_offers _
    · exact deferred_offers _

theorem plainProduct_offers (left : V.IsSide a) (right : V.IsSide b) :
    Yields (Offers V.IsSimple) (plainProduct a b) := by
  unfold plainProduct
  split
  · exact number_offers V _ _
  · split
    · split
      · next product multiplied =>
          exact combined_offers (side_polynomial left.1 (Polynomial.mul_isIn multiplied))
      · exact deferred_offers _
    · split
      · exact combined_offers (side_mapCoefficients left _)
      · split
        · exact combined_offers (side_mapCoefficients right _)
        · split
          · split
            · exact combined_offers left
            · exact deferred_offers _
          · split
            · exact combined_offers left
            · exact deferred_offers _
          · exact deferred_offers _

structure HasSides (V : Vocabulary) (f : Quotient) : Prop where
  top : V.IsSide f.numerator
  bottom : V.IsSide f.denominator

theorem make_sides (top : V.IsSide n) (bottom : V.IsSide d) : Yields V.HasSides (Quotient.make n d) := by
  unfold Quotient.make
  repeat' split
  all_goals first
    | trivial
    | exact ⟨top, bottom⟩
    | exact ⟨side_mapCoefficients top _, side_mapCoefficients bottom _⟩

theorem ofRatio_sides (V : Vocabulary) (r : Ratio) : Yields V.HasSides (Quotient.ofRatio r) :=
  make_sides trivial trivial

theorem cancelContent_sides {f : Quotient} (sides : V.HasSides f) : V.HasSides f.cancelContent := by
  unfold Quotient.cancelContent
  split
  · simp only
    split
    · exact ⟨side_mapCoefficients sides.top _, side_mapCoefficients sides.bottom _⟩
    · exact sides
  · exact sides

theorem cancelPowers_sides {f : Quotient} (sides : V.HasSides f) : V.HasSides f.cancelPowers := by
  obtain ⟨n, d⟩ := f
  obtain ⟨top, bottom⟩ := sides
  unfold Quotient.cancelPowers
  simp only at top bottom ⊢
  split
  · split
    · exact ⟨side_polynomial top.1 (Polynomial.make_isIn _ _),
        side_polynomial bottom.1 (Polynomial.make_isIn _ _)⟩
    · exact ⟨top, bottom⟩
  · split
    · exact ⟨top, bottom⟩
    · exact ⟨top, bottom⟩
  · split
    · exact ⟨top, bottom⟩
    · exact ⟨top, bottom⟩
  · exact ⟨top, bottom⟩

/-- What lowest terms come to is a normal quantity. -/
theorem simplify_result {f : Quotient} (sides : V.HasSides f) :
    Yields (fun q => V.IsResult q.normalized) f.simplify := by
  have numbers {g : Quotient} {result : Except ComputationError Quantity} (found : g.number? = some result) :
      Yields (fun q => V.IsResult q.normalized) result := by
    obtain ⟨n, _, rest⟩ := Option.bind_eq_some_iff.mp found
    obtain ⟨d, _, rfl⟩ := Option.map_eq_some_iff.mp rest
    exact (Quotient.ofNumbers_settled n d).mono fun _ settled => settled_result V settled
  have cancelled := cancelPowers_sides (cancelContent_sides (f := f.normalized)
    ⟨(simple_normalized sides.top).1, (simple_normalized sides.bottom).1⟩)
  generalize lowest : f.normalized.cancelContent.cancelPowers = g at cancelled
  unfold Quotient.simplify
  simp only [lowest]
  split
  · next found => exact numbers found
  · split
    · next found => exact numbers found
    · next other =>
      have top : V.IsSimple g.normalized.numerator := simple_normalized cancelled.top
      have bottom : V.IsSimple g.normalized.denominator := simple_normalized cancelled.bottom
      -- a fraction that is left has a side with a letter
      have letter : ¬ (g.normalized.numerator.value?.isSome ∧ g.normalized.denominator.value?.isSome) := by
        rintro ⟨first, second⟩
        obtain ⟨n, first⟩ := Option.isSome_iff_exists.mp first
        obtain ⟨d, second⟩ := Option.isSome_iff_exists.mp second
        simp [Quotient.number?, first, second] at other
      unfold Quotient.make
      split
      · trivial
      · next divides =>
        split
        · next first second => exact absurd ⟨by simp [first], by simp [second]⟩ letter
        · have result :=
            normalized_result top bottom divides fun first second => absurd ⟨first, second⟩ letter
          change V.IsResult (fraction g.normalized.numerator g.normalized.denominator).normalized.normalized
          rwa [result.normal.normalized]

theorem ofNumber_side (V : Vocabulary) (x : Float) (operation : String) :
    Yields V.IsSide (ofNumber x operation) := by
  unfold ofNumber
  split
  · trivial
  · trivial

theorem asQuotient_sides (flat : V.IsFlat q) : Yields V.HasSides q.asQuotient := by
  unfold asQuotient
  split
  · exact ⟨flat.1, flat.2⟩
  · next other =>
    have side := flat.side_of_ne other
    split
    · split
      · exact ofRatio_sides V _
      · exact (ofNumber_side V _ _).bind fun n side => make_sides side trivial
    · exact make_sides side trivial

/-- A quotient that is formed is brought to its normal form. -/
theorem simplified_offers {x : Except ComputationError Quotient} (sides : Yields V.HasSides x) :
    Yields (Offers V.IsResult) (do combined (← (← x).simplify)) :=
  sides.bind fun _ sides => (simplify_result sides).bind fun _ result => offers_some result

theorem quotientOf_offers {n d : Option Quantity} (top : Offers V.IsSide n) (bottom : Offers V.IsSide d) :
    Yields (Offers V.IsResult) (quotientOf n d) := by
  cases n with
  | none => exact deferred_offers _
  | some n =>
    cases d with
    | none => exact deferred_offers _
    | some d => exact simplified_offers (make_sides (top n rfl) (bottom d rfl))

theorem productTo_sides (left : V.IsSide a) (right : V.IsSide b) (k : Nat) :
    productTo k a b = plainProduct a b := by
  unfold productTo
  simp [left.whole, right.whole]

theorem sumTo_sides (left : V.IsSide a) (right : V.IsSide b) (k : Nat) : sumTo k a b = plainSum a b := by
  unfold sumTo
  simp [left.whole, right.whole]

theorem simple_side {x : Outcome} (offers : Yields (Offers V.IsSimple) x) : Yields (Offers V.IsSide) x :=
  offers.mono fun _ => Offers.mono fun _ => And.left

theorem simple_result {x : Outcome} (offers : Yields (Offers V.IsSimple) x) : Yields (Offers V.IsResult) x :=
  offers.mono fun _ => Offers.mono fun _ => IsSimple.result

theorem mul_sides (left : V.IsSide a) (right : V.IsSide b) : Yields (Offers V.IsSide) (a.mul b) := by
  rw [mul, productTo_sides left right]
  exact simple_side (plainProduct_offers left right)

theorem mul_offers (left : V.IsFlat a) (right : V.IsFlat b) : Yields (Offers V.IsResult) (a.mul b) := by
  unfold mul
  generalize max a.depth b.depth = k
  unfold productTo
  split
  · cases k with
    | zero => exact deferred_offers _
    | succ k =>
      refine (asQuotient_sides left).bind fun l lsides => (asQuotient_sides right).bind fun r rsides => ?_
      have top := productTo_sides lsides.top rsides.top k ▸
        simple_side (plainProduct_offers lsides.top rsides.top)
      have bottom := productTo_sides lsides.bottom rsides.bottom k ▸
        simple_side (plainProduct_offers lsides.bottom rsides.bottom)
      refine offers_bind top (deferred_offers _) fun numerator side => ?_
      exact bottom.bind fun denominator offers => quotientOf_offers (offers_some side) offers
  · next whole =>
    simp only [Bool.or_eq_true, not_or, Bool.not_eq_true] at whole
    exact simple_result (plainProduct_offers (left.side whole.1) (right.side whole.2))

theorem add_offers (left : V.IsFlat a) (right : V.IsFlat b) : Yields (Offers V.IsResult) (a.add b) := by
  unfold add
  generalize max a.depth b.depth = k
  unfold sumTo
  split
  · cases k with
    | zero => exact deferred_offers _
    | succ k =>
      refine (asQuotient_sides left).bind fun l lsides => (asQuotient_sides right).bind fun r rsides => ?_
      refine offers_bind (mul_sides lsides.top rsides.bottom) (deferred_offers _) fun ad first => ?_
      refine offers_bind (mul_sides rsides.top lsides.bottom) (deferred_offers _) fun cb second => ?_
      have sum := sumTo_sides first second k ▸ simple_side (plainSum_offers first second)
      refine offers_bind sum (deferred_offers _) fun numerator side => ?_
      exact (mul_sides lsides.bottom rsides.bottom).bind fun denominator offers =>
        quotientOf_offers (offers_some side) offers
  · next whole =>
    simp only [Bool.or_eq_true, not_or, Bool.not_eq_true] at whole
    exact simple_result (plainSum_offers (left.side whole.1) (right.side whole.2))

theorem div_offers (left : V.IsFlat a) (right : V.IsFlat b) : Yields (Offers V.IsResult) (a.div b) := by
  have turned {x : Except ComputationError Quotient} (sides : Yields V.HasSides x) :
      Yields (Offers V.IsResult) (do a.mul (← x).toQuantity) :=
    sides.bind fun _ sides => mul_offers left ⟨sides.top, sides.bottom⟩
  unfold div
  split
  · exact turned (make_sides right.2 right.1)
  · next other => exact turned (make_sides trivial (right.side_of_ne other))
  · next first second =>
      exact simplified_offers (make_sides (left.side_of_ne first) (right.side_of_ne second))

theorem pow_offers (left : V.IsFlat a) : Yields (Offers V.IsResult) (a.pow b) := by
  unfold pow
  split
  · exact deferred_offers _
  · simp only
    split
    · split
      · exact (ofNumber_side V _ _).bind fun v side => simplified_offers (asQuotient_sides side.flat)
      · exact deferred_offers _
    · split
      · exact simple_result (number_offers V _ _)
      · split
        · split
          · exact simple_result (combined_offers (side_polynomial left.1 (Polynomial.pow_isIn _ _)))
          · exact deferred_offers _
        · exact simple_result (combined_offers left)
        · exact simple_result (combined_offers left)
        · exact deferred_offers _

/-- What an operation gives is normal, and made of the same letters and arguments. -/
theorem apply_offers (operation : Operation) (left : V.IsFlat a) (right : V.IsFlat b) :
    Yields (Offers V.IsResult) (a.apply operation b) := by
  cases operation with
  | add => exact add_offers left right
  | subtract => exact add_offers left (flat_scale right _)
  | multiply => exact mul_offers left right
  | divide => exact div_offers left right
  | power => exact pow_offers left

theorem derivative_result (flat : V.IsFlat q) (derived : q.derivative? = some d) : V.IsResult d := by
  unfold derivative? at derived
  split at derived
  · obtain rfl := Option.some.inj derived
    exact (simple_normalized (side_polynomial flat.1 (Polynomial.make_isIn _ _))).result
  · split at derived
    · obtain rfl := Option.some.inj derived
      exact (simple_constant V 0.0).result
    · cases derived

end Vocabulary

namespace Quantity

def anything : Vocabulary := ⟨fun _ => True, fun _ => True⟩

theorem IsTerm.side {q : Quantity} (term : q.IsTerm) : anything.IsSide q := by
  cases q with
  | polynomial p => exact ⟨trivial, term.1⟩
  | fraction n d => exact term.elim
  | _ => trivial

theorem IsNormal.flat {q : Quantity} (normal : q.IsNormal) : anything.IsFlat q := by
  cases q with
  | polynomial p => exact ⟨trivial, normal.1⟩
  | fraction n d => exact ⟨normal.top.side, normal.bottom.side⟩
  | _ => trivial

/-- What an operation on normal quantities gives is normal, and a normal quantity is not simplified
further. -/
theorem apply_normal {f g : Quantity} (operation : Operation) (left : f.IsNormal) (right : g.IsNormal) :
    (∀ h, f.apply operation g = .ok (some h) → h.IsNormal) ∧ f.normalized = f := by
  refine ⟨fun h done => ?_, left.normalized⟩
  have offers := Vocabulary.apply_offers operation left.flat right.flat
  rw [done] at offers
  exact (offers h rfl).normal

theorem apply_normal_half :
    ∃ h, (polynomial ⟨#[0.0, 1.0], 'x'⟩).apply .divide (constant 2.0) = .ok (some h) ∧
      h.IsNormal := by
  have left : (polynomial ⟨#[0.0, 1.0], 'x'⟩).IsNormal := ⟨fun _ => by decide +kernel, by decide⟩
  have done :
      ((polynomial ⟨#[0.0, 1.0], 'x'⟩).apply .divide (constant 2.0)).toOption.join.isSome := by
    decide +kernel
  have normal := (apply_normal .divide left (g := constant 2.0) trivial).1
  cases result : (polynomial ⟨#[0.0, 1.0], 'x'⟩).apply .divide (constant 2.0) with
  | error error => simp [result, Except.toOption] at done
  | ok combined =>
    cases combined with
    | none => simp [result, Except.toOption] at done
    | some h => exact ⟨h, rfl, normal h result⟩

end Quantity

end Stepwise
