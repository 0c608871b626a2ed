import Stepwise.Formula.Prepare

/-! Outlines replaced by others of the same text and shape. Main statement: an operation on quantities whose
outlines are replaced gives what it gives on the old ones, with its outlines replaced. -/
namespace Stepwise

/-- Replaces an outline by one that is written alike and compared alike. -/
structure Faithful (g : Outline → Outline) : Prop where
  render : ∀ o, (g o).render = o.render
  sameShape : ∀ o p, (g o).sameShape (g o).root (g p) (g p).root = o.sameShape o.root p p.root

namespace Argument

def redraw (g : Outline → Outline) : Argument → Argument
  | numeric x => numeric x
  | symbolic outline => symbolic (g outline)

@[simp] theorem isNumeric_redraw (g : Outline → Outline) (a : Argument) :
    (a.redraw g).isNumeric = a.isNumeric := by
  cases a <;> rfl

variable {g : Outline → Outline}

theorem agrees_redraw (faithful : Faithful g) (a b : Argument) :
    (a.redraw g).agrees (b.redraw g) = a.agrees b := by
  cases a with
  | numeric x => cases b <;> rfl
  | symbolic o =>
    cases b with
    | numeric y => rfl
    | symbolic p => exact faithful.sameShape o p

theorem text_redraw (faithful : Faithful g) (a : Argument) : (a.redraw g).text = a.text := by
  cases a with
  | numeric x => rfl
  | symbolic o => exact faithful.render o

end Argument

def TrigTerm.redraw (g : Outline → Outline) (t : TrigTerm) : TrigTerm :=
  { t with argument := t.argument.redraw g }

def LogTerm.redraw (g : Outline → Outline) (t : LogTerm) : LogTerm :=
  { t with argument := t.argument.redraw g }

section Terms
variable {g : Outline → Outline}

theorem TrigTerm.like_redraw (faithful : Faithful g) (s t : TrigTerm) :
    (s.redraw g).like (t.redraw g) = s.like t := by
  simp only [TrigTerm.like, TrigTerm.redraw, Argument.agrees_redraw faithful]

theorem LogTerm.like_redraw (faithful : Faithful g) (s t : LogTerm) :
    (s.redraw g).like (t.redraw g) = s.like t := by
  simp only [LogTerm.like, LogTerm.redraw, Argument.agrees_redraw faithful]

@[simp] theorem TrigTerm.value_redraw (g : Outline → Outline) (t : TrigTerm) :
    (t.redraw g).value? = t.value? := by
  obtain ⟨function, argument, coef, power⟩ := t
  cases argument <;> rfl

@[simp] theorem LogTerm.value_redraw (g : Outline → Outline) (t : LogTerm) :
    (t.redraw g).value? = t.value? := by
  obtain ⟨base, argument, coef, power⟩ := t
  cases argument <;> rfl

end Terms

namespace Quantity

def redraw (g : Outline → Outline) : Quantity → Quantity
  | constant x => constant x
  | polynomial p => polynomial p
  | trig t => trig (t.redraw g)
  | log t => log (t.redraw g)
  | fraction n d => fraction (n.redraw g) (d.redraw g)

section Shape
variable (g : Outline → Outline) (q : Quantity)

@[simp] theorem isFraction_redraw : (q.redraw g).isFraction = q.isFraction := by
  cases q <;> rfl

@[simp] theorem isConstant_redraw : (q.redraw g).isConstant = q.isConstant := by
  induction q with
  | fraction n d ihn ihd => simp [redraw, isConstant, ihn, ihd]
  | trig t | log t => exact Argument.isNumeric_redraw g t.argument
  | constant x | polynomial p => rfl

@[simp] theorem hasNumericArgument_redraw : (q.redraw g).hasNumericArgument = q.hasNumericArgument := by
  cases q with
  | trig t | log t => exact Argument.isNumeric_redraw g t.argument
  | constant x | polynomial p | fraction n d => rfl

@[simp] theorem value_redraw : (q.redraw g).value? = q.value? := by
  induction q with
  | fraction n d ihn ihd => simp [redraw, value?, ihn, ihd]
  | trig t => exact t.value_redraw g
  | log t => exact t.value_redraw g
  | constant x | polynomial p => rfl

@[simp] theorem coef_redraw : (q.redraw g).coef = q.coef := by
  induction q with
  | fraction n d ihn ihd => simp [redraw, coef, ihn, ihd]
  | constant x | polynomial p | trig t | log t => rfl

@[simp] theorem power_redraw : (q.redraw g).power = q.power := by
  cases q <;> rfl

@[simp] theorem isTerm_redraw : Formula.isTerm (q.redraw g) = Formula.isTerm q := by
  cases q <;> rfl

@[simp] theorem content_redraw : (q.redraw g).content? = q.content? := by
  cases q <;> rfl

@[simp] theorem depth_redraw : (q.redraw g).depth = q.depth := by
  induction q with
  | fraction n d ihn ihd => simp [redraw, depth, ihn, ihd]
  | constant x | polynomial p | trig t | log t => rfl

theorem mapCoefficients_redraw (f : Float → Float) :
    (q.redraw g).mapCoefficients f = (q.mapCoefficients f).redraw g := by
  induction q with
  | fraction n d ihn ihd => simp [redraw, mapCoefficients, ihn]
  | constant x | polynomial p | trig t | log t => rfl

theorem scale_redraw (factor : Float) : (q.redraw g).scale factor = (q.scale factor).redraw g :=
  mapCoefficients_redraw g q _

theorem shrink_redraw (divisor : Float) : (q.redraw g).shrink divisor = (q.shrink divisor).redraw g :=
  mapCoefficients_redraw g q _

end Shape

variable {g : Outline → Outline}

theorem rendered_redraw (faithful : Faithful g) (q : Quantity) : (q.redraw g).rendered = q.rendered := by
  induction q with
  | constant x | polynomial p => rfl
  | trig t | log t => exact congrArg t.around (t.argument.text_redraw faithful)
  | fraction n d ihn ihd =>
    cases n with
    | constant x => simp only [redraw, rendered, ihd]
    | polynomial p => simp only [redraw, rendered, ihd]
    | trig t | log t | fraction a b =>
      simp only [redraw] at ihn ⊢
      simp only [rendered, ihd] at ihn ⊢
      rw [ihn]

theorem text_redraw (faithful : Faithful g) (q : Quantity) : (q.redraw g).text = q.text :=
  congrArg Rendered.text (rendered_redraw faithful q)

theorem around_redraw (faithful : Faithful g) (q : Quantity) (argument : String) :
    (q.redraw g).around argument = q.around argument := by
  cases q with
  | trig t | log t => rfl
  | constant x | polynomial p | fraction n d => exact rendered_redraw faithful _

theorem token_redraw (faithful : Faithful g) (q : Quantity) : (q.redraw g).token = q.token := by
  have text := text_redraw faithful q
  cases q <;> exact congrArg (Token.inserted _) text

theorem normalized_redraw (faithful : Faithful g) (q : Quantity) :
    (q.redraw g).normalized = q.normalized.redraw g := by
  induction q with
  | constant x => rfl
  | polynomial p =>
    simp only [redraw, normalized]
    split <;> rfl
  | trig t | log t =>
    simp only [redraw, normalized, TrigTerm.redraw, LogTerm.redraw]
    repeat' split
    all_goals rfl
  | fraction n d ihn ihd =>
    simp only [redraw, normalized, text_redraw faithful, ihn]
    repeat' split
    all_goals rfl

theorem derivative_redraw (faithful : Faithful g) (q : Quantity) :
    (q.redraw g).derivative? = q.derivative?.map (redraw g) := by
  have flat (q : Quantity) : (if (q.redraw g).isConstant then some (constant 0.0) else none) =
      (if q.isConstant then some (Quantity.constant 0.0) else none).map (redraw g) := by
    rw [isConstant_redraw]
    split <;> rfl
  cases q with
  | polynomial p =>
    simp only [redraw, derivative?, Option.map_some]
    rw [← normalized_redraw faithful]
    rfl
  | constant x => exact flat (.constant x)
  | trig t => exact flat (.trig t)
  | log t => exact flat (.log t)
  | fraction n d => exact flat (.fraction n d)

end Quantity

namespace Quotient

open Quantity (text_redraw normalized_redraw scale_redraw shrink_redraw)

def redraw (g : Outline → Outline) (f : Quotient) : Quotient := ⟨f.numerator.redraw g, f.denominator.redraw g⟩

variable {g : Outline → Outline}

theorem make_redraw (faithful : Faithful g) (n d : Quantity) :
    make (n.redraw g) (d.redraw g) = (make n d).map (redraw g) := by
  simp only [make, text_redraw faithful, Quantity.value_redraw]
  by_cases zero : d.text = "0"
  · rw [if_pos zero, if_pos zero]
    rfl
  · rw [if_neg zero, if_neg zero]
    cases n.value? with
    | none => rfl
    | some x =>
      cases d.value? with
      | none => rfl
      | some y =>
        simp only [scale_redraw]
        split <;> rfl

theorem ofRatio_redraw (faithful : Faithful g) (r : Ratio) : (ofRatio r).map (redraw g) = ofRatio r := by
  rw [ofRatio, ← make_redraw faithful]
  rfl

/-- A quotient of two numbers holds no outline. -/
theorem ofNumbers_redraw (faithful : Faithful g) (n d : Float) :
    (ofNumbers n d).map (Quantity.redraw g) = ofNumbers n d := by
  have fraction (r : Ratio) :
      ((ofRatio r).map toQuantity).map (Quantity.redraw g) = (ofRatio r).map toQuantity := by
    have same := congrArg (Except.map toQuantity) (ofRatio_redraw faithful r)
    cases made : ofRatio r with
    | error error => rfl
    | ok f =>
      rw [made] at same
      exact same
  unfold ofNumbers
  split
  · rfl
  · split
    · next r _ =>
      split
      · rfl
      · exact fraction r
    · unfold Quantity.ofNumber
      split <;> rfl

theorem cancelContent_redraw (f : Quotient) : (f.redraw g).cancelContent = f.cancelContent.redraw g := by
  simp only [cancelContent, redraw, Quantity.content_redraw, shrink_redraw]
  repeat' split
  all_goals rfl

theorem cancelPowers_redraw (faithful : Faithful g) (f : Quotient) :
    (f.redraw g).cancelPowers = f.cancelPowers.redraw g := by
  obtain ⟨n, d⟩ := f
  cases n with
  | polynomial p =>
    cases d with
    | polynomial q =>
      simp only [redraw, Quantity.redraw, cancelPowers]
      split <;> rfl
    | _ => rfl
  | trig a =>
    cases d with
    | trig b =>
      simp only [redraw, Quantity.redraw, cancelPowers, TrigTerm.like_redraw faithful]
      split <;> rfl
    | _ => rfl
  | log a =>
    cases d with
    | log b =>
      simp only [redraw, Quantity.redraw, cancelPowers, LogTerm.like_redraw faithful]
      split <;> rfl
    | _ => rfl
  | constant x => cases d <;> rfl
  | fraction a b => cases d <;> rfl

theorem normalized_redraw' (faithful : Faithful g) (f : Quotient) :
    (f.redraw g).normalized = f.normalized.redraw g := by
  simp only [normalized, redraw, normalized_redraw faithful]

theorem number_redraw (faithful : Faithful g) (f : Quotient) :
    (f.redraw g).number? = f.number?.map fun result => result.map (Quantity.redraw g) := by
  simp only [number?, redraw, Quantity.value_redraw]
  cases f.numerator.value? with
  | none => rfl
  | some n =>
    cases f.denominator.value? with
    | none => rfl
    | some d => exact congrArg some (ofNumbers_redraw faithful n d).symm

theorem simplify_redraw (faithful : Faithful g) (f : Quotient) :
    (f.redraw g).simplify = f.simplify.map (Quantity.redraw g) := by
  simp only [simplify, normalized_redraw' faithful, cancelContent_redraw,
    cancelPowers_redraw faithful, number_redraw faithful]
  cases f.normalized.number? with
  | some result => rfl
  | none =>
    simp only [Option.map_none]
    generalize f.normalized.cancelContent.cancelPowers.normalized = h
    cases h.number? with
    | some result => rfl
    | none =>
      simp only [Option.map_none, redraw, make_redraw faithful]
      cases make h.numerator h.denominator with
      | error error => rfl
      | ok made => exact congrArg Except.ok (normalized_redraw faithful made.toQuantity)

end Quotient

namespace Quantity

def redrawOutcome (g : Outline → Outline) (outcome : Outcome) : Outcome := outcome.map (Option.map (redraw g))

variable {g : Outline → Outline}

theorem combined_redraw (faithful : Faithful g) (q : Quantity) :
    combined (q.redraw g) = redrawOutcome g (combined q) :=
  congrArg (fun r => Except.ok (some r)) (normalized_redraw faithful q)

theorem number_redraw (g : Outline → Outline) (x : Float) (operation : String) :
    redrawOutcome g (number x operation) = number x operation := by
  unfold number ofNumber
  split <;> rfl

/-- An operation that combines to `q` under a condition that does not look at outlines. -/
theorem combined_if_redraw (faithful : Faithful g) (c : Bool) (q : Quantity) :
    (if c then combined (q.redraw g) else deferred) =
    redrawOutcome g (if c then combined q else deferred) := by
  cases c with
  | true => exact combined_redraw faithful q
  | false => rfl

theorem plainSum_redraw (faithful : Faithful g) (a b : Quantity) :
    plainSum (a.redraw g) (b.redraw g) = redrawOutcome g (plainSum a b) := by
  have shifted (p : Polynomial) (c : Quantity) :
      (if (c.redraw g).isConstant then
      combined (polynomial (p.addConstant ((c.redraw g).value?.getD 0.0))) else deferred) =
        redrawOutcome g (if c.isConstant then
        combined (polynomial (p.addConstant (c.value?.getD 0.0))) else deferred) := by
    rw [isConstant_redraw, value_redraw]
    exact combined_if_redraw faithful c.isConstant (polynomial (p.addConstant (c.value?.getD 0.0)))
  unfold plainSum
  rw [value_redraw, value_redraw]
  split
  · exact (number_redraw g _ _).symm
  · cases a with
    | polynomial p =>
      cases b with
      | polynomial q =>
        simp only [redraw]
        cases p.add? q with
        | none => rfl
        | some sum => exact combined_redraw faithful (polynomial sum)
      | constant y => exact shifted p (constant y)
      | trig t => exact shifted p (trig t)
      | log t => exact shifted p (log t)
      | fraction c d => exact shifted p (fraction c d)
    | trig s =>
      cases b with
      | trig t =>
        simp only [redraw, TrigTerm.like_redraw faithful]
        exact combined_if_redraw faithful (s.like t && s.power == t.power)
          (trig { s with coef := s.coef + t.coef })
      | polynomial q => exact shifted q (trig s)
      | _ => rfl
    | log s =>
      cases b with
      | log t =>
        simp only [redraw, LogTerm.like_redraw faithful]
        exact combined_if_redraw faithful (s.like t && s.power == t.power)
          (log { s with coef := s.coef + t.coef })
      | polynomial q => exact shifted q (log s)
      | _ => rfl
    | constant x =>
      cases b with
      | polynomial q => exact shifted q (constant x)
      | _ => rfl
    | fraction c d =>
      cases b with
      | polynomial q => exact shifted q (fraction c d)
      | _ => rfl

theorem plainProduct_redraw (faithful : Faithful g) (a b : Quantity) :
    plainProduct (a.redraw g) (b.redraw g) = redrawOutcome g (plainProduct a b) := by
  have scaled (a b : Quantity) {last last' : Outcome} (same : last' = redrawOutcome g last) :
      (if (b.redraw g).isConstant then combined ((a.redraw g).scale ((b.redraw g).value?.getD 1.0))
        else if (a.redraw g).isConstant then
        combined ((b.redraw g).scale ((a.redraw g).value?.getD 1.0)) else last') =
      redrawOutcome g (if b.isConstant then combined (a.scale (b.value?.getD 1.0))
        else if a.isConstant then combined (b.scale (a.value?.getD 1.0)) else last) := by
    simp only [isConstant_redraw, value_redraw, scale_redraw, combined_redraw faithful, same]
    split
    · rfl
    · split <;> rfl
  unfold plainProduct
  rw [value_redraw, value_redraw]
  split
  · exact (number_redraw g _ _).symm
  · cases a with
    | polynomial p =>
      cases b with
      | polynomial q =>
        simp only [redraw]
        cases p.mul? q with
        | none => rfl
        | some product => exact combined_redraw faithful (polynomial product)
      | constant y => exact scaled (polynomial p) (constant y) rfl
      | trig t => exact scaled (polynomial p) (trig t) rfl
      | log t => exact scaled (polynomial p) (log t) rfl
      | fraction c d => exact scaled (polynomial p) (fraction c d) rfl
    | trig s =>
      cases b with
      | trig t =>
        refine scaled (trig s) (trig t) ?_
        simp only [redraw, TrigTerm.like_redraw faithful]
        exact combined_if_redraw faithful (s.like t)
          (trig { s with coef := s.coef * t.coef, power := s.power + t.power })
      | constant y => exact scaled (trig s) (constant y) rfl
      | polynomial q => exact scaled (trig s) (polynomial q) rfl
      | log t => exact scaled (trig s) (log t) rfl
      | fraction c d => exact scaled (trig s) (fraction c d) rfl
    | log s =>
      cases b with
      | log t =>
        refine scaled (log s) (log t) ?_
        simp only [redraw, LogTerm.like_redraw faithful]
        exact combined_if_redraw faithful (s.like t)
          (log { s with coef := s.coef * t.coef, power := s.power + t.power })
      | constant y => exact scaled (log s) (constant y) rfl
      | polynomial q => exact scaled (log s) (polynomial q) rfl
      | trig t => exact scaled (log s) (trig t) rfl
      | fraction c d => exact scaled (log s) (fraction c d) rfl
    | constant x => exact scaled (constant x) b rfl
    | fraction c d => exact scaled (fraction c d) b rfl

theorem ofNumber_redraw (g : Outline → Outline) (x : Float) (operation : String) :
    (ofNumber x operation).map (redraw g) = ofNumber x operation := by
  unfold ofNumber
  split <;> rfl

def plainQuotient (q : Quantity) : Except ComputationError Quotient :=
  match q.value? with
  | some x =>
    match Ratio.ofFloat? x with
    | some r => Quotient.ofRatio r
    | none => do Quotient.make (← ofNumber x "fraction") (constant 1.0)
  | none => Quotient.make q (constant 1.0)

theorem asQuotient_of_not_fraction {q : Quantity} (plain : q.isFraction = false) :
    q.asQuotient = q.plainQuotient := by
  cases q with
  | fraction n d => cases plain
  | constant x | polynomial p | trig t | log t => rfl

theorem plainQuotient_redraw (faithful : Faithful g) (q : Quantity) :
    (q.redraw g).plainQuotient = q.plainQuotient.map (Quotient.redraw g) := by
  rw [plainQuotient, plainQuotient, value_redraw]
  cases q.value? with
  | none => exact Quotient.make_redraw faithful q (constant 1.0)
  | some x =>
    simp only
    cases Ratio.ofFloat? x with
    | some r => exact (Quotient.ofRatio_redraw faithful r).symm
    | none =>
      have same := ofNumber_redraw g x "fraction"
      cases number : ofNumber x "fraction" with
      | error error => rfl
      | ok c =>
        rw [number] at same
        have made := Quotient.make_redraw faithful c (constant 1.0)
        rw [Except.ok.inj same] at made
        exact made

theorem asQuotient_redraw (faithful : Faithful g) (q : Quantity) :
    (q.redraw g).asQuotient = q.asQuotient.map (Quotient.redraw g) := by
  cases fraction : q.isFraction with
  | false =>
    rw [asQuotient_of_not_fraction fraction,
      asQuotient_of_not_fraction (by rwa [isFraction_redraw]), plainQuotient_redraw faithful]
  | true =>
    cases q with
    | fraction n d => rfl
    | constant x | polynomial p | trig t | log t => cases fraction

/-- Lowest terms of what is built from the operands. -/
theorem lowest_redraw (faithful : Faithful g) (made : Except ComputationError Quotient) :
    (do combined (← (← made.map (Quotient.redraw g)).simplify) : Outcome) =
      redrawOutcome g (do combined (← (← made).simplify)) := by
  cases made with
  | error error => rfl
  | ok f =>
    simp only [Except.map, bind, Except.bind, Quotient.simplify_redraw faithful]
    cases f.simplify with
    | error error => rfl
    | ok q => exact combined_redraw faithful q

theorem quotientOf_redraw (faithful : Faithful g) (n d : Option Quantity) :
    quotientOf (n.map (redraw g)) (d.map (redraw g)) = redrawOutcome g (quotientOf n d) := by
  cases n with
  | none => rfl
  | some n =>
    cases d with
    | none => rfl
    | some d =>
      simp only [quotientOf, Option.map_some, Quotient.make_redraw faithful]
      exact lowest_redraw faithful (Quotient.make n d)

theorem productTo_redraw (faithful : Faithful g) (depth : Nat) (a b : Quantity) :
    productTo depth (a.redraw g) (b.redraw g) = redrawOutcome g (productTo depth a b) := by
  induction depth generalizing a b with
  | zero =>
    simp only [productTo, isFraction_redraw, plainProduct_redraw faithful]
    split <;> rfl
  | succ depth ih =>
    simp only [productTo, isFraction_redraw, plainProduct_redraw faithful, asQuotient_redraw faithful]
    split
    · cases a.asQuotient with
      | error error => rfl
      | ok l =>
        cases b.asQuotient with
        | error error => rfl
        | ok r =>
          simp only [Except.map, bind, Except.bind, Quotient.redraw, ih]
          cases productTo depth l.numerator r.numerator with
          | error error => rfl
          | ok top =>
            cases top with
            | none => rfl
            | some numerator =>
              cases productTo depth l.denominator r.denominator with
              | error error => rfl
              | ok bottom => exact quotientOf_redraw faithful (some numerator) bottom
    · rfl

theorem mul_redraw (faithful : Faithful g) (a b : Quantity) :
    (a.redraw g).mul (b.redraw g) = redrawOutcome g (a.mul b) := by
  rw [mul, depth_redraw, depth_redraw]
  exact productTo_redraw faithful _ a b

theorem sumTo_redraw (faithful : Faithful g) (depth : Nat) (a b : Quantity) :
    sumTo depth (a.redraw g) (b.redraw g) = redrawOutcome g (sumTo depth a b) := by
  induction depth generalizing a b with
  | zero =>
    simp only [sumTo, isFraction_redraw, plainSum_redraw faithful]
    split <;> rfl
  | succ depth ih =>
    simp only [sumTo, isFraction_redraw, plainSum_redraw faithful, asQuotient_redraw faithful]
    split
    · cases a.asQuotient with
      | error error => rfl
      | ok l =>
        cases b.asQuotient with
        | error error => rfl
        | ok r =>
          simp only [Except.map, bind, Except.bind, Quotient.redraw, mul_redraw faithful, redrawOutcome]
          cases l.numerator.mul r.denominator with
          | error error => rfl
          | ok first =>
            cases first with
            | none => rfl
            | some ad =>
              cases r.numerator.mul l.denominator with
              | error error => rfl
              | ok second =>
                cases second with
                | none => rfl
                | some cb =>
                  simp only [Option.map_some, ih, redrawOutcome]
                  cases sumTo depth ad cb with
                  | error error => rfl
                  | ok total =>
                    cases total with
                    | none => rfl
                    | some numerator =>
                      cases l.denominator.mul r.denominator with
                      | error error => rfl
                      | ok bottom => exact quotientOf_redraw faithful (some numerator) bottom
    · rfl

theorem add_redraw (faithful : Faithful g) (a b : Quantity) :
    (a.redraw g).add (b.redraw g) = redrawOutcome g (a.add b) := by
  rw [add, depth_redraw, depth_redraw]
  exact sumTo_redraw faithful _ a b

theorem div_redraw (faithful : Faithful g) (a b : Quantity) :
    (a.redraw g).div (b.redraw g) = redrawOutcome g (a.div b) := by
  have reciprocal (n d : Quantity) :
      (do (a.redraw g).mul (← Quotient.reciprocal ⟨n.redraw g, d.redraw g⟩).toQuantity : Outcome) =
        redrawOutcome g (do a.mul (← Quotient.reciprocal ⟨n, d⟩).toQuantity) := by
    simp only [Quotient.reciprocal, Quotient.make_redraw faithful]
    cases Quotient.make d n with
    | error error => rfl
    | ok f => exact mul_redraw faithful a f.toQuantity
  have inverse (n d b : Quantity) :
      redrawOutcome g (do (fraction n d).mul (← Quotient.make (constant 1.0) b).toQuantity) =
        (do
          let inverted ← Quotient.make (constant 1.0) (b.redraw g)
          ((fraction n d).redraw g).mul inverted.toQuantity : Outcome) := by
    have made : Quotient.make (constant 1.0) (b.redraw g) =
        (Quotient.make (constant 1.0) b).map (Quotient.redraw g) :=
      Quotient.make_redraw faithful (constant 1.0) b
    rw [made]
    cases Quotient.make (constant 1.0) b with
    | error error => rfl
    | ok f => exact (mul_redraw faithful (fraction n d) f.toQuantity).symm
  have lowest (a b : Quantity) :
      redrawOutcome g (do combined (← (← Quotient.make a b).simplify)) =
        (do combined (← (← Quotient.make (a.redraw g) (b.redraw g)).simplify) : Outcome) := by
    rw [Quotient.make_redraw faithful]
    exact (lowest_redraw faithful (Quotient.make a b)).symm
  cases b with
  | fraction n d => exact reciprocal n d
  | _ =>
    cases a with
    | fraction n d => exact (inverse ..).symm
    | _ => exact (lowest ..).symm

theorem pow_redraw (faithful : Faithful g) (a b : Quantity) :
    (a.redraw g).pow (b.redraw g) = redrawOutcome g (a.pow b) := by
  unfold pow
  rw [value_redraw]
  cases b.value? with
  | none => rfl
  | some exponent =>
    have constant (a : Quantity) {last last' : Outcome} (same : last' = redrawOutcome g last) :
        (if (a.redraw g).isConstant then
        number (((a.redraw g).value?.getD (0.0 / 0.0)).pow exponent) "power" else last') =
          redrawOutcome g (if a.isConstant then
          number ((a.value?.getD (0.0 / 0.0)).pow exponent) "power" else last) := by
      rw [isConstant_redraw, value_redraw, same]
      split
      · exact (number_redraw g _ _).symm
      · rfl
    cases a with
    | fraction n d =>
      have shape : ((fraction n d).redraw g) = fraction (n.redraw g) (d.redraw g) := rfl
      simp only [shape]
      rw [← shape, isConstant_redraw, value_redraw]
      split
      · have same := ofNumber_redraw g (((fraction n d).value?.getD (0.0 / 0.0)).pow exponent) "power"
        cases number : ofNumber (((fraction n d).value?.getD (0.0 / 0.0)).pow exponent) "power" with
        | error error => rfl
        | ok value =>
          rw [number] at same
          have quotient := asQuotient_redraw faithful value
          rw [Except.ok.inj same] at quotient
          have lowest := lowest_redraw faithful value.asQuotient
          rw [← quotient] at lowest
          exact lowest
      · rfl
    | constant x => exact constant (.constant x) rfl
    | polynomial p =>
      refine constant (.polynomial p) ?_
      simp only [redraw]
      cases polynomialPower? exponent with
      | none => rfl
      | some n => exact combined_redraw faithful (.polynomial (p.pow n))
    | trig t =>
      exact constant (.trig t) (combined_redraw faithful
        (.trig { t with coef := t.coef.pow exponent, power := t.power * exponent }))
    | log t =>
      exact constant (.log t) (combined_redraw faithful
        (.log { t with coef := t.coef.pow exponent, power := t.power * exponent }))

/-- An operation does not tell outlines of the same text and shape apart. -/
theorem apply_redraw (faithful : Faithful g) (operation : Operation) (a b : Quantity) :
    (a.redraw g).apply operation (b.redraw g) = redrawOutcome g (a.apply operation b) := by
  cases operation with
  | add => exact add_redraw faithful a b
  | subtract =>
    rw [apply, sub, scale_redraw]
    exact add_redraw faithful a (b.scale (-1.0))
  | multiply => exact mul_redraw faithful a b
  | divide => exact div_redraw faithful a b
  | power => exact pow_redraw faithful a b

end Quantity

end Stepwise
