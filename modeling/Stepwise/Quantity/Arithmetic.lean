import Stepwise.Quantity.Quotient

/-! Sums, products, quotients and powers of quantities. Two quantities combine into one, or they
are not alike enough yet and the operation is put off, or the arithmetic fails. Fractions are
added and multiplied by their sides, so an operation on fractions inside fractions goes one level
deeper each time and ends with the levels of its operands. -/
namespace Stepwise

inductive Operation where
  | add
  | subtract
  | multiply
  | divide
  | power
deriving DecidableEq, Repr

def Operation.ofKind? : Token.Kind → Option Operation
  | .plus => some .add
  | .minus => some .subtract
  | .times => some .multiply
  | .divide => some .divide
  | .power => some .power
  | _ => none

/-- The largest power that polynomials are raised to. -/
def maxPolynomialPower : Nat := 32

/-- The power is a whole number that polynomials are raised to. -/
def polynomialPower? (x : Float) : Option Nat :=
  (Decimal.toWhole? x).bind fun n => if 0 ≤ n ∧ n ≤ maxPolynomialPower then some n.toNat else none

namespace Quantity

/-- A combined quantity, or nothing when the operation is put off. -/
abbrev Outcome := Except ComputationError (Option Quantity)

def combined (q : Quantity) : Outcome := .ok (some q.normalized)

def deferred : Outcome := .ok none

def number (x : Float) (operation : String) : Outcome := (ofNumber x operation).map some

/-- How deep fractions are nested. -/
def depth : Quantity → Nat
  | fraction n d => max n.depth d.depth + 1
  | _ => 0

/-- A quantity as a quotient: exact for a number, over one otherwise. -/
def asQuotient : Quantity → Except ComputationError Quotient
  | fraction n d => .ok ⟨n, d⟩
  | q =>
    match q.value? with
    | some x =>
      match Ratio.ofFloat? x with
      | some r => Quotient.ofRatio r
      | none => do Quotient.make (← ofNumber x "fraction") (constant 1.0)
    | none => Quotient.make q (constant 1.0)

/-- The sum of two quantities that are no fractions. -/
def plainSum (a b : Quantity) : Outcome :=
  match a.value?, b.value? with
  | some x, some y => number (x + y) "addition"
  | _, _ =>
    match a, b with
    | polynomial p, polynomial q =>
      match p.add? q with
      | some sum => combined (polynomial sum)
      | none => deferred
    | polynomial p, c | c, polynomial p =>
      if c.isConstant then combined (polynomial (p.addConstant (c.value?.getD 0.0))) else deferred
    | trig s, trig t =>
      if s.like t && s.power == t.power then combined (trig { s with coef := s.coef + t.coef })
      else deferred
    | log s, log t =>
      if s.like t && s.power == t.power then combined (log { s with coef := s.coef + t.coef })
      else deferred
    | _, _ => deferred

/-- The product of two quantities that are no fractions. -/
def plainProduct (a b : Quantity) : Outcome :=
  match a.value?, b.value? with
  | some x, some y => number (x * y) "multiplication"
  | _, _ =>
    match a, b with
    | polynomial p, polynomial q =>
      match p.mul? q with
      | some product => combined (polynomial product)
      | none => deferred
    | a, b =>
      if b.isConstant then combined (a.scale (b.value?.getD 1.0))
      else if a.isConstant then combined (b.scale (a.value?.getD 1.0))
      else match a, b with
        | trig s, trig t =>
          if s.like t then combined (trig { s with coef := s.coef * t.coef, power := s.power + t.power })
          else deferred
        | log s, log t =>
          if s.like t then combined (log { s with coef := s.coef * t.coef, power := s.power + t.power })
          else deferred
        | _, _ => deferred

/-- Combines two sides into a fraction in lowest terms, unless one is put off. -/
def quotientOf (numerator denominator : Option Quantity) : Outcome :=
  match numerator, denominator with
  | some n, some d => do combined (← (← Quotient.make n d).simplify)
  | _, _ => deferred

/-- `a/b * c/d = (a*c) / (b*d)`, for operands nested up to the given depth. -/
def productTo : Nat → Quantity → Quantity → Outcome
  | depth, a, b =>
    if a.isFraction || b.isFraction then
      match depth with
      | 0 => deferred
      | depth + 1 => do
        let l ← a.asQuotient
        let r ← b.asQuotient
        match ← productTo depth l.numerator r.numerator with
        | none => deferred
        | some numerator => quotientOf numerator (← productTo depth l.denominator r.denominator)
    else plainProduct a b

def mul (a b : Quantity) : Outcome := productTo (max a.depth b.depth) a b

/-- `a/b + c/d = (a*d + c*b) / (b*d)`, for operands nested up to the given depth. -/
def sumTo : Nat → Quantity → Quantity → Outcome
  | depth, a, b =>
    if a.isFraction || b.isFraction then
      match depth with
      | 0 => deferred
      | depth + 1 => do
        let l ← a.asQuotient
        let r ← b.asQuotient
        match ← l.numerator.mul r.denominator with
        | none => deferred
        | some ad =>
          match ← r.numerator.mul l.denominator with
          | none => deferred
          | some cb =>
            match ← sumTo depth ad cb with
            | none => deferred
            | some numerator => quotientOf numerator (← l.denominator.mul r.denominator)
    else plainSum a b

def add (a b : Quantity) : Outcome := sumTo (max a.depth b.depth) a b

def sub (a b : Quantity) : Outcome := a.add (b.scale (-1.0))

/-- Division always gives lowest terms. -/
def div (a b : Quantity) : Outcome :=
  match a, b with
  | a, fraction n d => do a.mul (← Quotient.reciprocal ⟨n, d⟩).toQuantity
  | fraction n d, b => do (fraction n d).mul (← Quotient.make (constant 1.0) b).toQuantity
  | a, b => do combined (← (← Quotient.make a b).simplify)

def pow (a b : Quantity) : Outcome :=
  match b.value? with
  | none => deferred
  | some exponent =>
    let power (base : Option Float) : Float := (base.getD (0.0 / 0.0)).pow exponent
    match a with
    | fraction n d =>
      if (fraction n d).isConstant then do
        let value ← ofNumber (power (fraction n d).value?) "power"
        combined (← (← value.asQuotient).simplify)
      else deferred
    | a =>
      if a.isConstant then number (power a.value?) "power"
      else match a with
        | polynomial p =>
          match polynomialPower? exponent with
          | some n => combined (polynomial (p.pow n))
          | none => deferred
        | trig t => combined (trig { t with coef := t.coef.pow exponent, power := t.power * exponent })
        | log t => combined (log { t with coef := t.coef.pow exponent, power := t.power * exponent })
        | _ => deferred

def apply (operation : Operation) (a b : Quantity) : Outcome :=
  match operation with
  | .add => a.add b
  | .subtract => a.sub b
  | .multiply => a.mul b
  | .divide => a.div b
  | .power => a.pow b

end Quantity

end Stepwise
