import Stepwise.Quantity.Basic

/-! Quotients of two quantities and their lowest terms. A denominator that is written `0` is
refused. When both sides are numbers the sign stands above the line. Lowest terms are exact for
numbers; otherwise the common whole factor and the common power of one letter or term cancel. -/
namespace Stepwise

structure Quotient where
  numerator : Quantity
  denominator : Quantity

namespace Quotient

def toQuantity (f : Quotient) : Quantity := .fraction f.numerator f.denominator

def make (numerator denominator : Quantity) : Except ComputationError Quotient :=
  if denominator.text = "0" then .error .zeroDenominator
  else match numerator.value?, denominator.value? with
    | some _, some d =>
      if d < 0.0 then .ok ⟨numerator.scale (-1.0), denominator.scale (-1.0)⟩
      else .ok ⟨numerator, denominator⟩
    | _, _ => .ok ⟨numerator, denominator⟩

def reciprocal (f : Quotient) : Except ComputationError Quotient := make f.denominator f.numerator

/-- A ratio as a quotient of two numbers. -/
def ofRatio (r : Ratio) : Except ComputationError Quotient :=
  make (.constant (Decimal.ofInt r.num)) (.constant (Decimal.ofInt r.den))

/-- The quotient of two numbers: exact when both have a ratio. -/
def ofNumbers (n d : Float) : Except ComputationError Quantity :=
  if d == 0.0 then .error .zeroDenominator
  else match (Ratio.ofFloat? n).bind fun a => (Ratio.ofFloat? d).bind a.div? with
    | some r =>
      if r.den = 1 then .ok (.constant (Decimal.ofInt r.num)) else (ofRatio r).map toQuantity
    | none => Quantity.ofNumber (n / d) "division"

/-- Divides both sides by the greatest whole number that divides both. -/
def cancelContent (f : Quotient) : Quotient :=
  match f.numerator.content?, f.denominator.content? with
  | some a, some b =>
    let common := Nat.gcd a b
    if common > 1 then
      let divisor := Decimal.ofInt common
      ⟨f.numerator.shrink divisor, f.denominator.shrink divisor⟩
    else f
  | _, _ => f

/-- The smaller of two powers, for powers that are numbers. -/
def smaller (a b : Float) : Float :=
  if a.isNaN then b else if b.isNaN then a else if a < b then a else b

/-- Cancels the power that both sides share of one letter or of one term. -/
def cancelPowers (f : Quotient) : Quotient :=
  match f.numerator, f.denominator with
  | .polynomial p, .polynomial q =>
    if p.letter = q.letter then
      let shared := min p.lowestPower q.lowestPower
      ⟨.polynomial (p.shiftDown shared), .polynomial (q.shiftDown shared)⟩
    else f
  | .trig a, .trig b =>
    if a.like b then
      let shared := smaller a.power b.power
      ⟨.trig { a with power := a.power - shared }, .trig { b with power := b.power - shared }⟩
    else f
  | .log a, .log b =>
    if a.like b then
      let shared := smaller a.power b.power
      ⟨.log { a with power := a.power - shared }, .log { b with power := b.power - shared }⟩
    else f
  | _, _ => f

def normalized (f : Quotient) : Quotient := ⟨f.numerator.normalized, f.denominator.normalized⟩

/-- The quotient of two sides that are numbers. -/
def number? (f : Quotient) : Option (Except ComputationError Quantity) :=
  f.numerator.value?.bind fun n => f.denominator.value?.map fun d => ofNumbers n d

/-- Lowest terms. The result is no fraction when the denominator disappears. -/
def simplify (f : Quotient) : Except ComputationError Quantity :=
  let f := f.normalized
  match f.number? with
  | some result => result
  | none =>
    let f := f.cancelContent.cancelPowers.normalized
    match f.number? with
    | some result => result
    | none => (make f.numerator f.denominator).map fun f => f.toQuantity.normalized

end Quotient

end Stepwise
