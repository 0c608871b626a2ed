import Stepwise.Expression.Render
import Stepwise.Failure
import Stepwise.Number.Ratio
import Stepwise.Quantity.Polynomial

/-! A quantity is what a settled part of an expression amounts to: a number, a polynomial in one
letter, a multiple of a power of a trigonometric or logarithmic term, or a fraction of two
quantities. A term's argument is a number, or an expression that is still unreduced and compared
by its shape. Angles are in degrees. -/
namespace Stepwise

inductive Argument where
  | numeric (x : Float)
  | symbolic (outline : Outline)

def Argument.isNumeric : Argument → Bool
  | numeric _ => true
  | symbolic _ => false

/-- Numbers agree by value, expressions by shape. -/
def Argument.agrees : Argument → Argument → Bool
  | numeric x, numeric y => x == y
  | symbolic e, symbolic f => e.sameShape e.root f f.root
  | _, _ => false

def Argument.text : Argument → String
  | numeric x => Decimal.sixPlaces x
  | symbolic outline => outline.render

inductive TrigFunction where
  | sin
  | cos
  | tan
deriving DecidableEq, Repr

namespace TrigFunction

def name : TrigFunction → String
  | sin => "sin"
  | cos => "cos"
  | tan => "tan"

def ofName? : String → Option TrigFunction
  | "sin" => some sin
  | "cos" => some cos
  | "tan" => some tan
  | _ => none

def radiansPerDegree : Float := 3.14159265358979323846 / 180.0

def apply (f : TrigFunction) (degrees : Float) : Float :=
  let radians := degrees * radiansPerDegree
  match f with
  | sin => radians.sin
  | cos => radians.cos
  | tan => radians.tan

end TrigFunction

/-- `coef * function(argument)^power`. -/
structure TrigTerm where
  function : TrigFunction
  argument : Argument
  coef : Float := 1.0
  power : Float := 1.0

/-- `coef * log_base(argument)^power`. -/
structure LogTerm where
  base : Float := 10.0
  argument : Argument
  coef : Float := 1.0
  power : Float := 1.0

/-- Powers of one function of one argument. -/
def TrigTerm.like (a b : TrigTerm) : Bool := a.function == b.function && a.argument.agrees b.argument

def LogTerm.like (a b : LogTerm) : Bool := a.base == b.base && a.argument.agrees b.argument

def TrigTerm.value? (t : TrigTerm) : Option Float :=
  match t.argument with
  | .numeric degrees => some (t.coef * (t.function.apply degrees).pow t.power)
  | .symbolic _ => none

def LogTerm.value? (t : LogTerm) : Option Float :=
  match t.argument with
  | .numeric x =>
    let log := if t.base == 10.0 then x.log10 else x.log / t.base.log
    some (t.coef * log.pow t.power)
  | .symbolic _ => none

/-- A call with its coefficient and power; those that are one are left out. -/
def callText (coef : Float) (name argument : String) (power : Float) : String :=
  let factor :=
    if coef == 1.0 then "" else if coef == -1.0 then "-" else Decimal.sixPlaces coef ++ "*"
  let exponent := if power == 1.0 then "" else "^" ++ Decimal.sixPlaces power
  factor ++ name ++ "(" ++ argument ++ ")" ++ exponent

def callPrecedence (coef power : Float) : Precedence :=
  if coef < 0.0 then .sum
  else if coef != 1.0 then .product
  else if power != 1.0 then .power
  else .atom

def TrigTerm.around (t : TrigTerm) (argument : String) : Rendered :=
  ⟨callText t.coef t.function.name argument t.power, callPrecedence t.coef t.power⟩

def LogTerm.around (t : LogTerm) (argument : String) : Rendered :=
  ⟨callText t.coef "log" argument t.power, callPrecedence t.coef t.power⟩

def Polynomial.precedence (p : Polynomial) : Precedence :=
  if p.termCount > 1 || p.lowestCoefficient < 0.0 then .sum
  else if p.lowestCoefficient != 1.0 then .product
  else if p.lowestPower > 1 then .power
  else .atom

inductive Quantity where
  | constant (x : Float)
  | polynomial (p : Polynomial)
  | trig (t : TrigTerm)
  | log (t : LogTerm)
  | fraction (numerator denominator : Quantity)

instance : Inhabited Quantity := ⟨.constant 0.0⟩

namespace Quantity

/-- The same form with equal numbers, in the sense of numeric equality, and agreeing arguments. -/
def agrees : Quantity → Quantity → Bool
  | constant x, constant y => x == y
  | polynomial p, polynomial q => p.coefficients == q.coefficients && p.letter == q.letter
  | trig s, trig t => s.like t && s.coef == t.coef && s.power == t.power
  | log s, log t => s.like t && s.coef == t.coef && s.power == t.power
  | fraction a b, fraction c d => a.agrees c && b.agrees d
  | _, _ => false

/-- A number that came out of the named operation. An infinity or NaN is an error. -/
def ofNumber (x : Float) (operation : String) : Except ComputationError Quantity :=
  if Decimal.isFinite x then .ok (constant x) else .error (.nonFinite operation)

def isFraction : Quantity → Bool
  | fraction _ _ => true
  | _ => false

/-- The quantity depends on no letter. -/
def isConstant : Quantity → Bool
  | constant _ => true
  | polynomial p => p.degree == 0
  | trig t => t.argument.isNumeric
  | log t => t.argument.isNumeric
  | fraction n d => n.isConstant && d.isConstant

def hasNumericArgument : Quantity → Bool
  | trig t => t.argument.isNumeric
  | log t => t.argument.isNumeric
  | _ => false

def value? : Quantity → Option Float
  | constant x => some x
  | polynomial p => if p.degree = 0 then some (p.coefficient 0) else none
  | trig t => t.value?
  | log t => t.value?
  | fraction n d => n.value?.bind fun x => d.value?.map fun y => x / y

def coef : Quantity → Float
  | constant x => x
  | polynomial p => p.lowestCoefficient
  | trig t => t.coef
  | log t => t.coef
  | fraction n d => n.coef / d.coef

def power : Quantity → Float
  | polynomial p => Decimal.ofInt p.lowestPower
  | trig t => t.power
  | log t => t.power
  | constant _ | fraction _ _ => 0.0

/-- Applies `f` to every coefficient; in a fraction, to those of the numerator. -/
def mapCoefficients (f : Float → Float) : Quantity → Quantity
  | constant x => constant (f x)
  | polynomial p => polynomial (p.map f)
  | trig t => trig { t with coef := f t.coef }
  | log t => log { t with coef := f t.coef }
  | fraction n d => fraction (n.mapCoefficients f) d

def scale (q : Quantity) (factor : Float) : Quantity := q.mapCoefficients (· * factor)

def shrink (q : Quantity) (divisor : Float) : Quantity := q.mapCoefficients (· / divisor)

/-- The magnitude of a whole number other than zero. -/
def contentOf? (x : Float) : Option Nat :=
  (Decimal.toWhole? x).bind fun n => if n = 0 then none else some n.natAbs

/-- The greatest whole number that divides every coefficient. -/
def content? : Quantity → Option Nat
  | constant x => contentOf? x
  | polynomial p => p.content?
  | trig t => contentOf? t.coef
  | log t => contentOf? t.coef
  | fraction _ _ => none

/-- A fraction over one or of zero is written as its numerator. A numerator is bracketed when it is
a sum other than a number, a denominator when it binds looser than a power. -/
def fractionRendered (plainNumber : Bool) (n d : Rendered) (negative : Bool) : Rendered :=
  if d.text = "1" || n.text = "0" then n
  else
    let numerator := if plainNumber then n.text else n.within .product
    ⟨numerator ++ "/" ++ d.within .power, if negative then .sum else .product⟩

def rendered : Quantity → Rendered
  | constant x => ⟨Decimal.sixPlaces x, if x < 0.0 then .sum else .atom⟩
  | polynomial p => ⟨p.text, p.precedence⟩
  | trig t => t.around t.argument.text
  | log t => t.around t.argument.text
  | fraction (constant x) d =>
    fractionRendered true (constant x).rendered d.rendered (x < 0.0)
  | fraction n d => fractionRendered false n.rendered d.rendered false

def text (q : Quantity) : String := q.rendered.text

/-- A call around the text of its argument; any other quantity as it is. -/
def around : Quantity → String → Rendered
  | trig t, argument => t.around argument
  | log t, argument => t.around argument
  | q, _ => q.rendered

/-- The token of a leaf that holds the quantity. -/
def token (q : Quantity) : Token :=
  let kind : Token.Kind := match q with
    | constant _ | fraction _ _ => .number
    | polynomial _ => .polynomial
    | trig _ => .trig
    | log _ => .log
  .inserted kind q.text

instance : Content Quantity := ⟨rendered, token, hasNumericArgument, around⟩

/-- Takes simpler forms where there are some: a polynomial of degree zero is a number, a term with
coefficient or power zero is one too, and a fraction over one is its numerator. -/
def normalized : Quantity → Quantity
  | polynomial p => if p.degree = 0 then constant (p.coefficient 0) else polynomial p
  | trig t =>
    if t.coef == 0.0 then constant 0.0 else if t.power == 0.0 then constant t.coef else trig t
  | log t =>
    if t.coef == 0.0 then constant 0.0 else if t.power == 0.0 then constant t.coef else log t
  | fraction n d =>
    if n.text = "0" then constant 0.0 else if d.text = "1" then n.normalized else fraction n d
  | constant x => constant x

/-- The derivative by the letter of a polynomial. A term with a letter in its argument has none. -/
def derivative? : Quantity → Option Quantity
  | polynomial p => some (polynomial p.derivative).normalized
  | q => if q.isConstant then some (constant 0.0) else none

end Quantity

end Stepwise
