import Stepwise.Decimal.Fixed

/-! Polynomials in one letter, as their coefficients by exponent. Zeros at the end are dropped, but
one coefficient always stays. Sums of products are accumulated from the lower exponents of the
left factor up, starting from zero. -/
namespace Stepwise

/-- `coefficients[i]` belongs to the power `i` of the letter. -/
structure Polynomial where
  coefficients : Array Float
  letter : Char

namespace Polynomial

def dropZeros (coefficients : Array Float) : Array Float :=
  if 1 < coefficients.size ∧ coefficients.back?.any (· == 0.0) then dropZeros coefficients.pop
  else coefficients
termination_by coefficients.size
decreasing_by simp only [Array.size_pop]; omega

def make (coefficients : Array Float) (letter : Char) : Polynomial :=
  if coefficients.isEmpty then ⟨#[0.0], letter⟩ else ⟨dropZeros coefficients, letter⟩

/-- `coef * letter^power`. -/
def monomial (coef : Float) (power : Nat) (letter : Char) : Polynomial :=
  make ((Array.replicate power 0.0).push coef) letter

def degree (p : Polynomial) : Nat := p.coefficients.size - 1

def coefficient (p : Polynomial) (power : Nat) : Float := p.coefficients.getD power 0.0

/-- The exponent of the lowest term that is not zero, or zero. -/
def lowestPower (p : Polynomial) : Nat := (p.coefficients.findIdx? (· != 0.0)).getD 0

def lowestCoefficient (p : Polynomial) : Float := p.coefficient p.lowestPower

def termCount (p : Polynomial) : Nat := p.coefficients.countP (· != 0.0)

def map (f : Float → Float) (p : Polynomial) : Polynomial := make (p.coefficients.map f) p.letter

/-- Polynomials combine coefficient by coefficient when they share their letter. -/
def zipWith? (f : Float → Float → Float) (p q : Polynomial) : Option Polynomial :=
  if p.letter = q.letter then
    let size := max p.coefficients.size q.coefficients.size
    some (make (Array.ofFn fun i : Fin size => f (p.coefficient i) (q.coefficient i)) p.letter)
  else none

def add? (p q : Polynomial) : Option Polynomial := zipWith? (· + ·) p q

def sub? (p q : Polynomial) : Option Polynomial := zipWith? (· - ·) p q

/-- Adds to `sum` the products `a[i] * b[k - i]` for `count` indices from `i` up. -/
def convolve (a b : Array Float) (k : Nat) : Nat → Nat → Float → Float
  | 0, _, sum => sum
  | count + 1, i, sum => convolve a b k count (i + 1) (sum + a.getD i 0.0 * b.getD (k - i) 0.0)

/-- The coefficient of the power `k` in a product. -/
def productCoefficient (a b : Array Float) (k : Nat) : Float :=
  let first := k + 1 - b.size
  let last := min k (a.size - 1)
  convolve a b k (last + 1 - first) first 0.0

def mul? (p q : Polynomial) : Option Polynomial :=
  if p.letter = q.letter then
    let size := p.coefficients.size + q.coefficients.size - 1
    some (make (Array.ofFn fun k : Fin size =>
      productCoefficient p.coefficients q.coefficients k) p.letter)
  else none

def addConstant (p : Polynomial) (x : Float) : Polynomial :=
  make (p.coefficients.modify 0 (· + x)) p.letter

def scale (p : Polynomial) (factor : Float) : Polynomial := p.map (· * factor)

def pow (p : Polynomial) : Nat → Polynomial
  | 0 => make #[1.0] p.letter
  | n + 1 => let power := p.pow n; (power.mul? p).getD power

/-- Divides by a power of the letter, leaving out the terms below it. -/
def shiftDown (p : Polynomial) (power : Nat) : Polynomial :=
  make (p.coefficients.extract power p.coefficients.size) p.letter

def derivative (p : Polynomial) : Polynomial :=
  make (Array.ofFn fun i : Fin (p.coefficients.size - 1) =>
    p.coefficient (i + 1) * Decimal.ofInt (i + 1)) p.letter

/-- The greatest whole number that divides the given coefficients, zeros left out. -/
def contentFrom? (content : Nat) : List Float → Option Nat
  | [] => if content = 0 then none else some content
  | c :: rest =>
    if c == 0.0 then contentFrom? content rest
    else match Decimal.toWhole? c with
      | some whole => contentFrom? (Nat.gcd content whole.natAbs) rest
      | none => none

def content? (p : Polynomial) : Option Nat := contentFrom? 0 p.coefficients.toList

/-- One term without its sign. A coefficient of one is left out in front of the letter. -/
def termText (letter : Char) (power : Nat) (magnitude : Float) : String :=
  if power = 0 then Decimal.sixPlaces magnitude
  else
    let factor := if magnitude == 1.0 then "" else Decimal.sixPlaces magnitude
    let exponent := if power = 1 then "" else s!"^{power}"
    factor ++ letter.toString ++ exponent

/-- Appends the terms below the power `n` to `text`, the highest first. -/
def textBelow (p : Polynomial) : Nat → String → String
  | 0, text => text
  | n + 1, text =>
    let c := p.coefficient n
    if c == 0.0 then p.textBelow n text
    else
      let sign := if c < 0.0 then "-" else if text.isEmpty then "" else "+"
      p.textBelow n (text ++ sign ++ termText p.letter n c.abs)

def text (p : Polynomial) : String :=
  let terms := p.textBelow p.coefficients.size ""
  if terms.isEmpty then "0" else terms

end Polynomial

end Stepwise
