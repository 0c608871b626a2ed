import Stepwise.Decimal.Binary

/-! Exact fractions with a positive denominator in lowest terms. A double is taken to its nearest
billionth; one whose whole part has more than eighteen digits has no ratio. A quotient of ratios
has one as long as both cross products fit 128 bits with sign. -/
namespace Stepwise

structure Ratio where
  num : Int
  den : Int
deriving DecidableEq, Repr

namespace Ratio

/-- `num / den` in lowest terms. -/
def make? (num den : Int) : Option Ratio :=
  if den = 0 then none
  else
    let divisor : Int := Int.gcd num den
    let sign : Int := if den < 0 then -1 else 1
    some ⟨sign * num.tdiv divisor, sign * den.tdiv divisor⟩

/-- The parts into which a unit is divided when a double is read as a fraction. -/
def precision : Int := 1000000000

/-- The whole part of a finite double, and its fractional part counted in billionths. -/
def split (x : Float) (whole : Int) : Int × Int :=
  let part := ((Decimal.Binary.ofFloat? ((x - Decimal.ofInt whole) * 1e9)).map (·.round)).getD 0
  if part = precision then (whole + 1, 0) else (whole, part)

def ofFloat? (x : Float) : Option Ratio :=
  (Decimal.Binary.ofFloat? x).bind fun b =>
    let (whole, part) := split x b.floor
    if whole.natAbs ≥ Decimal.tenTo 18 then none
    else
      let divisor : Int := Int.gcd part precision
      let den := precision.tdiv divisor
      some ⟨whole * den + part.tdiv divisor, den⟩

def fits (n : Int) : Bool := -(Decimal.twoTo 127 : Int) ≤ n && n < Decimal.twoTo 127

def div? (a b : Ratio) : Option Ratio :=
  let num := a.num * b.den
  let den := a.den * b.num
  if fits num && fits den then make? num den else none

def toFloat (r : Ratio) : Float := Decimal.ofInt r.num / Decimal.ofInt r.den

end Ratio

end Stepwise
