import Stepwise.Decimal.Binary

/-! Numbers in answers are written with at most six decimal places. The exact value of the double
is rounded, a tie going to the even neighbour, and the zeros that end the fraction are dropped.
A value that rounds to zero is written `0` whatever its sign. -/
namespace Stepwise.Decimal

/-- The digits after the point: `places` of them with the zeros at the end dropped. -/
def fractionDigits (places fraction : Nat) : List Char :=
  let digits := Nat.toDigits 10 fraction
  let padded := List.replicate (places - digits.length) '0' ++ digits
  (padded.reverse.dropWhile (· == '0')).reverse

/-- A count of millionths as decimal text without a sign. -/
def millionthsText (count : Nat) : String :=
  let whole := toString (count / tenTo 6)
  let fraction := count % tenTo 6
  if fraction = 0 then whole else whole ++ "." ++ String.ofList (fractionDigits 6 fraction)

def sixPlaces (x : Float) : String :=
  match Binary.ofFloat? x with
  | some b =>
    let count := b.magnitudeTimes (tenTo 6) .even
    if b.negative && count != 0 then "-" ++ millionthsText count else millionthsText count
  | none => if x.isNaN then "NaN" else if x < 0.0 then "-inf" else "inf"

end Stepwise.Decimal
