import Stepwise.Decimal.Binary

/-! The shortest decimal that reads back to a given double. The reals that round to `m * 2^q` form
an interval whose ends belong to it exactly when `m` is even; on the grids of one, two, … digits
the two neighbours of the value are tested against that interval in exact arithmetic, and the
first grid with a hit wins. Of two hits the nearer is taken, and of two equally near the upper. -/
namespace Stepwise.Decimal

/-- The decimal `digits * 10^exponent`. -/
structure Digits where
  digits : Nat
  exponent : Int
deriving DecidableEq, Repr

/-- Compares `a * 10^i` with `n * 2^j`. -/
def compareScaled (a : Nat) (i : Int) (n : Nat) (j : Int) : Ordering :=
  compare (a * tenTo i.toNat * twoTo (-j).toNat) (n * twoTo j.toNat * tenTo (-i).toNat)

/-- The decimal lies among the magnitudes that round to `|x|`. -/
def Binary.readsBack (x : Binary) (d : Digits) : Bool :=
  let low := if x.narrowBelow then 4 * x.m - 1 else 4 * x.m - 2
  let closed := x.m % 2 == 0
  let fromLow := compareScaled d.digits d.exponent low (x.q - 2)
  let fromHigh := compareScaled d.digits d.exponent (4 * x.m + 2) (x.q - 2)
  (fromLow == .gt || (closed && fromLow == .eq)) && (fromHigh == .lt || (closed && fromHigh == .eq))

/-- `⌊|x| / 10^exponent⌋`. -/
def Binary.onGrid (x : Binary) (exponent : Int) : Nat :=
  x.m * twoTo x.q.toNat * tenTo (-exponent).toNat / (twoTo (-x.q).toNat * tenTo exponent.toNat)

/-- The neighbour of `|x|` on the grid of step `10^exponent` that reads back. -/
def Binary.candidate? (x : Binary) (exponent : Int) : Option Digits :=
  let below : Digits := ⟨x.onGrid exponent, exponent⟩
  let above : Digits := ⟨below.digits + 1, exponent⟩
  match x.readsBack below, x.readsBack above with
  | true, false => some below
  | false, true => some above
  | false, false => none
  | true, true =>
    -- the middle of the two neighbours decides
    if compareScaled (2 * below.digits + 1) exponent x.m (x.q + 1) == .gt then some below else some above

/-- The least `k` with `|x| < 10^k`, by trying the powers from `k` up. -/
def Binary.scaleFrom (x : Binary) : Nat → Int → Int
  | 0, k => k
  | tries + 1, k => if compareScaled 1 k x.m x.q == .gt then k else x.scaleFrom tries (k + 1)

def stripZeros : Nat → Digits → Digits
  | 0, d => d
  | tries + 1, d =>
    if d.digits ≠ 0 ∧ d.digits % 10 = 0 then stripZeros tries ⟨d.digits / 10, d.exponent + 1⟩ else d

/-- The exact value as a decimal. -/
def Binary.exactDigits (x : Binary) : Digits :=
  if 0 ≤ x.q then ⟨x.m * twoTo x.q.toNat, 0⟩ else ⟨x.m * Nat.pow 5 (-x.q).toNat, x.q⟩

/-- Shortest digits of a magnitude other than zero. Seventeen digits suffice. -/
def Binary.shortest (x : Binary) : Digits :=
  -- 10^k exceeds every m * 2^q whose bit length is below 3.3 * k
  let bits : Int := (x.m.log2 : Int) + x.q
  let k := x.scaleFrom 4 (bits * 30103 / 100000 - 1)
  let found := (List.range 17).findSome? fun n : Nat => x.candidate? (k - ((n : Int) + 1))
  stripZeros 400 (found.getD x.exactDigits)

/-- How the shortest digits are laid out. -/
structure Layout where
  /-- An exponent is written when the value's leading digit stands at `10^e` with `e` outside
  this range, its upper end excluded. -/
  positional : Option (Int × Int)
  /-- A whole number in positional form ends in `.0`. -/
  pointZero : Bool

/-- Numbers in messages: always positional. -/
def inMessage : Layout := ⟨none, false⟩

/-- Numbers in a listing of rows: an exponent from `10^16` up and below `10^-4`. -/
def inListing : Layout := ⟨some (-4, 16), true⟩

def zeros (n : Nat) : String := String.ofList (List.replicate n '0')

def Layout.magnitude (layout : Layout) (d : Digits) : String :=
  let text := toString d.digits
  let point : Int := text.length + d.exponent
  let positional := layout.positional.all fun (first, last) => first ≤ point - 1 && point - 1 < last
  if !positional then
    let fraction := if text.length = 1 then "" else "." ++ String.ofList (text.toList.drop 1)
    String.ofList (text.toList.take 1) ++ fraction ++ "e" ++ toString (point - 1)
  else if 0 ≤ d.exponent then
    text ++ zeros d.exponent.toNat ++ (if layout.pointZero then ".0" else "")
  else if 0 < point then
    String.ofList (text.toList.take point.toNat) ++ "." ++ String.ofList (text.toList.drop point.toNat)
  else "0." ++ zeros (-point).toNat ++ text

def Layout.write (layout : Layout) (x : Float) : String :=
  match Binary.ofFloat? x with
  | some b =>
    let magnitude :=
      if b.m = 0 then (if layout.pointZero then "0.0" else "0") else layout.magnitude b.shortest
    if b.negative then "-" ++ magnitude else magnitude
  | none => if x.isNaN then "NaN" else if x < 0.0 then "-inf" else "inf"

end Stepwise.Decimal
