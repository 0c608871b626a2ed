/-! A finite double is an integer times a power of two. `Binary.ofFloat?` reads the bits of a
`Float` exactly, so that rounding, tests for whole numbers and printing are done in integers.
Neither an infinity nor NaN is such a number. -/
namespace Stepwise.Decimal

def twoTo (n : Nat) : Nat := Nat.pow 2 n

def tenTo (n : Nat) : Nat := Nat.pow 10 n

/-- The number `m * 2^q`, negated when `negative` is set. Zero keeps its sign. -/
structure Binary where
  negative : Bool
  m : Nat
  q : Int
  /-- The next smaller magnitude is only half as far away as the next larger one. -/
  narrowBelow : Bool
deriving DecidableEq, Repr

def Binary.ofBits? (bits : UInt64) : Option Binary :=
  let exponent := ((bits >>> 52) &&& 0x7FF).toNat
  let fraction := (bits &&& 0xFFFFFFFFFFFFF).toNat
  let negative := bits >>> 63 == 1
  if exponent = 0x7FF then none
  else if exponent = 0 then some ⟨negative, fraction, -1074, false⟩
  else some ⟨negative, twoTo 52 + fraction, (exponent : Int) - 1075, fraction = 0 && exponent > 1⟩

def Binary.ofFloat? (x : Float) : Option Binary := Binary.ofBits? x.toBits

/-- Which neighbour a quotient exactly half way between two integers goes to. -/
inductive Tie where
  | even
  | away
deriving DecidableEq, Repr

/-- The integer nearest to `num / den`. -/
def roundDiv (num den : Nat) (tie : Tie) : Nat :=
  let quotient := num / den
  match compare (2 * (num % den)) den, tie with
  | .lt, _ => quotient
  | .gt, _ => quotient + 1
  | .eq, .away => quotient + 1
  | .eq, .even => if quotient % 2 = 0 then quotient else quotient + 1

namespace Binary

/-- `|x| * scale` rounded to an integer, from the exact value of `x`. -/
def magnitudeTimes (x : Binary) (scale : Nat) (tie : Tie) : Nat :=
  roundDiv (x.m * twoTo x.q.toNat * scale) (twoTo (-x.q).toNat) tie

def signed (x : Binary) (magnitude : Nat) : Int :=
  if x.negative then -(magnitude : Int) else magnitude

/-- The greatest integer that is at most `x`. -/
def floor (x : Binary) : Int :=
  (x.signed (x.m * twoTo x.q.toNat)).fdiv (twoTo (-x.q).toNat)

/-- The nearest integer; a half goes away from zero. -/
def round (x : Binary) : Int := x.signed (x.magnitudeTimes 1 .away)

def IsWhole (x : Binary) : Prop := x.m * twoTo x.q.toNat % twoTo (-x.q).toNat = 0

instance (x : Binary) : Decidable x.IsWhole := inferInstanceAs (Decidable (_ = _))

end Binary

/-- Neither infinite nor NaN. -/
def isFinite (x : Float) : Bool := (Binary.ofFloat? x).isSome

/-- The value of a whole number whose magnitude is below `10^18`. -/
def toWhole? (x : Float) : Option Int :=
  (Binary.ofFloat? x).bind fun b =>
    if b.IsWhole ∧ b.floor.natAbs < tenTo 18 then some b.floor else none

/-- The double nearest to an integer. -/
def ofInt (n : Int) : Float :=
  let magnitude := Float.ofScientific n.natAbs false 0
  if n < 0 then -magnitude else magnitude

end Stepwise.Decimal
