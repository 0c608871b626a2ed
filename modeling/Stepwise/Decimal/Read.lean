import Stepwise.Decimal.Binary

/-! Reading a number. The text is an optional sign followed by `inf`, `infinity` or `nan` in any
letter case, or by decimal digits with at most one point, a digit on at least one side of it, and
an optional exponent. The value is the nearest double; nothing else is skipped or allowed. -/
namespace Stepwise.Decimal

def infinity : Float := 1.0 / 0.0
def nan : Float := 0.0 / 0.0

def digitsValue (digits : List Char) : Nat :=
  digits.foldl (fun n c => 10 * n + (c.toNat - '0'.toNat)) 0

/-- The double nearest to `m * 10^e`. Magnitudes from `10^310` up are infinite and those below
`10^-326` are zero, so the power of ten is formed only in between. -/
def scaled (m : Nat) (e : Int) : Float :=
  let size : Int := (Nat.toDigits 10 m).length + e
  if m = 0 || size < -326 then 0.0
  else if size > 310 then infinity
  else Float.ofScientific m (e < 0) e.natAbs

/-- An exponent: an optional sign and at least one digit. -/
def readExponent? (text : List Char) : Option Int :=
  let read (digits : List Char) : Option Nat :=
    if digits ≠ [] ∧ digits.all Char.isDigit then some (digitsValue digits) else none
  match text with
  | '-' :: digits => (read digits).map fun n => -(n : Int)
  | '+' :: digits => (read digits).map Int.ofNat
  | digits => (read digits).map Int.ofNat

def readDigits? (text : List Char) : Option Float :=
  let whole := text.takeWhile Char.isDigit
  let (fraction, rest) := match text.dropWhile Char.isDigit with
    | '.' :: more => (more.takeWhile Char.isDigit, more.dropWhile Char.isDigit)
    | rest => ([], rest)
  let digits := whole ++ fraction
  if digits = [] then none
  else
    let exponent? := match rest with
      | [] => some 0
      | mark :: exponent => if mark = 'e' ∨ mark = 'E' then readExponent? exponent else none
    exponent?.map fun e => scaled (digitsValue digits) (e - fraction.length)

def readMagnitude? (text : List Char) : Option Float :=
  match String.ofList (text.map Char.toLower) with
  | "inf" | "infinity" => some infinity
  | "nan" => some nan
  | _ => readDigits? text

def read? (text : String) : Option Float :=
  match text.toList with
  | '-' :: magnitude => (readMagnitude? magnitude).map fun x => -x
  | '+' :: magnitude => readMagnitude? magnitude
  | magnitude => readMagnitude? magnitude

end Stepwise.Decimal
