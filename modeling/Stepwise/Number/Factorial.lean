import Stepwise.Failure

/-! Factorials are formed of whole numbers from 0 to 12. -/
namespace Stepwise

/-- The largest number whose factorial is formed. -/
def factorialLimit : Nat := 12

def factorialNat : Nat → Nat
  | 0 => 1
  | n + 1 => (n + 1) * factorialNat n

def factorial (x : Float) : Except ComputationError Float :=
  match Decimal.Binary.ofFloat? x with
  | some b =>
    if b.floor < 0 ∨ ¬ b.IsWhole then .error (.factorialDomain x)
    else if b.floor > factorialLimit then .error (.factorialTooLarge x factorialLimit)
    else .ok (Decimal.ofInt (factorialNat b.floor.toNat))
  | none => .error (.factorialDomain x)

end Stepwise
