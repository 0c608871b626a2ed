import Stepwise.Proofs.Decimal.Value

/-! Numeric equality of doubles. Two of them are equal if they are the same once zero has no sign,
and neither is NaN. So equality is symmetric and transitive, but NaN does not equal itself. -/
namespace Stepwise.Decimal

open Float.Model UnpackedFloat

def unsigned : UnpackedFloat → UnpackedFloat
  | .zero _ => .zero .positive
  | u => u

theorem beq_unpacked (u v : UnpackedFloat) : u.beq v = true ↔ u ≠ .notANumber ∧ unsigned u = unsigned v := by
  have signs (s t : Sign) : compare s t = .eq ↔ s = t := by
    cases s <;> cases t <;> constructor <;> intro same <;> first | rfl | cases same
  cases u with
  | notANumber => simp [UnpackedFloat.beq, UnpackedFloat.compare]
  | infinity s =>
    cases v with
    | infinity t => simp [UnpackedFloat.beq, UnpackedFloat.compare, unsigned, signs]
    | notANumber => simp [UnpackedFloat.beq, UnpackedFloat.compare, unsigned]
    | zero t | finite t n f positive => cases s <;> simp [UnpackedFloat.beq, UnpackedFloat.compare, unsigned]
  | zero s =>
    cases v with
    | infinity t | finite t n f positive =>
      cases t <;> simp [UnpackedFloat.beq, UnpackedFloat.compare, unsigned]
    | notANumber | zero t => simp [UnpackedFloat.beq, UnpackedFloat.compare, unsigned]
  | finite s m e positive =>
    cases v with
    | infinity t | zero t => cases s <;> cases t <;> simp [UnpackedFloat.beq, UnpackedFloat.compare, unsigned]
    | notANumber => simp [UnpackedFloat.beq, UnpackedFloat.compare, unsigned]
    | finite t n f positive' =>
      cases s <;> cases t <;>
        simp [UnpackedFloat.beq, UnpackedFloat.compare, unsigned, Ordering.swap_eq_eq, and_comm]

theorem beq_iff_unsigned {x y : Float} :
    x == y ↔ x.toModel.unpack ≠ .notANumber ∧ unsigned x.toModel.unpack = unsigned y.toModel.unpack :=
  beq_unpacked ..

theorem not_nan_of_unsigned {u v : UnpackedFloat} (number : u ≠ .notANumber)
    (same : unsigned u = unsigned v) : v ≠ .notANumber := by
  rintro rfl
  cases u <;> simp_all [unsigned]

theorem beq_symm {x y : Float} (equal : x == y) : y == x := by
  obtain ⟨number, same⟩ := beq_iff_unsigned.mp equal
  exact beq_iff_unsigned.mpr ⟨not_nan_of_unsigned number same, same.symm⟩

theorem beq_trans {x y z : Float} (first : x == y) (second : y == z) : x == z := by
  obtain ⟨number, same⟩ := beq_iff_unsigned.mp first
  exact beq_iff_unsigned.mpr ⟨number, same.trans (beq_iff_unsigned.mp second).2⟩

/-- Equal doubles are equal to the same ones. -/
theorem beq_congr {x y : Float} (equal : x == y) (z : Float) : (x == z) = (y == z) := by
  rw [Bool.eq_iff_iff]
  exact ⟨beq_trans (beq_symm equal), beq_trans equal⟩

end Stepwise.Decimal
