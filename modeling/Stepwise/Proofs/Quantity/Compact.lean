import Stepwise.Proofs.Quantity.Reduced

/-! The shape of a result, whatever its numbers and the arguments of its terms are. Main statement:
an operation on compact quantities gives a compact one. Infinite numbers may come from a text, so
nothing here asks for finite ones. -/
namespace Stepwise

namespace Quantity

def IsBare : Quantity → Prop
  | polynomial p => p.IsNamed
  | fraction _ _ => False
  | _ => True

/-- A polynomial shows its letter, and a fraction of two numbers is one of whole numbers. -/
def IsCompact : Quantity → Prop
  | polynomial p => p.IsNamed ∧ p.degree ≠ 0
  | fraction n d => (n.IsBare ∧ d.IsBare) ∧ (n.isConstant → d.isConstant → (fraction n d).IsSettled)
  | _ => True

variable {a b d q : Quantity}

theorem IsSettled.compact (settled : q.IsSettled) : q.IsCompact := by
  cases settled with
  | number => trivial
  | ratio ratio => exact ⟨⟨trivial, trivial⟩, fun _ _ => .ratio ratio⟩

def IsLevel : Quantity → Prop
  | fraction n d => n.IsBare ∧ d.IsBare
  | q => q.IsBare

theorem IsCompact.level (compact : q.IsCompact) : q.IsLevel := by
  cases q with
  | fraction n d => exact compact.1
  | polynomial p => exact compact.1
  | _ => trivial

def lettered : Vocabulary := ⟨fun letter => 'a' ≤ letter ∧ letter ≤ 'z', fun _ => True⟩

theorem lettered_side : lettered.IsSide q ↔ q.IsBare := by
  cases q with
  | polynomial p =>
    exact ⟨fun ⟨⟨low, high⟩, top⟩ => ⟨low, high, top⟩, fun ⟨low, high, top⟩ => ⟨⟨low, high⟩, top⟩⟩
  | _ => exact Iff.rfl

theorem IsLevel.lettered (level : q.IsLevel) : Quantity.lettered.IsFlat q := by
  cases q with
  | fraction n d => exact ⟨lettered_side.mpr level.1, lettered_side.mpr level.2⟩
  | polynomial p => exact (lettered_side (q := polynomial p)).mpr level
  | _ => trivial

theorem IsCompact.of_lettered (result : lettered.IsResult q) : q.IsCompact := by
  obtain ⟨flat, normal, settled⟩ := result
  cases q with
  | polynomial p => exact ⟨(lettered_side (q := polynomial p)).mp flat, normal.2⟩
  | fraction n d =>
    refine ⟨⟨lettered_side.mp flat.1, lettered_side.mp flat.2⟩, fun first second => ?_⟩
    rw [isConstant_eq] at first second
    exact settled n d rfl first second
  | _ => trivial

/-- The simpler form of a side is compact, and a side still. -/
theorem bare_normalized (bare : q.IsBare) : q.normalized.IsCompact ∧ q.normalized.IsBare := by
  have simple := Vocabulary.simple_normalized (lettered_side.mpr bare)
  exact ⟨.of_lettered simple.result, lettered_side.mp simple.1⟩

/-- An operation on compact quantities gives a compact one. -/
theorem apply_compact (operation : Operation) (left : a.IsCompact) (right : b.IsCompact) :
    Yields (Offers IsCompact) (a.apply operation b) :=
  (Vocabulary.apply_offers operation left.level.lettered right.level.lettered).mono fun _ =>
    Offers.mono fun _ => IsCompact.of_lettered

theorem derivative_compact (level : q.IsLevel) (derived : q.derivative? = some d) : d.IsCompact :=
  .of_lettered (Vocabulary.derivative_result level.lettered derived)

end Quantity

end Stepwise
