import Stepwise.Proofs.Quantity.Normal
import Stepwise.Proofs.Tree.Wording

/-! The form of a quantity whose letters and arguments are those of a text, whatever its numbers
are. Main statement: what an operation gives is in its simplest form: a polynomial shows its letter,
and a fraction of two numbers is a fraction of whole numbers. -/
namespace Stepwise

def Argument.IsNamed : Argument → Prop
  | numeric _ => True
  | symbolic outline => ∃ x : Tree (Label Empty), outline.Displays x ∧ x.IsWorded

structure Polynomial.IsNamed (p : Polynomial) : Prop where
  low : 'a' ≤ p.letter
  high : p.letter ≤ 'z'
  top : 1 < p.coefficients.size → p.coefficients.back?.any (· == 0.0) = false

namespace Polynomial

variable {p : Polynomial}

theorem make_named (named : p.IsNamed) (coefficients : Array Float) :
    (make coefficients p.letter).IsNamed := by
  obtain ⟨letter, trimmed⟩ := make_isIn coefficients p.letter
  exact ⟨named.low.trans_eq letter.symm, letter.trans_le named.high, trimmed⟩

theorem monomial_named {letter : Char} (low : 'a' ≤ letter) (high : letter ≤ 'z') (x : Float) (power : Nat) :
    (monomial x power letter).IsNamed :=
  make_named (p := ⟨#[0.0], letter⟩) ⟨low, high, fun long => absurd long (by simp)⟩ _

end Polynomial

namespace Quantity

def IsNamed : Quantity → Prop
  | constant _ => True
  | polynomial p => p.IsNamed
  | trig t => t.argument.IsNamed
  | log t => t.argument.IsNamed
  | fraction n d => n.IsNamed ∧ d.IsNamed

structure IsSide (q : Quantity) : Prop where
  named : q.IsNamed
  whole : q.isFraction = false

structure IsSimple (q : Quantity) : Prop extends q.IsSide where
  proper : ∀ p, q = polynomial p → p.degree ≠ 0

def IsFlat : Quantity → Prop
  | fraction n d => n.IsSide ∧ d.IsSide
  | q => q.IsNamed

structure IsFraction (n d : Quantity) : Prop where
  top : n.IsSimple
  bottom : d.IsSimple
  nonzero : n.text ≠ "0"
  proper : d.text ≠ "1"
  numbers : n.value?.isSome → d.value?.isSome → ∃ x y, n = constant x ∧ d = constant y ∧ IsRatio x y

def IsReduced : Quantity → Prop
  | fraction n d => IsFraction n d
  | q => q.IsSimple

variable {a b n d q : Quantity}

def spoken : Vocabulary := ⟨fun letter => 'a' ≤ letter ∧ letter ≤ 'z', Argument.IsNamed⟩

theorem spoken_side : spoken.IsSide q ↔ q.IsSide := by
  cases q with
  | constant x => exact ⟨fun _ => ⟨trivial, rfl⟩, fun _ => trivial⟩
  | polynomial p =>
    exact ⟨fun ⟨⟨low, high⟩, top⟩ => ⟨⟨low, high, top⟩, rfl⟩, fun ⟨⟨low, high, top⟩, _⟩ =>
      ⟨⟨low, high⟩, top⟩⟩
  | trig t | log t => exact ⟨fun named => ⟨named, rfl⟩, IsSide.named⟩
  | fraction n d => exact ⟨False.elim, fun side => nomatch side.whole⟩

theorem IsFlat.spoken (flat : q.IsFlat) : Quantity.spoken.IsFlat q := by
  cases q with
  | fraction n d => exact ⟨spoken_side.mpr flat.1, spoken_side.mpr flat.2⟩
  | _ => exact spoken_side.mpr ⟨flat, rfl⟩

theorem IsSimple.of_spoken (simple : spoken.IsSimple q) : q.IsSimple := by
  refine ⟨spoken_side.mp simple.1, ?_⟩
  rintro p rfl
  exact simple.2.2

theorem IsReduced.of_spoken (result : spoken.IsResult q) : q.IsReduced := by
  obtain ⟨flat, normal, settled⟩ := result
  cases q with
  | fraction n d =>
    refine ⟨.of_spoken ⟨flat.1, normal.top⟩, .of_spoken ⟨flat.2, normal.bottom⟩, normal.nonzero,
      normal.proper, fun first second => ?_⟩
    cases settled n d rfl first second with
    | @ratio x y ratio => exact ⟨x, y, rfl, rfl, ratio⟩
  | _ => exact .of_spoken ⟨flat, normal⟩

theorem IsSimple.reduced (simple : q.IsSimple) : q.IsReduced := by
  cases q with
  | fraction n d => cases simple.whole
  | _ => exact simple

theorem IsReduced.flat (reduced : q.IsReduced) : q.IsFlat := by
  cases q with
  | fraction n d => exact ⟨reduced.top.toIsSide, reduced.bottom.toIsSide⟩
  | _ => exact reduced.named

theorem simple_constant (x : Float) : (constant x).IsSimple := ⟨⟨trivial, rfl⟩, (by simp)⟩

theorem side_polynomial {p : Polynomial} (named : p.IsNamed) : (polynomial p).IsSide := ⟨named, rfl⟩

theorem simple_normalized (side : q.IsSide) : q.normalized.IsSimple :=
  .of_spoken (Vocabulary.simple_normalized (spoken_side.mpr side))

/-- What an operation gives is in its simplest form. -/
theorem apply_offers (operation : Operation) (left : a.IsFlat) (right : b.IsFlat) :
    Yields (Offers IsReduced) (a.apply operation b) :=
  (Vocabulary.apply_offers operation left.spoken right.spoken).mono fun _ => Offers.mono fun _ =>
    IsReduced.of_spoken

theorem derivative_reduced (flat : q.IsFlat) (derived : q.derivative? = some d) : d.IsReduced :=
  .of_spoken (Vocabulary.derivative_result flat.spoken derived)

end Quantity

end Stepwise
