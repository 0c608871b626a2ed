import Stepwise.Proofs.Quantity.Polynomial
import Stepwise.Proofs.Tree.Arithmetic
import Stepwise.Proofs.Tree.Grammatical

/-! Expressions that expand to a polynomial. A tree of whole numbers and one letter under sums, differences,
products and powers with a whole number for an exponent stands for a polynomial with whole coefficients. -/
section

open Polynomial (C X)
open scoped Polynomial

namespace Stepwise

variable {ν : Type}

namespace Tree

noncomputable def expansion : Tree (Label ν) → ℤ[X]
  | leaf a => if a.token.kind = .letter then X else C (literal a.token.text)
  | group _ inner => inner.expansion
  | fork a left right =>
    match Operation.ofKind? a.token.kind with
    | some operation => operation.expand left.expansion right.expansion
    | none => 0

/-- Whole numbers and the letter `v` under signs and the operators `+`, `-`, `*` and `^`, where an exponent is
an expression that expands to a whole number of at most 32. -/
def Expandable (v : Char) : Tree (Label ν) → Prop
  | leaf a =>
    a.call = none ∧
      (a.token.kind = .number ∧ IsLiteral a.token.text ∨ a.token.kind = .letter ∧ a.token.text.toList = [v])
  | group _ _ => False
  | fork a left right =>
    a.call = none ∧ (∃ operation, Operation.ofKind? a.token.kind = some operation ∧
      operation.Expandable right.expansion) ∧
      left.Expandable v ∧ right.Expandable v

/-- The numbers on the leaves, and those that the operators meet when they expand their operands, are
represented without loss. -/
def ExpandsExactly : Tree (Label ν) → Prop
  | leaf a => a.token.kind = .number → Exact (literal a.token.text)
  | group _ inner => inner.ExpandsExactly
  | fork a left right =>
    left.ExpandsExactly ∧ right.ExpandsExactly ∧
      ∀ operation, Operation.ofKind? a.token.kind = some operation →
      operation.IsExact left.expansion right.expansion

end Tree

structure Label.Fresh (a : Label ν) : Prop where
  value : a.value = none
  reduced : a.reduced = false
  deferred : a.deferred = false
  unary : a.unary = true → a.token.kind = .plus ∨ a.token.kind = .minus

namespace Tree

def Fresh (x : Tree (Label ν)) : Prop := ∀ a ∈ x.flatten, a.Fresh

theorem fresh_fork {a : Label ν} {left right : Tree (Label ν)} :
    (fork a left right).Fresh ↔ a.Fresh ∧ left.Fresh ∧ right.Fresh := by
  simp [Fresh, flatten, or_imp, forall_and]

theorem Fresh.mapTop {x : Tree (Label ν)} (fresh : x.Fresh) {f : Label ν → Label ν}
    (kept : ∀ a, a.Fresh → (f a).Fresh) :
    (x.mapTop f).Fresh := by
  cases x with
  | leaf a => simpa [Fresh, flatten, Tree.mapTop] using kept a (fresh a (by simp [flatten]))
  | group a inner =>
    simp only [Fresh, flatten, List.forall_mem_cons, Tree.mapTop] at fresh ⊢
    exact ⟨kept a fresh.1, fresh.2⟩
  | fork a left right =>
    rw [fresh_fork] at fresh
    exact fresh_fork.mpr ⟨kept a fresh.1, fresh.2⟩

/-- A text denotes a fresh tree. -/
theorem Grammatical.fresh {x : Tree (Label ν)} (grammatical : x.Grammatical) : x.Fresh := by
  have plain (token : Token) : ({ token } : Label ν).Fresh := ⟨rfl, rfl, rfl, fun sign => by cases sign⟩
  have leaf_fresh (token : Token) : (leaf ({ token } : Label ν)).Fresh := by
    simpa [Fresh, flatten] using plain token
  induction grammatical with
  | number _ _ => exact leaf_fresh _
  | negative _ _ => exact leaf_fresh _
  | factorial _ _ _ => exact leaf_fresh _
  | power _ _ _ _ _ ih => exact fresh_fork.mpr ⟨plain _, leaf_fresh _, ih⟩
  | sign kind _ _ ih => exact fresh_fork.mpr ⟨⟨rfl, rfl, rfl, fun _ => kind⟩, leaf_fresh _, ih⟩
  | operator _ _ _ _ _ ihl ihr => exact fresh_fork.mpr ⟨plain _, ihl, ihr⟩
  | @call keyword x mark _ _ ih =>
    cases call : x.top.call with
    | none =>
      rw [applyCall_unmarked mark call]
      exact ih.mapTop fun a fresh => ⟨fresh.value, fresh.reduced, fresh.deferred, fresh.unary⟩
    | some _ =>
      rw [applyCall_marked mark (by simp [call])]
      simp only [Fresh, flatten, List.forall_mem_cons]
      exact ⟨⟨rfl, rfl, rfl, fun sign => by cases sign⟩, ih⟩

theorem expansion_fork {a : Label ν} {left right : Tree (Label ν)} {operation : Operation}
    (kind : Operation.ofKind? a.token.kind = some operation) :
    (fork a left right).expansion = operation.expand left.expansion right.expansion := by
  simp only [expansion, kind]

structure ExpandsTo (v : Char) (x : Tree (Label ν)) (f : ℤ[X]) : Prop where
  value : x.expansion = f
  expandable : x.Expandable v
  unrounded : x.ExpandsExactly

namespace ExpandsTo

variable {v : Char} {left right : Tree (Label ν)} {f g : ℤ[X]}

theorem operator {a : Label ν} {operation : Operation}
    (kind : Operation.ofKind? a.token.kind = some operation) (call : a.call = none)
    (l : left.ExpandsTo v f) (r : right.ExpandsTo v g) (expandable : operation.Expandable g)
    (unrounded : operation.IsExact f g) :
    (fork a left right).ExpandsTo v (operation.expand f g) where
  value := by rw [expansion_fork kind, l.value, r.value]
  expandable := ⟨call, ⟨operation, kind, r.value ▸ expandable⟩, l.expandable, r.expandable⟩
  unrounded := ⟨l.unrounded, r.unrounded, fun other same => by
    obtain rfl := Option.some.inj (kind.symm.trans same)
    rwa [l.value, r.value]⟩

theorem number {token : Token} {n : Int} (kind : token.kind = .number) (isLiteral : IsLiteral token.text)
    (value : literal token.text = n) (small : Exact n) : (leaf ({ token } : Label ν)).ExpandsTo v (C n) where
  value := by rw [expansion, if_neg (by simp [kind]), value]
  expandable := ⟨rfl, .inl ⟨kind, isLiteral⟩⟩
  unrounded _ := by rwa [value]

theorem letter {token : Token} (kind : token.kind = .letter) (named : token.text.toList = [v]) :
    (leaf ({ token } : Label ν)).ExpandsTo v X where
  value := by rw [expansion, if_pos kind]
  expandable := ⟨rfl, .inr ⟨kind, named⟩⟩
  unrounded same := by simp [kind] at same

end ExpandsTo

theorem isLiteral_digit {text : String} (c : Char) (single : text.toList = [c])
    (digit : c.isDigit) : IsLiteral text :=
  ⟨[c], by simp, by simpa using digit, .inl single⟩

/-- A power of a letter as it is read, with the coefficient that is put in. -/
def lettered (letter caret exponent : Token) : Tree (Label ν) :=
  fork { token := .inserted .times "*" } (leaf { token := .inserted .number "1" })
    (fork { token := caret } (leaf { token := letter }) (leaf { token := exponent }))

/-- A letter with a coefficient and a written exponent is the monomial that it expands to. -/
theorem monomial_expandsTo {coefficient letter caret exponent : Token} {v : Char} {m : Int}
    {n : Nat} (factor : (leaf ({ token := coefficient } : Label ν)).ExpandsTo v (C m))
    (unrounded : Exact m) (isLetter : letter.kind = .letter)
    (named : letter.text.toList = [v]) (isCaret : caret.kind = .power)
    (height : (leaf ({ token := exponent } : Label ν)).ExpandsTo v (C (n : Int)))
    (small : n ≤ maxPolynomialPower) :
    (fork ({ token := .inserted .times "*" } : Label ν) (leaf { token := coefficient })
      (fork { token := caret } (leaf { token := letter }) (leaf { token := exponent }))).ExpandsTo v
      (C m * X ^ n) := by
  have power : Operation.ofKind? caret.kind = some .power := by rw [isCaret]; rfl
  have inner : (fork ({ token := caret } : Label ν) (leaf { token := letter })
      (leaf { token := exponent })).ExpandsTo v (X ^ n) := by
    have same : Operation.power.expand X (C (n : Int)) = X ^ n := by simp [Operation.expand]
    rw [← same]
    refine .operator power rfl (.letter isLetter named) height ⟨n, small, rfl⟩ fun k same => ?_
    obtain rfl : n = k := by exact_mod_cast Polynomial.C_injective same
    exact exactPower_X small
  have times : Operation.ofKind? ({ token := .inserted .times "*" } : Label ν).token.kind =
    some .multiply := rfl
  refine .operator times rfl factor inner trivial ?_
  refine exactProduct_of_small (d := 0) (a := m.natAbs) (b := 1) (by simp) (fun i => ?_)
    (fun i => ?_) (by simpa [Exact] using unrounded)
  · rw [Polynomial.coeff_C]
    split
    · exact Nat.le_refl _
    · exact Nat.zero_le _
  · rw [Polynomial.coeff_X_pow]
    split <;> decide

/-- A letter with a written exponent is the power that it expands to. -/
theorem lettered_expandsTo {letter caret exponent : Token}
    {v : Char} {n : Nat} (isLetter : letter.kind = .letter) (named : letter.text.toList = [v])
    (isCaret : caret.kind = .power) (number : exponent.kind = .number)
    (isLiteral : IsLiteral exponent.text) (value : literal exponent.text = n)
    (small : n ≤ maxPolynomialPower) :
    (lettered (ν := ν) letter caret exponent).ExpandsTo v (X ^ n) := by
  have unit : (leaf ({ token := .inserted .number "1" } : Label ν)).ExpandsTo v (C 1) :=
    .number rfl (isLiteral_digit '1' (by simp [Token.inserted]) rfl) rfl (by decide)
  have height : (leaf ({ token := exponent } : Label ν)).ExpandsTo v (C (n : Int)) :=
    .number number isLiteral value (Nat.lt_of_le_of_lt small (by decide))
  have whole := monomial_expandsTo unit (by decide) isLetter named isCaret height small
  rwa [Polynomial.C_1, one_mul] at whole

end Tree

end Stepwise

end
