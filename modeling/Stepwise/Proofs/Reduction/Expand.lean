import Stepwise.Proofs.Reduction.Rational
import Stepwise.Proofs.Tree.Expansion

/-! Expressions are expanded. Main statement: an expandable tree is prepared to a tree that stands
for its expansion, and so does every reduct of it. -/
section

open Polynomial (C X)
open scoped Polynomial

namespace Stepwise

open Decimal (IsWhole)

namespace Tree

/-- The tree is a whole number, a polynomial in the letter or an operator over such trees, and expands to
the polynomial. No operator is settled, and nothing is deferred. -/
inductive Expands (v : Char) : Tree Mark → ℤ[X] → Prop
  | value {a : Mark} {q : Quantity} {f : ℤ[X]} (call : a.call = none) (deferred : a.deferred = false)
      (value : a.value = some q) (expands : q.Expands v f) : Expands v (leaf a) f
  | operator {a : Mark} {left right : Tree Mark} {operation : Operation} {f g : ℤ[X]} (call : a.call = none)
      (reduced : a.reduced = false) (deferred : a.deferred = false)
      (kind : Operation.ofKind? a.token.kind = some operation) (l : Expands v left f) (r : Expands v right g)
      (expandable : operation.Expandable g) (unrounded : operation.IsExact f g) :
      Expands v (fork a left right) (operation.expand f g)

namespace Expands

variable {v : Char} {x : Tree Mark} {f : ℤ[X]}

/-- Only a value is at rest. -/
theorem of_idle (expands : Expands v x f) (idle : x.Idle) :
    ∃ a q, x = leaf a ∧ a.call = none ∧ a.deferred = false ∧ a.value = some q ∧ q.Expands v f := by
  cases expands with
  | value call deferred value expands => exact ⟨_, _, rfl, call, deferred, value, expands⟩
  | operator call reduced deferred kind l r expandable unrounded =>
    have pending := (idle_fork.mp idle).2.2
    simp [Tree.isPending, isLeaf, Label.isSettled, reduced, deferred] at pending

/-- A value is not reduced. -/
theorem still {a : Mark} (expands : Expands v (leaf a) f) : (leaf a).step? = none := by
  cases expands with
  | value call deferred value expands => simp [step?, Tree.isPending, isLeaf, Label.isDerivative, call]

/-- An operator over values becomes a value. -/
theorem reduceTop {a b c : Mark} {operation : Operation}
    {g : ℤ[X]} (call : a.call = none) (kind : Operation.ofKind? a.token.kind = some operation)
    (l : Expands v (leaf b) f) (r : Expands v (leaf c) g) (expandable : operation.Expandable g)
    (unrounded : operation.IsExact f g) :
    ∃ d, (fork a (leaf b) (leaf c)).reduceTop = .ok (leaf d) ∧ Expands v (leaf d) (operation.expand f g) := by
  cases l with
  | @value _ p _ _ _ value left =>
    cases r with
    | @value _ q _ _ _ value' right =>
      obtain ⟨u, applied, expands⟩ := Quantity.apply_expands left right expandable unrounded
      have equation : a.token.kind ≠ .equals := fun equals => by simp [equals, Operation.ofKind?] at kind
      have plain : settled a u = leaf (a.collapse u) := by
        simp [settled, Label.termKeyword?, Label.isDerivative, call]
      refine ⟨a.collapse u, ?_, .value call rfl rfl expands⟩
      simp only [Tree.reduceTop, isLeaf, Bool.false_eq_true, if_false, top_fork, equation,
        combination, operands, top_leaf, kind, value, value', applied, plain]

/-- A reduction goes on to a tree with the same expansion. -/
theorem step (expands : Expands v x f) {result : Except ComputationError (Tree Mark)}
    (stepped : x.step? = some result) :
    ∃ y, result = .ok y ∧ Expands v y f := by
  induction expands generalizing result with
  | value call deferred value expands =>
    rw [still (.value call deferred value expands)] at stepped
    cases stepped
  | @operator a left right operation f g call reduced deferred kind l r expandable unrounded ihl ihr =>
    rcases step_fork_cases stepped with ⟨next, here, rfl⟩ | ⟨next, here, rfl⟩ | ⟨first, second, pending, rfl⟩
    · obtain ⟨y, rfl, kept⟩ := ihl here
      exact ⟨_, rfl, .operator call reduced deferred kind kept r expandable unrounded⟩
    · obtain ⟨y, rfl, kept⟩ := ihr here
      exact ⟨_, rfl, .operator call reduced deferred kind l kept expandable unrounded⟩
    · obtain ⟨b, p, rfl, _⟩ := l.of_idle first
      obtain ⟨c, q, rfl, _⟩ := r.of_idle second
      obtain ⟨d, reduced, expands⟩ := reduceTop call kind l r expandable unrounded
      exact ⟨_, reduced, expands⟩

end Expands

/-- An operator that a move puts in. -/
theorem inserted_expands (operation : Operation) {v : Char} {kind : Token.Kind} {text : String}
    {left right : Tree Mark} {f g : ℤ[X]} (isKind : Operation.ofKind? kind = some operation)
    (l : left.Expands v f) (r : right.Expands v g) (expandable : operation.Expandable g)
    (unrounded : operation.IsExact f g) :
    (fork { token := .inserted kind text } left right).Expands v (operation.expand f g) :=
  .operator rfl rfl rfl isKind l r expandable unrounded

theorem value_expands {v : Char} {q : Quantity} {f : ℤ[X]} (expands : q.Expands v f) :
    (value q).Expands v f :=
  .value rfl rfl rfl expands

namespace Expandable

variable {v : Char} {x : Tree Mark}

theorem foldFactorials (expandable : x.Expandable v) : x.foldFactorials = (x, .ok ()) := by
  induction x with
  | leaf a =>
    have kind : a.token.kind ≠ .factorial := by
      rcases expandable.2 with ⟨kind, _⟩ | ⟨kind, _⟩ <;> simp [kind]
    simp [Tree.foldFactorials, kind]
  | group a inner ih => exact expandable.elim
  | fork a left right ihl ihr =>
    obtain ⟨_, _, l, r⟩ := expandable
    simp [Tree.foldFactorials, ihl l, ihr r]

theorem numberLeaf (expandable : x.Expandable v) (unrounded : x.ExpandsExactly) {c : Float}
    (found : x.numberLeaf? = some c) :
    ∃ n, x.expansion = C n ∧ IsWhole c n := by
  cases x with
  | leaf a =>
    simp only [numberLeaf?] at found
    split at found
    · next number =>
      have other : a.token.kind ≠ .letter := by simp [number.1]
      rcases expandable.2 with ⟨kind, isLiteral⟩ | ⟨kind, _⟩
      · obtain ⟨y, read, whole⟩ := isLiteral.read (unrounded kind)
        obtain rfl := Option.some.inj (read.symm.trans found)
        exact ⟨_, by rw [expansion, if_neg other], whole⟩
      · exact absurd kind other
    · cases found
  | group a inner => cases found
  | fork a left right => cases found

theorem letterLeaf (expandable : x.Expandable v) {letter : Char} (found : x.letterLeaf? = some letter) :
    letter = v ∧ x.expansion = X := by
  cases x with
  | leaf a =>
    simp only [letterLeaf?] at found
    split at found
    · next named =>
      rcases expandable.2 with ⟨kind, _⟩ | ⟨_, text⟩
      · simp [named.1] at kind
      · rw [text] at found
        exact ⟨(Option.some.inj found).symm, by rw [expansion, if_pos named.1]⟩
    · cases found
  | group a inner => cases found
  | fork a left right => cases found

/-- A product that is recognized is the monomial that it expands to. -/
theorem monomial (expandable : x.Expandable v) (unrounded : x.ExpandsExactly) {q : Quantity}
    (found : x.monomial? = some q) :
    q.Expands v x.expansion := by
  unfold monomial? at found
  split at found
  · next a left b base exponent =>
    split at found
    · cases found
    · next times =>
      obtain ⟨c, number, found⟩ := Option.bind_eq_some_iff.mp found
      split at found
      · cases found
      · next power =>
        simp only [not_or, not_not] at times power
        obtain ⟨letter, named, found⟩ := Option.bind_eq_some_iff.mp found
        obtain ⟨k, whole, rfl⟩ := Option.map_eq_some_iff.mp found
        obtain ⟨y, number', whole⟩ := Option.bind_eq_some_iff.mp whole
        obtain ⟨_, _, l, _, _, lb, le⟩ := expandable
        obtain ⟨exactl, ⟨_, exacte, _⟩, _⟩ := unrounded
        obtain ⟨n, coefficient, factor⟩ := l.numberLeaf exactl number
        obtain ⟨rfl, baseEq⟩ := lb.letterLeaf named
        obtain ⟨j, degree, height⟩ := le.numberLeaf exacte number'
        have same : j.toNat = k := by
          rw [polynomialPower?, height.toWhole, Option.bind_some] at whole
          split at whole
          · exact Option.some.inj whole
          · cases whole
        have value : (fork a left (fork b base exponent)).expansion = C n * X ^ k := by
          have product : Operation.ofKind? a.token.kind = some .multiply := by rw [times.1]; rfl
          have height : Operation.ofKind? b.token.kind = some .power := by rw [power]; rfl
          rw [expansion_fork product, expansion_fork height, coefficient, baseEq, degree]
          simp only [Operation.expand, Polynomial.coeff_C_zero, same]
        obtain ⟨spells, letter⟩ := Polynomial.monomial_spells factor k letter
        rw [value]
        exact Quantity.expands_normalized spells letter
  · cases found

theorem recognized (expandable : x.Expandable v) (unrounded : x.ExpandsExactly) {q : Quantity}
    (found : x.recognized? = some q) :
    q.Expands v x.expansion := by
  unfold recognized? at found
  split at found
  · next term same =>
    obtain rfl := Option.some.inj found
    exact expandable.monomial unrounded same
  · split at found
    · next named =>
      obtain ⟨letter, text, rfl⟩ := Option.map_eq_some_iff.mp found
      cases x with
      | leaf a =>
        have bare : (leaf a).letterLeaf? = some letter := by
          rw [letterLeaf?, if_pos ⟨named.2, by simp [expandable.1]⟩]
          exact text
        obtain ⟨rfl, value⟩ := expandable.letterLeaf bare
        have bare := Quantity.monomial_expands IsWhole.one Int.one_ne_zero letter
        rw [Polynomial.C_1, one_mul] at bare
        rwa [value]
      | group a inner => simp [isLeaf] at named
      | fork a left right => simp [isLeaf] at named
    · cases found

/-- A prepared tree has the expansion of the tree that was written. -/
theorem attachQuantities (expandable : x.Expandable v) (unrounded : x.ExpandsExactly) (fresh : x.Fresh) :
    x.recognize.attachQuantities.Expands v x.expansion := by
  have term {a : Mark} (call : a.call = none) {q : Quantity} {f : ℤ[X]} (expands : q.Expands v f) :
      (leaf (a.collapse q)).attachQuantities.Expands v f := by
    have number : (a.collapse q).attachNumber = a.collapse q := rfl
    rw [Tree.attachQuantities, number, attachCall_unmarked (x := leaf (a.collapse q)) call]
    exact .value (a := a.collapse q) call rfl rfl expands
  induction x with
  | leaf a =>
    rw [recognize]
    cases found : (leaf a).recognized? with
    | some q => exact term expandable.1 (expandable.recognized unrounded found)
    | none =>
      rcases expandable.2 with ⟨kind, isLiteral⟩ | ⟨kind, text⟩
      · have other : a.token.kind ≠ .letter := by simp [kind]
        obtain ⟨y, read, whole⟩ := isLiteral.read (unrounded kind)
        have number : a.attachNumber = a.collapse (.constant y) := by
          simp [Label.attachNumber, (fresh a (List.mem_singleton.mpr rfl)).value, kind, read]
        simp only
        rw [Tree.attachQuantities, number, attachCall_unmarked (x := leaf (a.collapse _)) expandable.1,
          expansion, if_neg other]
        exact .value (a := a.collapse _) expandable.1 rfl rfl (.whole whole rfl)
      · simp [recognized?, monomial?, isLeaf, kind, text] at found
  | group a inner ih => exact expandable.elim
  | fork a left right ihl ihr =>
    rw [recognize]
    cases found : (fork a left right).recognized? with
    | some q => exact term expandable.1 (expandable.recognized unrounded found)
    | none =>
      obtain ⟨call, ⟨operation, kind, able⟩, l, r⟩ := expandable
      obtain ⟨exactl, exactr, unrounded⟩ := unrounded
      obtain ⟨plain, freshl, freshr⟩ := fresh_fork.mp fresh
      simp only
      rw [Tree.attachQuantities, attachCall_unmarked (x := fork a left.recognize right.recognize) call,
        expansion_fork kind]
      exact .operator call plain.reduced plain.deferred kind (ihl l exactl freshl) (ihr r exactr freshr) able
        (unrounded operation kind)

end Expandable

end Tree

end Stepwise

end
