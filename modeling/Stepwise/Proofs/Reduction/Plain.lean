import Stepwise.Proofs.Reduction.Again
import Stepwise.Proofs.Tree.Expansion

/-! What a text without keywords is prepared to. Main statement: where no keyword stands, a prepared tree has
numbers and polynomials only. -/
namespace Stepwise

def Quantity.IsPlain : Quantity → Prop
  | constant _ | polynomial _ => True
  | _ => False

def Label.IsPlain (a : Mark) : Prop := a.call = none → ∀ q ∈ a.value, q.IsPlain

namespace Tree

def Plain (x : Tree Mark) : Prop := ∀ a ∈ x.flatten, a.IsPlain

theorem plain_leaf {a : Mark} : (leaf a).Plain ↔ a.IsPlain := by simp [Plain, flatten]

theorem plain_group {a : Mark} {inner : Tree Mark} : (group a inner).Plain ↔ a.IsPlain ∧ inner.Plain := by
  simp [Plain, flatten]

theorem plain_fork {a : Mark} {left right : Tree Mark} :
    (fork a left right).Plain ↔ a.IsPlain ∧ left.Plain ∧ right.Plain := by
  simp [Plain, flatten, or_imp, forall_and]

theorem isPlain_collapse {a : Mark} {q : Quantity} (plain : q.IsPlain) : (a.collapse q).IsPlain :=
  fun _ r settled => by
  obtain rfl : q = r := Option.some.inj settled
  exact plain

theorem isPlain_normalized (p : Polynomial) : (Quantity.polynomial p).normalized.IsPlain := by
  unfold Quantity.normalized
  split <;> trivial

theorem isPlain_monomial {x : Tree Mark} {q : Quantity} (found : x.monomial? = some q) : q.IsPlain := by
  cases x with
  | leaf a => simp [monomial?] at found
  | group a inner => simp [monomial?] at found
  | fork a left right =>
    cases right with
    | leaf b => simp [monomial?] at found
    | group b inner => simp [monomial?] at found
    | fork b base exponent =>
      simp only [monomial?] at found
      split at found
      · cases found
      · obtain ⟨coefficient, _, found⟩ := Option.bind_eq_some_iff.mp found
        split at found
        · cases found
        · obtain ⟨letter, _, found⟩ := Option.bind_eq_some_iff.mp found
          obtain ⟨power, _, rfl⟩ := Option.map_eq_some_iff.mp found
          exact isPlain_normalized _

theorem isPlain_recognized {x : Tree Mark} {q : Quantity} (found : x.recognized? = some q) : q.IsPlain := by
  unfold recognized? at found
  split at found
  · next term monomial =>
    obtain rfl := Option.some.inj found
    exact isPlain_monomial monomial
  · split at found
    · obtain ⟨letter, _, rfl⟩ := Option.map_eq_some_iff.mp found
      trivial
    · cases found

theorem plain_foldFactorials {x : Tree Mark} (plain : x.Plain) : x.foldFactorials.1.Plain := by
  induction x with
  | leaf a =>
    unfold foldFactorials
    split
    · split
      · exact plain_leaf.mpr (isPlain_collapse trivial)
      · exact plain
    · exact plain
  | group a inner ih => exact plain_group.mpr ⟨(plain_group.mp plain).1, ih (plain_group.mp plain).2⟩
  | fork a left right ihl ihr =>
    obtain ⟨top, plainl, plainr⟩ := plain_fork.mp plain
    have first := ihl plainl
    unfold foldFactorials
    split
    · next y error folded =>
      rw [folded] at first
      exact plain_fork.mpr ⟨top, first, plainr⟩
    · next y folded =>
      rw [folded] at first
      exact plain_fork.mpr ⟨top, first, ihr plainr⟩

theorem plain_recognize {x : Tree Mark} (plain : x.Plain) : x.recognize.Plain := by
  induction x with
  | leaf a =>
    unfold recognize
    split
    · next found => exact plain_leaf.mpr (isPlain_collapse (isPlain_recognized found))
    · exact plain
  | group a inner ih => exact plain_group.mpr ⟨(plain_group.mp plain).1, ih (plain_group.mp plain).2⟩
  | fork a left right ihl ihr =>
    obtain ⟨top, plainl, plainr⟩ := plain_fork.mp plain
    unfold recognize
    split
    · next found => exact plain_leaf.mpr (isPlain_collapse (isPlain_recognized found))
    · exact plain_fork.mpr ⟨top, ihl plainl, ihr plainr⟩

theorem isPlain_attachNumber {a : Mark} (plain : a.IsPlain) : a.attachNumber.IsPlain := by
  unfold Label.attachNumber
  split
  · split
    · exact isPlain_collapse trivial
    · exact plain
  · exact plain

/-- Only a node with a keyword gets a term. -/
theorem isPlain_attachCall {x : Tree Mark} (plain : x.top.IsPlain) : x.attachCall.IsPlain := by
  unfold attachCall
  cases keyword : x.top.termKeyword? with
  | some name =>
    simp only
    split
    · exact plain
    · intro call
      simp [Label.termKeyword?, show x.top.call = none from call] at keyword
  | none =>
    simp only
    split
    · exact plain
    · exact plain

theorem plain_attachQuantities {x : Tree Mark} (plain : x.Plain) : x.attachQuantities.Plain := by
  induction x with
  | leaf a => exact plain_leaf.mpr (isPlain_attachCall (isPlain_attachNumber (plain_leaf.mp plain)))
  | group a inner ih =>
    obtain ⟨top, plain⟩ := plain_group.mp plain
    exact plain_group.mpr ⟨isPlain_attachCall top, ih plain⟩
  | fork a left right ihl ihr =>
    obtain ⟨top, plainl, plainr⟩ := plain_fork.mp plain
    exact plain_fork.mpr ⟨isPlain_attachCall top, ihl plainl, ihr plainr⟩

theorem plain_prepare {x : Tree Mark} (fresh : x.Fresh) : x.prepare.1.Plain := by
  have plain : x.Plain := fun a member _ q settled => by simp [(fresh a member).value] at settled
  unfold prepare
  have folded := plain_foldFactorials plain
  split
  · next y done =>
    rw [done] at folded
    exact plain_attachQuantities (plain_recognize folded)
  · exact folded

end Tree

namespace Formula

theorem displays_prepared {text : String} {source e : Formula}
    (parsed : Expression.ofText text = .ok source) (prepared : prepare source = (e, .ok ()))
    {x : Tree Mark} (displays : e.Displays x) : x.Formed ∧ x.Plain := by
  obtain ⟨y, built, shown, formed⟩ := displays_of_parsed parsed
  obtain ⟨shown', done⟩ := prepare_eq shown formed
  rw [prepared] at shown' done
  obtain rfl := displays.unique shown'
  have plain := Tree.plain_prepare (Tree.ofText_grammatical built).fresh
  exact ⟨(Tree.prepare_prepared formed (Prod.ext rfl done.symm)).formed, plain⟩

end Formula

end Stepwise
