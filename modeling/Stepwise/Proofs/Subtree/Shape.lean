import Stepwise.Proofs.Subtree.Copy

/-! The comparison of two subtrees of any form. Main statements: it answers as recursion over the
two trees does, so it is an equivalence, and a copy compares equal to what it was copied from unless
a keyword stands at the root. -/
namespace Stepwise

def Label.spelling {ν : Type} (a : Label ν) : String × Option String := (a.token.text, a.call.map Token.text)

namespace Expression

open Loop (Leads Ends)

variable {ν μ κ : Type}

def Matches (e : Expression ν) (f : Expression μ) : BinaryTree NodeId → BinaryTree NodeId → Prop
  | .nil, .nil => True
  | .node a left right, .node b left' right' =>
    (e.node a).token.text = (f.node b).token.text ∧
      (e.node a).call.map Token.text = (f.node b).call.map Token.text ∧
      Matches e f left left' ∧ Matches e f right right'
  | .nil, .node .. | .node .., .nil => False

variable {e : Expression ν} {f : Expression μ} {g : Expression κ} {t s r : BinaryTree NodeId}

theorem matches_iff :
    Matches e f t s ↔ (e.labels t).map Label.spelling = (f.labels s).map Label.spelling := by
  induction t generalizing s with
  | nil =>
    cases s with
    | nil => exact iff_of_true trivial rfl
    | node b left' right' => exact iff_of_false not_false nofun
  | node a left right ihl ihr =>
    cases s with
    | nil => exact iff_of_false not_false nofun
    | node b left' right' =>
      simp only [Matches, labels_node, BinaryTree.map, BinaryTree.node.injEq, ihl, ihr,
        Label.spelling, Prod.mk.injEq, and_assoc]
      rfl

theorem sameLabel_iff {a : Node ν} {b : Node μ} :
    sameLabel a b ↔ a.token.text = b.token.text ∧ a.call.map Token.text = b.call.map Token.text := by
  simp [sameLabel]

section Comparing

variable {id other : NodeId} {left right left' right' : BinaryTree NodeId}

theorem sameShapeStep_node (joins : e.Joins (.node id left right))
    (joins' : f.Joins (.node other left' right')) (same : sameLabel (e.node id) (f.node other))
    (stack : List (Option NodeId × Option NodeId)) :
    e.sameShapeStep f ((some id, some other) :: stack) =
      .more ((right.root?, right'.root?) :: (left.root?, left'.root?) :: stack) := by
  simp [sameShapeStep, same, joins.1, joins.2.1, joins'.1, joins'.2.1]

theorem sameShapeStep_differing (differing : ¬ sameLabel (e.node id) (f.node other))
    (stack : List (Option NodeId × Option NodeId)) :
    e.sameShapeStep f ((some id, some other) :: stack) = .done false := by
  simp [sameShapeStep, differing]

/-- The walk passes over subtrees that match. -/
theorem leads_matching (joins : e.Joins t) (joins' : f.Joins s) (same : Matches e f t s)
    (stack : List (Option NodeId × Option NodeId)) :
    Leads (e.sameShapeStep f) (2 * t.numNodes + 1) ((t.root?, s.root?) :: stack) stack := by
  induction t generalizing s stack with
  | nil =>
    cases s with
    | nil => exact .once rfl
    | node b left' right' => cases same
  | node a left right ihl ihr =>
    cases s with
    | nil => cases same
    | node b left' right' =>
      obtain ⟨text, call, lefts, rights⟩ := same
      have rightwards := ihr joins.2.2.2 joins'.2.2.2 rights ((left.root?, left'.root?) :: stack)
      have leftwards := ihl joins.2.2.1 joins'.2.2.1 lefts stack
      have steps : 2 * (BinaryTree.node a left right).numNodes + 1 =
          2 * right.numNodes + 1 + (2 * left.numNodes + 1) + 1 := by
        simp only [BinaryTree.numNodes]
        omega
      rw [steps]
      exact .later (sameShapeStep_node joins joins' (sameLabel_iff.mpr ⟨text, call⟩) stack)
        (rightwards.trans leftwards)

/-- The walk ends where two subtrees differ. -/
theorem ends_differing (joins : e.Joins t) (joins' : f.Joins s) (differing : ¬ Matches e f t s)
    (stack : List (Option NodeId × Option NodeId)) :
    ∃ n, n ≤ 2 * t.numNodes + 1 ∧ Ends (e.sameShapeStep f) n ((t.root?, s.root?) :: stack) false := by
  induction t generalizing s stack with
  | nil =>
    cases s with
    | nil => exact absurd trivial differing
    | node b left' right' => exact ⟨1, by simp, .now rfl⟩
  | node a left right ihl ihr =>
    cases s with
    | nil => exact ⟨1, by simp, .now rfl⟩
    | node b left' right' =>
      by_cases label : sameLabel (e.node a) (f.node b)
      · have first := sameShapeStep_node joins joins' label stack
        by_cases rights : Matches e f right right'
        · have lefts : ¬ Matches e f left left' := fun lefts =>
            differing ⟨(sameLabel_iff.mp label).1, (sameLabel_iff.mp label).2, lefts, rights⟩
          obtain ⟨n, few, ended⟩ := ihl joins.2.2.1 joins'.2.2.1 lefts stack
          have passed := leads_matching joins.2.2.2 joins'.2.2.2 rights ((left.root?, left'.root?) :: stack)
          exact ⟨_, by simp only [BinaryTree.numNodes]; omega, .later first (passed.trans_ends ended)⟩
        · obtain ⟨n, few, ended⟩ := ihr joins.2.2.2 joins'.2.2.2 rights ((left.root?, left'.root?) :: stack)
          exact ⟨_, by simp only [BinaryTree.numNodes]; omega, .later first ended⟩
      · exact ⟨1, by simp, .now (sameShapeStep_differing label stack)⟩

end Comparing

variable {a b c : NodeId}

/-- The comparison answers as recursion does. -/
theorem sameShape_iff (first : e.HasSubtree a t) (second : f.HasSubtree b s) :
    e.sameShape a f b ↔ Matches e f t s := by
  have room {n : Nat} (few : n ≤ 2 * t.numNodes + 2) : n < Nat.pow 2 (e.budget + 1) := by
    have pos := first.numNodes_pos
    have fits := first.steps_lt (n := n) (by omega)
    simp only [Nat.pow_eq, Nat.pow_succ] at fits ⊢
    omega
  rw [sameShape, ← first.top, ← second.top]
  constructor
  · intro answer
    by_contra differing
    obtain ⟨n, few, ended⟩ := ends_differing first.joins second.joins differing []
    rw [Loop.run_of_ends ended (room (by omega))] at answer
    cases answer
  · intro same
    rw [Loop.run_of_leads (leads_matching first.joins second.joins same []) rfl (room (Nat.le_refl _))]
    rfl

/-- A copy lacks the keyword of its root and no other. -/
theorem HasSubtree.matches_extract (subtree : e.HasSubtree a t) :
    Matches (e.extract a) e (t.numbered 0) t ↔ (e.node a).call = none := by
  have kept : Label.spelling ∘ Label.copy = (Label.spelling : Label ν → String × Option String) := rfl
  rw [matches_iff, subtree.extract_laid.2.2.2, ← BinaryTree.comp_map, kept]
  cases t with
  | nil => cases subtree.top
  | node own left right =>
    obtain rfl : own = a := Option.some.inj subtree.top
    simp [labels_node, BinaryTree.mapRoot, BinaryTree.map, Label.spelling, Node.label, eq_comm]

/-- A copy of a subtree of any form hangs together as the subtree does. Comparing subtrees is an
equivalence, answers as recursion does, and tells a copy from its original by a keyword at the root
alone. -/
theorem extract_sameShape (first : e.HasSubtree a t) (second : f.HasSubtree b s) (third : g.HasSubtree c r) :
    IsCopy e a t (e.extract a) ∧ ((e.extract a).sameShape (e.extract a).root e a ↔ (e.node a).call = none) ∧
      (e.sameShape a f b ↔ Matches e f t s) ∧ e.sameShape a e a ∧ (e.sameShape a f b → f.sameShape b e a) ∧
      (e.sameShape a f b → f.sameShape b g c → e.sameShape a g c) := by
  refine ⟨first.isCopy_extract, ?_, sameShape_iff first second, ?_, ?_, ?_⟩
  · rw [first.isCopy_extract.root, sameShape_iff first.extract_hasSubtree first]
    exact first.matches_extract
  · rw [sameShape_iff first first, matches_iff]
  · rw [sameShape_iff first second, sameShape_iff second first, matches_iff, matches_iff]
    exact Eq.symm
  · rw [sameShape_iff first second, sameShape_iff second third, sameShape_iff first third, matches_iff,
      matches_iff, matches_iff]
    exact Eq.trans

/-- The sine in `sin(x)+-y` and its copy differ by the keyword, and the whole sum has no keyword to lose. -/
theorem extract_sameShape_sine :
    let e : Outline := ⟨#[{ token := ⟨.letter, "x", some 4⟩ }, { token := ⟨.number, "1", some 0⟩ },
      { token := ⟨.plus, "+", some 6⟩, left := some 3, right := some 4 },
      { token := ⟨.opening, "(", some 3⟩, left := some 0, call := some ⟨.trig, "sin", some 0⟩ },
      { token := ⟨.minus, "-", some 7⟩, right := some 5, unary := true },
      { token := ⟨.letter, "y", some 8⟩ }], 2⟩
    let sine := BinaryTree.node 3 (.node 0 .nil .nil) .nil
    let sum := BinaryTree.node 2 sine (.node 4 .nil (.node 5 .nil .nil))
    e.HasSubtree 2 sum ∧ e.HasSubtree 3 sine ∧ IsCopy e 2 sum (e.extract 2) ∧
      (e.extract 2).sameShape (e.extract 2).root e 2 ∧ ¬ (e.extract 3).sameShape (e.extract 3).root e 3 ∧
      ¬ e.sameShape 2 e 3 ∧ e.sameShape 3 e 3 := by
  intro e sine sum
  have whole : e.HasSubtree 2 sum := by decide +kernel
  have part : e.HasSubtree 3 sine := by decide +kernel
  obtain ⟨copied, alike, matching, -⟩ := extract_sameShape whole part whole
  obtain ⟨-, alike', -, same, -⟩ := extract_sameShape part whole part
  have bare : (e.node 2).call = none := rfl
  have marked : (e.node 3).call ≠ none := by decide
  have differing : ¬ Matches e e sum sine := fun same => absurd same.1 (by decide)
  exact ⟨whole, part, copied, alike.mpr bare, mt alike'.mp marked, mt matching.mp differing, same⟩

end Expression

end Stepwise
