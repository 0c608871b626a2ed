import Stepwise.Formula.Reduce
import Stepwise.Proofs.Subtree.Basic

/-! The search for the node that is reduced next. Main statement: it finds a node unless none is
pending, and of the pending nodes it finds the deepest, the last from left to right when there are
several. -/
namespace Stepwise.Formula

open Loop (Leads)

variable {e : Formula} {best : Option (NodeId × Nat)} {found last : NodeId × Nat}
  {before after passed : List (NodeId × Nat)}

/-- The best node once some nodes are passed, each with its depth. -/
def survey (e : Formula) (best : Option (NodeId × Nat)) (passed : List (NodeId × Nat)) :
    Option (NodeId × Nat) :=
  passed.foldl (fun best entry => Search.better e best entry.1 entry.2) best

@[simp] theorem survey_nil (e : Formula) (best : Option (NodeId × Nat)) : survey e best [] = best := rfl

theorem survey_append (e : Formula) (best : Option (NodeId × Nat)) (front back : List (NodeId × Nat)) :
    survey e best (front ++ back) = survey e (survey e best front) back := List.foldl_append

theorem survey_cons (e : Formula) (best : Option (NodeId × Nat)) (id : NodeId) (depth : Nat)
    (later : List (NodeId × Nat)) :
    survey e best ((id, depth) :: later) = survey e (Search.better e best id depth) later := rfl

/-- The search passes the nodes of a subtree from left to right. -/
theorem leads_search {t : BinaryTree NodeId} (joins : e.Joins t) (depth : Nat) (stack : List (NodeId × Nat))
    (best : Option (NodeId × Nat)) : Leads e.searchStep (2 * t.numNodes) ⟨t.root?.map (·, depth), stack, best⟩
      ⟨none, stack, survey e best (t.inorder depth)⟩ := by
  induction t generalizing depth stack best with
  | nil => exact .refl
  | node id left right ihl ihr =>
    have down : e.searchStep ⟨some (id, depth), stack, best⟩ =
        .more ⟨left.root?.map (·, depth + 1), (id, depth) :: stack, best⟩ := by
      simp [searchStep, joins.1]
    have beyond (best : Option (NodeId × Nat)) : e.searchStep ⟨none, (id, depth) :: stack, best⟩ =
        .more ⟨right.root?.map (·, depth + 1), stack, Search.better e best id depth⟩ := by
      simp [searchStep, joins.2.1]
    have leftwards := ihl joins.2.2.1 (depth + 1) ((id, depth) :: stack) best
    have rightwards := ihr joins.2.2.2 (depth + 1) stack
      (Search.better e (survey e best (left.inorder (depth + 1))) id depth)
    have steps : 2 * (BinaryTree.node id left right).numNodes =
        2 * left.numNodes + (2 * right.numNodes + 1) + 1 := by
      simp only [BinaryTree.numNodes]
      omega
    rw [BinaryTree.inorder, survey_append, survey_cons, steps]
    exact .later down (leftwards.trans (.later (beyond _) rightwards))

theorem deepestPending_survey {t : BinaryTree NodeId} (subtree : e.HasSubtree e.root t) :
    deepestPending e = (survey e none (t.inorder 0)).map Prod.fst := by
  have walk := leads_search subtree.joins 0 [] none
  have pos := subtree.numNodes_pos
  rw [subtree.top, Option.map_some] at walk
  rw [deepestPending, Loop.run_of_leads walk rfl (subtree.steps_lt (by omega))]
  rfl

/-- Between the nodes that stand to its left and to its right, a pending node is the deepest one and
the last of those that are as deep. -/
structure IsDeepest (e : Formula) (before : List (NodeId × Nat)) (found : NodeId × Nat)
    (after : List (NodeId × Nat)) : Prop where
  pending : isPending (e.node found.1)
  before : ∀ other ∈ before, isPending (e.node other.1) → other.2 ≤ found.2
  after : ∀ other ∈ after, isPending (e.node other.1) → other.2 < found.2

namespace IsDeepest

/-- No other node is as good. -/
theorem unique {before' after' : List (NodeId × Nat)} {found' : NodeId × Nat}
    (deepest : IsDeepest e before found after) (deepest' : IsDeepest e before' found' after')
    (same : before ++ found :: after = before' ++ found' :: after') :
    found = found' := by
  -- The one on the left is at most as deep as the other, which is less deep.
  have apart {front back : List (NodeId × Nat)} {left right : NodeId × Nat} {between : List (NodeId × Nat)}
      (first : IsDeepest e front left (between ++ right :: back))
      (second : IsDeepest e (front ++ left :: between) right back) :
      False :=
    Nat.lt_irrefl _ (Nat.lt_of_le_of_lt (second.before left (by simp) first.pending)
      (first.after right (by simp) second.pending))
  rcases List.append_eq_append_iff.mp same with ⟨between, rfl, rest⟩ | ⟨between, rfl, rest⟩
  · cases between with
    | nil => exact (List.cons.inj rest).1
    | cons first between =>
      obtain ⟨rfl, rfl⟩ := List.cons.inj rest
      exact (apart deepest deepest').elim
  · cases between with
    | nil => exact (List.cons.inj rest).1.symm
    | cons first between =>
      obtain ⟨rfl, rfl⟩ := List.cons.inj rest
      exact (apart deepest' deepest).elim

/-- A node further to the right that is not as deep changes nothing. -/
theorem pass (deepest : IsDeepest e before found after)
    (worse : isPending (e.node last.1) → last.2 < found.2) :
    IsDeepest e before found (after ++ [last]) where
  pending := deepest.pending
  before := deepest.before
  after other member := by
    rcases List.mem_append.mp member with member | member
    · exact deepest.after other member
    · obtain rfl := List.mem_singleton.mp member
      exact worse

/-- A pending node further to the right that is at least as deep takes the place. -/
theorem replace (deepest : IsDeepest e before found after) (pending : isPending (e.node last.1))
    (better : found.2 ≤ last.2) :
    IsDeepest e (before ++ found :: after) last [] where
  pending := pending
  before other member waits := by
    rcases List.mem_append.mp member with member | member
    · exact (deepest.before other member waits).trans better
    · rcases List.mem_cons.mp member with rfl | member
      · exact better
      · exact (deepest.after other member waits).le.trans better
  after _ member := absurd member List.not_mem_nil

end IsDeepest

inductive Surveyed (e : Formula) (passed : List (NodeId × Nat)) : Option (NodeId × Nat) → Prop where
  | nothing (idle : ∀ entry ∈ passed, isPending (e.node entry.1) = false) : Surveyed e passed none
  | node {before after : List (NodeId × Nat)} {found : NodeId × Nat}
      (split : passed = before ++ found :: after)
      (deepest : IsDeepest e before found after) : Surveyed e passed (some found)

theorem Surveyed.better (surveyed : Surveyed e passed best) (last : NodeId × Nat) :
    Surveyed e (passed ++ [last]) (Search.better e best last.1 last.2) := by
  by_cases pending : isPending (e.node last.1)
  · cases surveyed with
    | nothing idle =>
      rw [Search.better, pending]
      refine .node rfl ⟨pending, ?_, by simp⟩
      intro other member waits
      exact absurd waits (by simp [idle other member])
    | @node before after found split deepest =>
      by_cases better : found.2 ≤ last.2
      · have taken : Search.better e (some found) last.1 last.2 = some last := by
          simp [Search.better, pending, better]
        rw [taken, split]
        exact .node rfl (deepest.replace pending better)
      · have kept : Search.better e (some found) last.1 last.2 = some found := by simp [Search.better, better]
        rw [kept, split, List.append_assoc]
        exact .node rfl (deepest.pass fun _ => Nat.lt_of_not_le better)
  · have kept : Search.better e best last.1 last.2 = best := by simp [Search.better, pending]
    rw [kept]
    cases surveyed with
    | nothing idle =>
      refine .nothing fun entry member => ?_
      rcases List.mem_append.mp member with member | member
      · exact idle entry member
      · obtain rfl := List.mem_singleton.mp member
        simpa using pending
    | node split deepest =>
      rw [split, List.append_assoc]
      exact .node rfl (deepest.pass fun waits => absurd waits pending)

theorem surveyed (e : Formula) (passed : List (NodeId × Nat)) : Surveyed e passed (survey e none passed) := by
  induction passed using List.reverseRecOn with
  | nil => exact .nothing (by simp)
  | append_singleton passed last ih =>
    rw [survey_append]
    exact ih.better last

theorem survey_eq_none_iff :
    survey e none passed = none ↔ ∀ entry ∈ passed, isPending (e.node entry.1) = false := by
  have kept := surveyed e passed
  constructor
  · intro nothing
    rw [nothing] at kept
    cases kept with
    | nothing idle => exact idle
  · intro idle
    cases result : survey e none passed with
    | none => rfl
    | some found =>
      rw [result] at kept
      cases kept with
      | node split deepest => exact absurd deepest.pending (by simp [idle found (by simp [split])])

theorem survey_eq_some_iff : survey e none passed = some found ↔
    ∃ before after, passed = before ++ found :: after ∧ IsDeepest e before found after := by
  have kept := surveyed e passed
  constructor
  · intro something
    rw [something] at kept
    cases kept with
    | node split deepest => exact ⟨_, _, split, deepest⟩
  · rintro ⟨before, after, split, deepest⟩
    cases result : survey e none passed with
    | none =>
      have idle := survey_eq_none_iff.mp result found (by simp [split])
      exact absurd deepest.pending (by simp [idle])
    | some other =>
      rw [result] at kept
      cases kept with
      | node split' deepest' => rw [deepest.unique deepest' (split.symm.trans split')]

/-- Nothing is found only where nothing is pending. Otherwise the deepest pending node is found, and
the last of them from left to right when several are equally deep. -/
theorem deepestPending_last {t : BinaryTree NodeId} (subtree : e.HasSubtree e.root t) :
    (deepestPending e = none ↔ ∀ id, e.Reaches e.root id → isPending (e.node id) = false) ∧
      ∀ id, deepestPending e = some id ↔ ∃ before depth after,
        t.inorder 0 = before ++ (id, depth) :: after ∧ IsDeepest e before (id, depth) after := by
  rw [deepestPending_survey subtree]
  constructor
  · rw [Option.map_eq_none_iff, survey_eq_none_iff]
    constructor
    · intro idle id reached
      obtain ⟨depth, member⟩ := (BinaryTree.mem_inorder 0).mpr (subtree.reaches_iff.mp reached)
      exact idle (id, depth) member
    · intro idle entry member
      exact idle entry.1 (subtree.reaches_iff.mpr ((BinaryTree.mem_inorder 0).mp ⟨entry.2, member⟩))
  · intro id
    rw [Option.map_eq_some_iff]
    constructor
    · rintro ⟨⟨_, depth⟩, found, rfl⟩
      obtain ⟨before, after, split, deepest⟩ := survey_eq_some_iff.mp found
      exact ⟨before, depth, after, split, deepest⟩
    · rintro ⟨before, depth, after, split, deepest⟩
      exact ⟨(id, depth), survey_eq_some_iff.mpr ⟨before, after, split, deepest⟩, rfl⟩

/-- In `(-1)+2*3/4` the sign and the quotient are equally deep, and the quotient stands further to
the right. -/
theorem deepestPending_last_quotient :
    let e : Formula := ⟨#[{ token := ⟨.plus, "+", some 4⟩, left := some 1, right := some 2 },
      { token := ⟨.opening, "(", some 0⟩, left := some 3 },
      { token := ⟨.times, "*", some 6⟩, left := some 5, right := some 6 },
      { token := ⟨.minus, "-", some 1⟩, right := some 4, unary := true }, { token := ⟨.number, "1", some 2⟩ },
      { token := ⟨.number, "2", some 5⟩ },
      { token := ⟨.divide, "/", some 8⟩, left := some 7, right := some 8 },
      { token := ⟨.number, "3", some 7⟩ }, { token := ⟨.number, "4", some 9⟩ }], 0⟩
    let leaf (id : NodeId) := BinaryTree.node id .nil .nil
    let t := BinaryTree.node 0 (.node 1 (.node 3 .nil (leaf 4)) .nil)
      (.node 2 (leaf 5) (.node 6 (leaf 7) (leaf 8)))
    e.HasSubtree e.root t ∧
      t.inorder 0 = [(3, 2), (4, 3), (1, 1), (0, 0), (5, 2), (2, 1), (7, 3)] ++ (6, 2) :: [(8, 3)] ∧
      deepestPending e = some 6 := by
  intro e leaf t
  have subtree : e.HasSubtree e.root t := by decide +kernel
  have split : t.inorder 0 = [(3, 2), (4, 3), (1, 1), (0, 0), (5, 2), (2, 1), (7, 3)] ++ (6, 2) ::
    [(8, 3)] := rfl
  have deepest : IsDeepest e [(3, 2), (4, 3), (1, 1), (0, 0), (5, 2), (2, 1), (7, 3)] (6, 2) [(8, 3)] :=
    ⟨by decide, by decide, by decide⟩
  exact ⟨subtree, split, ((deepestPending_last subtree).2 6).mpr ⟨_, 2, _, split, deepest⟩⟩

end Stepwise.Formula
