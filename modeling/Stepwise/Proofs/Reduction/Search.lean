import Stepwise.Proofs.Reduction.Deepest
import Stepwise.Proofs.Reduction.Step

/-! The search for the node to be reduced next. The walk keeps the best node found so far; over a
whole subtree this amounts to comparing the depths of the operands. -/
namespace Stepwise.Formula

def own? (e : Formula) (t : Tree NodeId) : Option (NodeId × Nat) :=
  if (e.view t).isPending then some (t.top, 0) else none

def below (depth : Nat) (found : NodeId × Nat) : NodeId × Nat := (found.1, depth + found.2)

/-- The deepest pending node of a tree and how deep it is, the last of equally deep ones. -/
def finding (e : Formula) : Tree NodeId → Option (NodeId × Nat)
  | .leaf id => own? e (.leaf id)
  | .group id inner => ((finding e inner).map (below 1)).or (own? e (.group id inner))
  | .fork id left right =>
    if Tree.deeper (e.view left).pendingDepth (e.view right).pendingDepth then (finding e left).map (below 1)
    else ((finding e right).map (below 1)).or (own? e (.fork id left right))

/-- The better of two findings, the second one when they are equally deep. -/
def later (best found : Option (NodeId × Nat)) : Option (NodeId × Nat) :=
  match found with
  | some (id, depth) => if best.all (fun b => b.2 ≤ depth) then some (id, depth) else best
  | none => best

theorem later_assoc (a b c : Option (NodeId × Nat)) : later (later a b) c = later a (later b c) := by
  rcases a with _ | ⟨i, k⟩ <;> rcases b with _ | ⟨j, m⟩ <;> rcases c with _ | ⟨l, n⟩ <;> try rfl
  · simp only [later, Option.all_none, Option.all_some]
    by_cases low : m ≤ n <;> simp [low]
  · simp only [later, Option.all_some, decide_eq_true_eq]
    by_cases first : k ≤ m <;> by_cases second : m ≤ n <;> by_cases third : k ≤ n <;>
      simp [first, second, third] <;> omega

theorem isPending_view {e : Formula} {t : Tree NodeId} (links : e.Links t) :
    (e.view t).isPending = isPending (e.node t.top) := by
  simp [Tree.isPending, isPending, Expression.view, links.isLeaf_eq, Label.isSettled,
    Node.isSettled, Node.label, Label.isDerivative, isDerivative, Node.callKind?]

theorem better_eq {e : Formula} {t : Tree NodeId} (links : e.Links t) (best : Option (NodeId × Nat))
    (depth : Nat) :
    Search.better e best t.top depth = later best ((own? e t).map (below depth)) := by
  by_cases pending : isPending (e.node t.top) <;>
    simp [Search.better, later, own?, below, isPending_view links, pending]

theorem own_depth (e : Formula) (t : Tree NodeId) :
    (own? e t).map Prod.snd = if (e.view t).isPending then some 0 else none := by
  unfold own?; split <;> rfl

theorem finding_depth (e : Formula) (t : Tree NodeId) :
    (finding e t).map Prod.snd = (e.view t).pendingDepth := by
  induction t with
  | leaf id => exact own_depth e (.leaf id)
  | group id inner ih =>
    have own := own_depth e (.group id inner)
    simp only [finding, Expression.view_group, Tree.pendingDepth] at own ⊢
    rw [← ih]
    cases finding e inner with
    | none => exact own
    | some found => simp [below, Nat.add_comm]
  | fork id left right ihl ihr =>
    have own := own_depth e (.fork id left right)
    simp only [finding, Expression.view_fork, Tree.pendingDepth] at own ⊢
    split
    · rw [← ihl]
      cases finding e left <;> simp [below, Nat.add_comm]
    · rw [← ihr]
      cases finding e right with
      | none => exact own
      | some found => simp [below, Nat.add_comm]

/-- Whatever is found below a node is deeper than the node. -/
theorem later_own (e : Formula) (t : Tree NodeId) (found : Option (NodeId × Nat)) :
    later (found.map (below 1)) (own? e t) = (found.map (below 1)).or (own? e t) := by
  unfold own?
  cases found with
  | none => split <;> rfl
  | some found =>
    split <;> simp [later, below]

theorem finding_fork (e : Formula) (id : NodeId) (left right : Tree NodeId) :
    finding e (.fork id left right) =
      later (later ((finding e left).map (below 1)) (own? e (.fork id left right)))
      ((finding e right).map (below 1)) := by
  rw [later_own, finding, ← finding_depth, ← finding_depth]
  cases finding e left with
  | none =>
    cases finding e right with
    | none => rfl
    | some r =>
      unfold own?
      by_cases pending : (e.view (.fork id left right)).isPending <;>
        simp [Tree.deeper, later, below, pending]
  | some l =>
    cases finding e right with
    | none => rfl
    | some r =>
      by_cases deeper : r.2 < l.2
      · simp [Tree.deeper, later, below, deeper, Nat.not_le_of_lt deeper]
      · simp [Tree.deeper, later, below, deeper, Nat.le_of_not_lt deeper]

theorem below_later (depth : Nat) (a b : Option (NodeId × Nat)) :
    (later a b).map (below depth) = later (a.map (below depth)) (b.map (below depth)) := by
  rcases a with _ | a <;> rcases b with _ | b <;> try rfl
  by_cases low : a.2 ≤ b.2 <;> simp [later, below, low]

/-- What the walk past a tree keeps is the better of what it had and of what the tree holds. -/
theorem survey_binary {e : Formula} {t : Tree NodeId} (links : e.Links t) (depth : Nat)
    (best : Option (NodeId × Nat)) :
    survey e best (t.binary.inorder depth) = later best ((finding e t).map (below depth)) := by
  have deeper (depth : Nat) (found : Option (NodeId × Nat)) :
      (found.map (below 1)).map (below depth) = found.map (below (depth + 1)) := by
    cases found <;> simp [below, Nat.add_assoc]
  induction t generalizing depth best with
  | leaf id =>
    rw [finding, ← better_eq links]
    rfl
  | group id inner ih =>
    rw [finding, ← later_own, below_later, deeper, ← later_assoc, ← better_eq links, ← ih links.2.2]
    exact survey_append ..
  | fork id left right ihl ihr =>
    rw [finding_fork, below_later, below_later, deeper, deeper, ← later_assoc, ← later_assoc,
      ← better_eq links, ← ihl links.2.2.1, ← ihr links.2.2.2]
    exact survey_append ..

def target? (e : Formula) (t : Tree NodeId) : Option NodeId := (finding e t).map Prod.fst

/-- The search ends at the target. -/
theorem deepestPending_eq {e : Formula} {t : Tree NodeId} (spans : e.Spans t) (root : t.top = e.root) :
    deepestPending e = target? e t := by
  have subtree := spans.hasSubtree
  rw [root] at subtree
  rw [deepestPending_survey subtree, survey_binary spans.links]
  cases found : finding e t <;> simp [later, target?, found, below]

end Stepwise.Formula
