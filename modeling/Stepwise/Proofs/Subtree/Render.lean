import Stepwise.Quantity.Basic
import Stepwise.Proofs.Subtree.Basic

/-! The text of a subtree by recursion. Main statement: the loop over a subtree of any form writes
what putting each node together from its written operands does. -/
namespace Stepwise.Expression

open Loop (Leads)

variable {ν : Type} [Content ν]

/-- A subtree is put together from its operands as they are written. A call of a number is written
without them. -/
def rendered (e : Expression ν) : BinaryTree NodeId → Option Rendered
  | .nil => none
  | .node id left right =>
    if isNumericCall (e.node id) then some (e.compose (e.node id) none none)
    else some (e.compose (e.node id) (e.rendered left) (e.rendered right))

variable {e : Expression ν} {id : NodeId} {t left right : BinaryTree NodeId}

theorem rendered_numeric (numeric : isNumericCall (e.node id)) :
    e.rendered (.node id left right) = some (e.compose (e.node id) none none) := by
  rw [rendered, if_pos numeric]

theorem rendered_plain (plain : ¬ isNumericCall (e.node id)) :
    e.rendered (.node id left right) = some (e.compose (e.node id) (e.rendered left) (e.rendered right)) := by
  rw [rendered, if_neg plain]

/-- A node that is entered only once is written without operands, and it has none or does not ask for them. -/
theorem rendered_alone (joins : e.Joins (.node id left right)) (alone : needsOperands (e.node id) = false) :
    e.rendered (.node id left right) = some (e.compose (e.node id) none none) := by
  by_cases numeric : isNumericCall (e.node id)
  · exact rendered_numeric numeric
  · have leaf : (e.node id).isLeaf := by simpa [needsOperands, numeric] using alone
    obtain ⟨noLeft, noRight⟩ : (e.node id).left = none ∧ (e.node id).right = none := by
      simpa [Node.isLeaf] using leaf
    obtain rfl := BinaryTree.eq_nil_of_root (joins.1.symm.trans noLeft)
    obtain rfl := BinaryTree.eq_nil_of_root (joins.2.1.symm.trans noRight)
    exact rendered_plain numeric

/-- An operand takes off what it was written as, and a missing one takes off nothing. -/
theorem popOperand_rendered (e : Expression ν) (t : BinaryTree NodeId) (written : List Rendered) :
    popOperand t.root? ((e.rendered t).toList ++ written) = (e.rendered t, written) := by
  cases t with
  | nil => rfl
  | node id left right =>
    by_cases numeric : isNumericCall (e.node id)
    · rw [rendered_numeric numeric]
      rfl
    · rw [rendered_plain numeric]
      rfl

theorem leads_render (joins : e.Joins t) (stack : List Visit) (written : List Rendered) :
    ∃ n, n ≤ 2 * t.numNodes ∧ Leads e.renderStep n (t.root?.toList.map .enter ++ stack, written)
      (stack, (e.rendered t).toList ++ written) := by
  induction t generalizing stack written with
  | nil => exact ⟨0, Nat.zero_le _, .refl⟩
  | node id left right ihl ihr =>
    cases needs : needsOperands (e.node id) with
    | false =>
      refine ⟨1, by simp only [BinaryTree.numNodes]; omega, .once ?_⟩
      rw [rendered_alone joins needs]
      simp [renderStep, needs]
    | true =>
      have plain : ¬ isNumericCall (e.node id) := by
        intro numeric
        simp [needsOperands, numeric] at needs
      have enter : e.renderStep (.enter id :: stack, written) = .more (left.root?.toList.map .enter ++
          (right.root?.toList.map .enter ++ .exit id :: stack), written) := by
        simp [renderStep, needs, joins.1, joins.2.1]
      obtain ⟨m, fewl, leftwards⟩ :=
        ihl joins.2.2.1 (right.root?.toList.map .enter ++ .exit id :: stack) written
      obtain ⟨n, fewr, rightwards⟩ :=
        ihr joins.2.2.2 (.exit id :: stack) ((e.rendered left).toList ++ written)
      have leave : e.renderStep
          (.exit id :: stack, (e.rendered right).toList ++ ((e.rendered left).toList ++ written)) =
          .more (stack, (e.rendered (.node id left right)).toList ++ written) := by
        simp only [renderStep, joins.1, joins.2.1, popOperand_rendered, rendered_plain plain]
        rfl
      refine ⟨m + (n + 1) + 1, by simp only [BinaryTree.numNodes]; omega, ?_⟩
      exact .later enter (leftwards.trans (rightwards.trans (.once leave)))

theorem exists_rendered (e : Expression ν) (top : t.root? = some id) :
    ∃ written, e.rendered t = some written := by
  cases t with
  | nil => cases top
  | node own left right =>
    by_cases numeric : isNumericCall (e.node own)
    · exact ⟨_, rendered_numeric numeric⟩
    · exact ⟨_, rendered_plain numeric⟩

theorem HasSubtree.rendered_eq (subtree : e.HasSubtree id t) : e.rendered t = some (e.renderAt id) := by
  obtain ⟨written, recursive⟩ := exists_rendered e subtree.top
  obtain ⟨n, few, walk⟩ := leads_render subtree.joins [] []
  have pos := subtree.numNodes_pos
  rw [subtree.top, recursive, Option.toList_some, List.map_singleton, List.singleton_append] at walk
  rw [renderAt, Loop.run_of_leads walk rfl (subtree.steps_lt (by omega)), recursive]
  rfl

theorem rendered_operand (subtree : ∀ below, t.root? = some below → e.HasSubtree below t) :
    e.rendered t = t.root?.map e.renderAt := by
  cases t with
  | nil => rfl
  | node own left right => exact (subtree own rfl).rendered_eq

/-- A subtree of any form is written as recursion over it does: a node is put together from its
operands as each of them is written on its own, and a call of a number from nothing but itself. -/
theorem renderAt_recursive (subtree : e.HasSubtree id t) :
    e.rendered t = some (e.renderAt id) ∧
      e.renderAt id =
        if isNumericCall (e.node id) then e.compose (e.node id) none none
        else e.compose (e.node id) ((e.node id).left.map e.renderAt) ((e.node id).right.map e.renderAt) := by
  refine ⟨subtree.rendered_eq, Option.some.inj ?_⟩
  rw [← subtree.rendered_eq]
  cases t with
  | nil => cases subtree.top
  | node own left right =>
    obtain rfl : own = id := Option.some.inj subtree.top
    by_cases numeric : isNumericCall (e.node own)
    · rw [rendered_numeric numeric, if_pos numeric]
    · rw [rendered_plain numeric, if_neg numeric, subtree.joins.1, subtree.joins.2.1,
        rendered_operand fun _ => subtree.left, rendered_operand fun _ => subtree.right]

/-- Of `-((x)*sin(30))`, where the sign and the brackets have one operand each, the value of the
sine tells how it is written. -/
theorem renderAt_recursive_sine :
    let e : Expression Quantity := ⟨#[{ token := ⟨.minus, "-", some 0⟩, right := some 1, unary := true },
      { token := ⟨.times, "*", some 5⟩, left := some 2, right := some 3 },
      { token := ⟨.opening, "(", some 2⟩, left := some 4 },
      { token := ⟨.opening, "(", some 9⟩, left := some 5, call := some ⟨.trig, "sin", some 6⟩,
        value := some (.trig ⟨.sin, .numeric 30.0, 1.0, 1.0⟩) },
      { token := ⟨.letter, "x", some 3⟩ }, { token := ⟨.number, "30", some 10⟩ }], 0⟩
    let sine := BinaryTree.node 3 (.node 5 .nil .nil) .nil
    let t := BinaryTree.node 0 .nil (.node 1 (.node 2 (.node 4 .nil .nil) .nil) sine)
    e.HasSubtree 0 t ∧ e.HasSubtree 3 sine ∧ e.rendered t = some (e.renderAt 0) ∧
      e.renderAt 0 = e.compose (e.node 0) none (some (e.renderAt 1)) ∧
      e.renderAt 3 = e.compose (e.node 3) none none := by
  intro e sine t
  have whole : e.HasSubtree 0 t := by decide +kernel
  have part : e.HasSubtree 3 sine := by decide +kernel
  have plain : ¬ isNumericCall (e.node 0) := by decide
  have numeric : isNumericCall (e.node 3) := rfl
  obtain ⟨recursive, sign⟩ := renderAt_recursive whole
  have call := (renderAt_recursive part).2
  rw [if_neg plain] at sign
  rw [if_pos numeric] at call
  exact ⟨whole, part, recursive, sign, call⟩

end Stepwise.Expression
