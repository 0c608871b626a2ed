import Stepwise.Proofs.Tree.Building

/-! Operands and their parents in the array. Main statement: placing a token leaves every operand
with the node that lists it for its parent. -/
namespace Stepwise.Expression

variable {ν : Type} {e : Expression ν} {id child : NodeId}

def Lists (e : Expression ν) (id child : NodeId) : Prop :=
  (e.node id).left = some child ∨ (e.node id).right = some child

def Reciprocal (e : Expression ν) : Prop := ∀ ⦃id child⦄, e.Lists id child → (e.node child).parent = some id

theorem node_outside (outside : e.size ≤ id) : e.node id = default := by
  simp only [size] at outside
  simp [node_eq, outside]

theorem node_push (e : Expression ν) (node : Node ν) (id : NodeId) :
    (e.push node).node id = if id = e.size then node else e.node id := by
  simp only [push, node_eq, size, Array.getElem?_push]
  split <;> rfl

theorem parent_modify (e : Expression ν) (id other : NodeId) {f : Node ν → Node ν}
    (kept : ∀ node, (f node).parent = node.parent) :
    ((e.modify id f).node other).parent = (e.node other).parent := by
  rw [node_modify]
  split
  · exact kept _
  · rfl

theorem lists_setParent (e : Expression ν) (other parent : NodeId) :
    (e.setParent other parent).Lists id child ↔ e.Lists id child := by
  simp only [Lists, left_setParent, right_setParent]

theorem lists_push_other (e : Expression ν) (node : Node ν) (other : id ≠ e.size) :
    (e.push node).Lists id child ↔ e.Lists id child := by
  simp only [Lists, node_push, if_neg other]

theorem lists_push_self (e : Expression ν) (node : Node ν) :
    (e.push node).Lists e.size child ↔ node.left = some child ∨ node.right = some child := by
  simp only [Lists, node_push, if_true]

namespace Reciprocal

/-- A node without a parent is no operand. -/
theorem apart (reciprocal : e.Reciprocal) (lists : e.Lists id child) {orphan : NodeId}
    (alone : (e.node orphan).parent = none) :
    child ≠ orphan := by
  rintro rfl
  exact absurd (alone.symm.trans (reciprocal lists)) (by simp)

theorem new (reciprocal : e.Reciprocal) (lists : e.Lists id child) : child ≠ e.size :=
  reciprocal.apart lists (by rw [node_outside (Nat.le_refl _)]; rfl)

/-- A new node may have operands that name it already. -/
theorem push (reciprocal : e.Reciprocal) {node : Node ν}
    (operands : ∀ child, node.left = some child ∨ node.right = some child →
      (e.node child).parent = some e.size) :
    (e.push node).Reciprocal := by
  have kept {child parent : NodeId} (known : (e.node child).parent = some parent) :
      ((e.push node).node child).parent = some parent := by
    have inside : child ≠ e.size := by
      rintro rfl
      rw [node_outside (Nat.le_refl _)] at known
      cases known
    rw [node_push, if_neg inside, known]
  intro id child lists
  by_cases top : id = e.size
  · subst top
    exact kept (operands child ((lists_push_self e node).mp lists))
  · exact kept (reciprocal ((lists_push_other e node top).mp lists))

theorem pushLeaf (reciprocal : e.Reciprocal) (token : Token) : (e.push { token }).Reciprocal :=
  reciprocal.push fun child absurd => (by simp at absurd)

/-- An operator over two subtrees that are no operands yet. -/
theorem pushBinary (reciprocal : e.Reciprocal) (token : Token) {left right : NodeId}
    (l : left < e.size) (r : right < e.size) (first : (e.node left).parent = none)
    (second : (e.node right).parent = none) : (e.pushBinary token left right).Reciprocal := by
  intro id child lists
  simp only [Expression.pushBinary, lists_setParent] at lists
  by_cases top : id = e.size
  · subst top
    rw [lists_push_self] at lists
    rw [Expression.pushBinary]
    by_cases last : child = right
    · subst last
      exact parent_setParent _ _ (by simpa using Nat.lt_succ_of_lt r)
    · obtain rfl : left = child := by simpa [Ne.symm last] using lists
      rw [node_setParent_other _ _ last]
      exact parent_setParent _ _ (by simpa using Nat.lt_succ_of_lt l)
  · have old := (lists_push_other e _ top).mp lists
    rw [Expression.pushBinary, node_setParent_other _ _ (reciprocal.apart old second),
      node_setParent_other _ _ (reciprocal.apart old first), node_push, if_neg (reciprocal.new old)]
    exact reciprocal old

/-- A bracket of its own over a subtree that is no operand yet. -/
theorem pushGroup (reciprocal : e.Reciprocal) {node : Node ν} {inner : NodeId} (left : node.left = some inner)
    (right : node.right = none) (inside : inner < e.size) (orphan : (e.node inner).parent = none) :
    ((e.push node).setParent inner e.size).Reciprocal := by
  intro id child lists
  rw [lists_setParent] at lists
  by_cases top : id = e.size
  · subst top
    obtain rfl : inner = child := by simpa [lists_push_self, left, right] using lists
    exact parent_setParent _ _ (by simpa using Nat.lt_succ_of_lt inside)
  · have old := (lists_push_other e _ top).mp lists
    rw [node_setParent_other _ _ (reciprocal.apart old orphan), node_push, if_neg (reciprocal.new old)]
    exact reciprocal old

theorem attach {b : Builder ν} (reciprocal : b.nodes.Reciprocal) (inside : id < b.nodes.size)
    (orphan : (b.nodes.node id).parent = none) (awaiting : Bool) :
    (b.attach id awaiting).nodes.Reciprocal := by
  obtain ⟨e, ⟨spine, waits, call⟩, outer⟩ := b
  cases spine with
  | none => exact reciprocal
  | some spine =>
    obtain ⟨root, last⟩ := spine
    let f : Node ν → Node ν := fun node => { node with right := some id }
    have parent (other : NodeId) : ((e.modify last f).node other).parent = (e.node other).parent :=
      parent_modify e last other fun _ => rfl
    have old {k child : NodeId} (lists : e.Lists k child) :
        (((e.modify last f).setParent id last).node child).parent = some k := by
      rw [node_setParent_other _ _ (reciprocal.apart lists orphan), parent, reciprocal lists]
    intro k child lists
    change ((e.modify last f).setParent id last).Lists k child at lists
    rw [lists_setParent, Lists, node_modify] at lists
    split at lists
    · next here =>
      rcases lists with left | right
      · exact old (.inl left)
      · obtain rfl : id = child := Option.some.inj right
        rw [here.1]
        exact parent_setParent _ _ (by simpa using inside)
    · exact old lists

/-- An operator takes the place of its left operand, which was a right operand or none. -/
theorem operator (reciprocal : e.Reciprocal) {op : Node ν} {left above : NodeId}
    (operand : op.left = some left) (bare : op.right = none) (parent : op.parent = some above)
    (known : (e.node left).parent = some above) (right : (e.node above).right = some left)
    (other : (e.node above).left ≠ some left) :
    (((e.push op).setParent left e.size).modify above fun node =>
    { node with right := some e.size }).Reciprocal := by
  have inside {id : NodeId} (set : e.node id ≠ default) : id < e.size :=
    Nat.lt_of_not_le fun outside => set (node_outside outside)
  have leftInside : left < e.size := inside fun same => by simp [same, default] at known
  have aboveInside : above < e.size := inside fun same => by simp [same, default] at right
  let g := (e.push op).setParent left e.size
  let f : Node ν → Node ν := fun node => { node with right := some e.size }
  have kept (id : NodeId) : ((g.modify above f).node id).parent = (g.node id).parent :=
    parent_modify g above id fun _ => rfl
  have old {id child : NodeId} (lists : e.Lists id child) (apart : child ≠ left) :
      (g.node child).parent = some id := by
    rw [node_setParent_other _ _ apart, node_push, if_neg (reciprocal.new lists), reciprocal lists]
  intro id child lists
  rw [kept]
  rw [Lists, node_modify] at lists
  split at lists
  · next here =>
    obtain ⟨rfl, -⟩ := here
    rcases lists with first | second
    · have first : (e.node id).left = some child := by
        rw [left_setParent, node_push, if_neg (Nat.ne_of_lt aboveInside)] at first
        exact first
      exact old (.inl first) fun same => other (same ▸ first)
    · obtain rfl : e.size = child := Option.some.inj second
      rw [node_setParent_other _ _ (Nat.ne_of_gt leftInside), node_push_self, parent]
  · next apart =>
    change g.Lists id child at lists
    rw [lists_setParent] at lists
    by_cases top : id = e.size
    · subst top
      obtain rfl : left = child := by simpa [lists_push_self, operand, bare] using lists
      exact parent_setParent _ _ (by simpa using Nat.lt_succ_of_lt leftInside)
    · have lists := (lists_push_other e op top).mp lists
      refine old lists fun same => apart ⟨?_, by simpa [g] using Nat.lt_succ_of_lt aboveInside⟩
      subst same
      exact Option.some.inj ((reciprocal lists).symm.trans known)

theorem placeOperator {b : Builder ν} (reciprocal : b.nodes.Reciprocal) (token : Token)
    {root last left : NodeId} (spine : b.level.spine = some (root, last))
    (anchor : Builder.anchor b.nodes token root last = left) (inside : left < b.nodes.size)
    (behind : ∀ above, (b.nodes.node left).parent = some above →
      (b.nodes.node above).right = some left ∧ (b.nodes.node above).left ≠ some left) :
    (b.placeOperator token).nodes.Reciprocal := by
  obtain ⟨e, ⟨_, waits, call⟩, outer⟩ := b
  subst spine
  simp only [Builder.placeOperator, anchor]
  cases parent : (e.node left).parent with
  | none => exact reciprocal.pushGroup rfl rfl inside parent
  | some above => exact reciprocal.operator rfl rfl rfl parent (behind above parent).1 (behind above parent).2

theorem placeLeaf {b : Builder ν} (reciprocal : b.nodes.Reciprocal) (token : Token) :
    (b.placeLeaf token).nodes.Reciprocal := by
  obtain ⟨e, level, outer⟩ := b
  exact attach (b := ⟨e.push { token }, level, outer⟩) (reciprocal.pushLeaf token) (by simp)
    (by rw [node_push_self]) false

/-- The factors of a factorial are put over the product below them one after the other. -/
theorem expandFactorial (reciprocal : e.Reciprocal) {chain : NodeId} (inside : chain < e.size)
    (orphan : (e.node chain).parent = none) (k count : Nat) :
    (Builder.expandFactorial e chain k count).1.Reciprocal ∧
      (Builder.expandFactorial e chain k count).2 < (Builder.expandFactorial e chain k count).1.size ∧
      ((Builder.expandFactorial e chain k count).1.node
      (Builder.expandFactorial e chain k count).2).parent = none := by
  induction count generalizing e chain k with
  | zero => exact ⟨reciprocal, inside, orphan⟩
  | succ count ih =>
    let f := e.push { token := .inserted .number (toString k) }
    have size : f.size = e.size + 1 := size_push ..
    have factor : (f.node e.size).parent = none := by rw [node_push_self]
    have kept : (f.node chain).parent = none := by rw [node_push_other _ _ inside, orphan]
    have joined := (reciprocal.pushLeaf _).pushBinary (.inserted .times "*")
      (by rw [size]; exact Nat.lt_succ_self _)
      (by rw [size]; exact Nat.lt_succ_of_lt inside) factor kept
    refine ih joined (by rw [size_pushBinary, size]; exact Nat.lt_succ_self _) ?_ (k + 1)
    rw [← size, node_pushBinary f _ (by rw [size]; exact Nat.lt_succ_self _)
      (by rw [size]; exact Nat.lt_succ_of_lt inside)]

theorem placeFactorial {b : Builder ν} (reciprocal : b.nodes.Reciprocal) (token : Token) :
    (b.placeFactorial token).nodes.Reciprocal := by
  unfold Builder.placeFactorial
  split
  · next n e level outer _ =>
    let f := e.push { token := .inserted .number "1" }
    have one : e.size < f.size := by simp [f]
    obtain ⟨product, inside, orphan⟩ :=
      (reciprocal.pushLeaf _).expandFactorial one (by rw [node_push_self]) 2 (n - 1)
    exact attach (b := ⟨_, level, outer⟩) product inside orphan false
  · exact reciprocal.placeLeaf token

theorem placeSign {b : Builder ν} (reciprocal : b.nodes.Reciprocal) (token : Token) :
    (b.placeSign token).nodes.Reciprocal := by
  obtain ⟨e, level, outer⟩ := b
  let zero : Node ν := { token := .inserted .number "0", parent := some (e.size + 1) }
  let sign : Node ν := { token, left := some e.size, unary := true }
  have first : (e.push zero).Reciprocal := reciprocal.push fun child absurd => (by simp [zero] at absurd)
  have signed : ((e.push zero).push sign).Reciprocal := first.push fun child operand => by
    obtain rfl : e.size = child := by simpa [sign] using operand
    rw [node_push_self, size_push]
  have orphan : (((e.push zero).push sign).node (e.size + 1)).parent = none := by
    rw [← size_push e zero, node_push_self]
  exact attach (b := ⟨(e.push zero).push sign, level, outer⟩) signed (by simp) orphan true

theorem relabel (reciprocal : e.Reciprocal) (id : NodeId) {f : Node ν → Node ν}
    (kept : ∀ node, (f node).left = node.left ∧ (f node).right = node.right ∧ (f node).parent = node.parent) :
    (e.modify id f).Reciprocal := by
  intro k child lists
  have same (other : NodeId) : ((e.modify id f).node other).left = (e.node other).left ∧
      ((e.modify id f).node other).right = (e.node other).right := by
    rw [node_modify]
    split
    · exact ⟨(kept _).1, (kept _).2.1⟩
    · exact ⟨rfl, rfl⟩
  rw [parent_modify e id child fun node => (kept node).2.2]
  rw [Lists, (same k).1, (same k).2] at lists
  exact reciprocal lists

theorem applyCall (reciprocal : e.Reciprocal) (call : Option Token) {group : NodeId} (inside : group < e.size)
    (orphan : (e.node group).parent = none) : (Builder.applyCall e call group).1.Reciprocal := by
  cases call with
  | none => exact reciprocal
  | some keyword =>
    rw [Builder.applyCall]
    split
    · let f := (e.push { token := .inserted .number "1" }).push { token := .inserted .number "2" }
      have size : f.size = e.size + 2 := by simp [f]
      have one : (f.node e.size).parent = none := by simp [f, node_push]
      have two : (f.node (e.size + 1)).parent = none := by simp [f, node_push]
      have pushed : f.Reciprocal := (reciprocal.pushLeaf _).pushLeaf _
      have half := pushed.pushBinary (.inserted .divide "/") (size ▸ Nat.lt_add_of_pos_right (Nat.succ_pos 1))
        (size ▸ Nat.lt_succ_self _) one two
      have exponent := Builder.half_becomes e
      have kept : _ = e.node group := exponent.regrown.frame group inside List.not_mem_nil
      have grown :
          (f.pushBinary (.inserted .divide "/") e.size (e.size + 1)).size = e.size + 3 := by
        rw [size_pushBinary, size]
      exact half.pushBinary (.inserted .power "^") (grown ▸ Nat.lt_add_right 3 inside)
        (grown ▸ Nat.lt_succ_self _) (by rw [kept, orphan]) exponent.orphan
    · split
      · exact reciprocal.pushGroup rfl rfl inside orphan
      · exact reciprocal.relabel group fun _ => ⟨rfl, rfl, rfl⟩

end Reciprocal

end Stepwise.Expression
