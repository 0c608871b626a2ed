import Stepwise.Proofs.Reduction.Trace
import Stepwise.Proofs.Tree.Core
import Stepwise.Proofs.Tree.Drawing

/-! Trees that differ in where their tokens stand, and in whether the sign of a product is written.
Main statement: their evaluations show the same lines, the prepared trees being written alike, and
end with the same value. -/
namespace Stepwise

noncomputable def Quantity.standard (q : Quantity) : Quantity := q.redraw Expression.standard

/-- The same label but for the places of its tokens and the outlines in its value. -/
structure Label.Resembles (a b : Mark) : Prop where
  token : a.token.unplaced = b.token.unplaced
  call : a.call.map Token.unplaced = b.call.map Token.unplaced
  value : a.value.map Quantity.standard = b.value.map Quantity.standard
  reduced : a.reduced = b.reduced
  deferred : a.deferred = b.deferred
  unary : a.unary = b.unary

open Expression (standard_faithful)

/-- What does not look at outlines is the same of quantities with the same ones standing for theirs. -/
theorem Quantity.of_standard {α : Type} {f : Quantity → α}
    (blind : ∀ q : Quantity, f (q.redraw Expression.standard) = f q) {p q : Quantity}
    (same : p.standard = q.standard) : f p = f q :=
  calc
  f p = f p.standard := (blind p).symm
  _ = f q.standard := congrArg f same
  _ = f q := blind q

namespace Label.Resembles
variable {a b : Mark}

theorem kind (resembles : a.Resembles b) : a.token.kind = b.token.kind := by
  have same := congrArg Token.kind resembles.token
  exact same

theorem text (resembles : a.Resembles b) : a.token.text = b.token.text := by
  have same := congrArg Token.text resembles.token
  exact same

theorem refl (a : Mark) : a.Resembles a := ⟨rfl, rfl, rfl, rfl, rfl, rfl⟩

theorem calls (resembles : a.Resembles b) : (a.call = none ∧ b.call = none) ∨
    ∃ keyword keyword', a.call = some keyword ∧ b.call = some keyword' ∧
      keyword.kind = keyword'.kind ∧ keyword.text = keyword'.text := by
  have same := resembles.call
  cases here : a.call with
  | none =>
    rw [here] at same
    exact .inl ⟨rfl, Option.map_eq_none_iff.mp same.symm⟩
  | some keyword =>
    rw [here] at same
    obtain ⟨keyword', there, same⟩ := Option.map_eq_some_iff.mp same.symm
    exact .inr ⟨keyword, keyword', rfl, there, (congrArg Token.kind same).symm,
      (congrArg Token.text same).symm⟩

theorem values (resembles : a.Resembles b) : (a.value = none ∧ b.value = none) ∨
    ∃ p q, a.value = some p ∧ b.value = some q ∧ p.standard = q.standard := by
  have same := resembles.value
  cases here : a.value with
  | none =>
    rw [here] at same
    exact .inl ⟨rfl, Option.map_eq_none_iff.mp same.symm⟩
  | some p =>
    rw [here] at same
    obtain ⟨q, there, same⟩ := Option.map_eq_some_iff.mp same.symm
    exact .inr ⟨p, q, rfl, there, same.symm⟩

theorem termKeyword (resembles : a.Resembles b) : a.termKeyword? = b.termKeyword? := by
  rcases resembles.calls with ⟨none, none'⟩ | ⟨keyword, keyword', some, some', kind, text⟩
  · rw [Label.termKeyword?, Label.termKeyword?, none, none']
  · simp only [Label.termKeyword?, some, some', kind, text]

theorem isDerivative (resembles : a.Resembles b) : a.isDerivative = b.isDerivative := by
  rcases resembles.calls with ⟨none, none'⟩ | ⟨keyword, keyword', some, some', kind, text⟩
  · rw [Label.isDerivative, Label.isDerivative, none, none']
  · simp only [Label.isDerivative, some, some', Option.map_some, kind]

theorem isSettled (resembles : a.Resembles b) : a.isSettled = b.isSettled := by
  rw [Label.isSettled, Label.isSettled, resembles.reduced, resembles.deferred]

theorem called (resembles : a.Resembles b) : a.call.isSome = b.call.isSome := by
  rcases resembles.calls with ⟨none, none'⟩ | ⟨keyword, keyword', some, some', -⟩
  · rw [none, none']
  · rw [some, some', Option.isSome_some, Option.isSome_some]

theorem valued (resembles : a.Resembles b) : a.value.isSome = b.value.isSome := by
  rcases resembles.values with ⟨none, none'⟩ | ⟨p, q, some, some', -⟩
  · rw [none, none']
  · rw [some, some', Option.isSome_some, Option.isSome_some]

/-- What is asked of the value without a look at its outlines. -/
theorem value_bind {α : Type} {f : Quantity → Option α}
    (blind : ∀ q : Quantity, f (q.redraw Expression.standard) = f q) (resembles : a.Resembles b) :
    a.value.bind f = b.value.bind f := by
  rcases resembles.values with ⟨none, none'⟩ | ⟨p, q, some, some', same⟩
  · rw [none, none']
  · rw [some, some']
    exact Quantity.of_standard blind same

theorem value_any {f : Quantity → Bool} (blind : ∀ q : Quantity, f (q.redraw Expression.standard) = f q)
    (resembles : a.Resembles b) : a.value.any f = b.value.any f := by
  rcases resembles.values with ⟨none, none'⟩ | ⟨p, q, some, some', same⟩
  · rw [none, none']
  · rw [some, some']
    exact Quantity.of_standard blind same

/-- The labels stay alike when they are given quantities that are. -/
theorem collapse (resembles : a.Resembles b) {p q : Quantity} (same : p.standard = q.standard) :
    (a.collapse p).Resembles (b.collapse q) where
  token := congrArg Token.unplaced (Quantity.of_standard (Quantity.token_redraw standard_faithful) same)
  call := resembles.call
  value := congrArg some same
  reduced := rfl
  deferred := rfl
  unary := rfl

end Label.Resembles

namespace Expression

/-- An operator is written by its kind and its spelling. -/
theorem infixed_congr {a b : Token} (kind : a.kind = b.kind) (text : a.text = b.text) (l r : Rendered) :
    infixed l a r = infixed l b r := by
  simp only [infixed, kind, text]

theorem renderToken_congr {a b : Token} (kind : a.kind = b.kind) (text : a.text = b.text) :
    renderToken a = renderToken b := by
  simp only [renderToken, kind, text]

end Expression

namespace Tree

theorem operatorRendered_congr {ν : Type} {a b : Label ν} {left left' : Tree (Label ν)}
    (kind : a.token.kind = b.token.kind) (text : a.token.text = b.token.text)
    (unary : a.unary = b.unary) (unit : isUnit a left = isUnit b left') (l r : Rendered) :
    operatorRendered a left l r = operatorRendered b left' l r := by
  simp only [operatorRendered, kind, text, unary, unit, Expression.infixed_congr kind text]

structure NotOne (x : Tree Mark) : Prop where
  isLeaf : x.isLeaf
  number : x.top.token.kind = .number
  unmarked : x.top.call = none
  text : x.top.token.text ≠ "1"
  attached : x.top.attachNumber.token.text ≠ "1"

/-- Trees with the same labels but for the places of tokens. Whether the sign of a product is
written may differ when its first factor is a number other than 1. -/
inductive Resembles : Tree Mark → Tree Mark → Prop
  | leaf {a b : Mark} (label : a.Resembles b) : Resembles (leaf a) (leaf b)
  | group {a b : Mark} {x y : Tree Mark} (label : a.Resembles b) (opening : a.token.kind = .opening)
      (below : Resembles x y) :
      Resembles (group a x) (group b y)
  | fork {a b : Mark} {left left' right right' : Tree Mark} (label : a.Resembles b)
      (product : a.token.kind = .times → a.token.isInserted = b.token.isInserted ∨ left.NotOne)
      (first : Resembles left left') (second : Resembles right right') :
      Resembles (fork a left right) (fork b left' right')

namespace Resembles
variable {x y left left' : Tree Mark} {a b : Mark}

theorem isLeaf (resembles : x.Resembles y) : x.isLeaf = y.isLeaf := by
  cases resembles <;> rfl

theorem top (resembles : x.Resembles y) : x.top.Resembles y.top := by
  cases resembles <;> assumption

theorem notOne (resembles : x.Resembles y) (factor : x.NotOne) : ¬ isUnit a x ∧ ¬ isUnit b y := by
  have text := resembles.top.text
  have other := factor.text
  constructor
  · simp [isUnit, other]
  · simp [isUnit, ← text, other]

theorem isUnit_other (other : a.token.kind ≠ .times) (x : Tree Mark) : Tree.isUnit a x = false := by
  rw [Tree.isUnit, beq_eq_false_iff_ne.mpr other]
  rfl

theorem isUnit (label : a.Resembles b)
    (product : a.token.kind = .times → a.token.isInserted = b.token.isInserted ∨ left.NotOne)
    (first : left.Resembles left') : isUnit a left = isUnit b left' := by
  by_cases times : a.token.kind = .times
  · rcases product times with same | factor
    · rw [Tree.isUnit, Tree.isUnit, label.kind, same, first.isLeaf, first.top.text,
        ← Option.not_isSome, ← Option.not_isSome, first.top.called]
    · obtain ⟨unit, unit'⟩ := first.notOne (a := a) (b := b) factor
      rw [Bool.eq_false_iff.mpr unit, Bool.eq_false_iff.mpr unit']
  · have times' := label.kind ▸ times
    rw [isUnit_other times, isUnit_other times']

theorem isUnit_group (label : a.Resembles b) (opening : a.token.kind = .opening) (x y : Tree Mark) :
    Tree.isUnit a x = Tree.isUnit b y := by
  have opening' := label.kind ▸ opening
  rw [isUnit_other (by simp [opening]), isUnit_other (by simp [opening'])]

end Resembles

theorem callRendered_congr {a b : Mark} (label : a.Resembles b) {keyword keyword' : Token}
    (kind : keyword.kind = keyword'.kind) (text : keyword.text = keyword'.text) (isLeaf : Bool)
    (argument : String) :
    callRendered a keyword isLeaf argument = callRendered b keyword' isLeaf argument := by
  rcases label.values with ⟨none, none'⟩ | ⟨p, q, some, some', same⟩
  · simp only [callRendered, kind, text, none, none']
  · have rendered : Content.rendered p = Content.rendered q :=
      Quantity.of_standard (Quantity.rendered_redraw standard_faithful) same
    have numeric : Content.hasNumericArgument p = Content.hasNumericArgument q :=
      Quantity.of_standard (Quantity.hasNumericArgument_redraw _) same
    have around : Content.around p argument = Content.around q argument :=
      Quantity.of_standard (f := (Quantity.around · argument))
        (fun r => Quantity.around_redraw standard_faithful r argument) same
    simp only [callRendered, kind, text, some, some']
    cases keyword'.kind <;> simp only [rendered, numeric, around]

theorem innerRendered_congr {a b : Mark} (label : a.Resembles b) (written : Rendered) :
    innerRendered a written = innerRendered b written := by
  rcases label.calls with ⟨none, none'⟩ | ⟨keyword, keyword', some, some', kind, text⟩
  · rw [innerRendered, innerRendered, none, none']
  · rw [innerRendered, innerRendered, some, some']
    exact callRendered_congr label kind text false written.text

theorem leafRendered_congr {a b : Mark} (label : a.Resembles b) : leafRendered a = leafRendered b := by
  rcases label.calls with ⟨none, none'⟩ | ⟨keyword, keyword', some, some', kind, text⟩
  · rw [leafRendered, leafRendered, none, none']
    rcases label.values with ⟨none, none'⟩ | ⟨p, q, some, some', same⟩
    · rw [none, none']
      exact Expression.renderToken_congr label.kind label.text
    · rw [some, some']
      exact Quantity.of_standard (Quantity.rendered_redraw standard_faithful) same
  · rw [leafRendered, leafRendered, some, some', label.text]
    exact callRendered_congr label kind text true b.token.text

/-- Trees that resemble each other are written alike. -/
theorem Resembles.rendered {x y : Tree Mark} (resembles : x.Resembles y) : x.rendered = y.rendered := by
  induction resembles with
  | leaf label => exact leafRendered_congr label
  | @group a b x y label opening below ih =>
    have unit : Tree.isUnit a x = Tree.isUnit b y := isUnit_group label opening x y
    rw [Tree.rendered, Tree.rendered, ih, operatorRendered_congr label.kind label.text label.unary unit]
    exact innerRendered_congr label _
  | fork label product first second ihl ihr =>
    rw [Tree.rendered, Tree.rendered, ihl, ihr,
      operatorRendered_congr label.kind label.text label.unary (isUnit label product first)]
    exact innerRendered_congr label _

/-- A copy of a label is written by its kinds and spellings. -/
theorem innerRendered_copy {a b : Mark} (label : a.Resembles b) (written : Rendered) :
    innerRendered a.copy written = innerRendered b.copy written := by
  rcases label.calls with ⟨none, none'⟩ | ⟨keyword, keyword', some, some', kind, text⟩
  · simp only [innerRendered, Label.copy, none, none']
  · simp only [innerRendered, callRendered, Label.copy, some, some', kind, text]

theorem leafRendered_copy {a b : Mark} (label : a.Resembles b) :
    leafRendered a.copy = leafRendered b.copy := by
  rcases label.calls with ⟨none, none'⟩ | ⟨keyword, keyword', some, some', kind, text⟩
  · simp only [leafRendered, Label.copy, none, none']
    exact Expression.renderToken_congr label.kind label.text
  · simp only [leafRendered, callRendered, Label.copy, some, some', kind, text, label.text]

theorem isUnit_copy (a : Mark) (left : Tree Mark) :
    Tree.isUnit a.copy (left.map Label.copy) = Tree.isUnit a left := by
  simp [Tree.isUnit, Label.copy]

/-- The operator of a copy is written alike. -/
theorem Resembles.operator_copy {a b : Mark} {left left' : Tree Mark} (label : a.Resembles b)
    (unit : Tree.isUnit a left = Tree.isUnit b left') (l r : Rendered) :
    operatorRendered a.copy (left.map Label.copy) l r =
      operatorRendered b.copy (left'.map Label.copy) l r := by
  have unit' : Tree.isUnit a.copy (left.map Label.copy) = Tree.isUnit b.copy (left'.map Label.copy) := by
    rw [isUnit_copy, isUnit_copy, unit]
  have kind : a.copy.token.kind = b.copy.token.kind := label.kind
  exact operatorRendered_congr kind label.text label.unary unit' l r

theorem Resembles.copy_rendered {x y : Tree Mark} (resembles : x.Resembles y) :
    (x.map Label.copy).rendered = (y.map Label.copy).rendered := by
  induction resembles with
  | leaf label => exact leafRendered_copy label
  | group label opening below ih =>
    rw [Tree.map, Tree.map, Tree.rendered, Tree.rendered, ih,
      operator_copy label (isUnit_group label opening _ _)]
    exact innerRendered_copy label _
  | fork label product first second ihl ihr =>
    rw [Tree.map, Tree.map, Tree.rendered, Tree.rendered, ihl, ihr,
      operator_copy label (isUnit label product first)]
    exact innerRendered_copy label _

/-- So are the outlines of trees that resemble each other. -/
theorem Resembles.outline_render {x y : Tree Mark} (resembles : x.Resembles y) :
    x.outline.render = y.outline.render := by
  rw [Expression.render_eq x.outline_displays, Expression.render_eq y.outline_displays]
  refine congrArg Rendered.text ?_
  cases resembles with
  | leaf label => exact Expression.renderToken_congr label.kind label.text
  | @group a b x y label opening below =>
    have operator := operator_copy label (isUnit_group label opening x y)
    rw [Tree.map, Tree.map, mapTop, mapTop, Tree.rendered, Tree.rendered, below.copy_rendered]
    exact operator _ _
  | fork label product first second =>
    have operator := operator_copy label (isUnit label product first)
    rw [Tree.map, Tree.map, mapTop, mapTop, Tree.rendered, Tree.rendered, first.copy_rendered,
      second.copy_rendered]
    exact operator _ _

theorem Resembles.size {x y : Tree Mark} (resembles : x.Resembles y) : x.size = y.size := by
  induction resembles with
  | leaf label => rfl
  | group label opening below ih => simp only [Tree.size, ih]
  | fork label product first second ihl ihr => simp only [Tree.size, ihl, ihr]

theorem Resembles.outlineNodes {x y : Tree Mark} (resembles : x.Resembles y) (base : NodeId)
    (parent : Option NodeId) :
    List.Forall₂ Node.Twins (x.outlineNodes base parent) (y.outlineNodes base parent) := by
  have call {a b : Mark} (label : a.Resembles b) : a.call.map Token.text = b.call.map Token.text := by
    rcases label.calls with ⟨none, none'⟩ | ⟨keyword, keyword', some, some', kind, text⟩
    · rw [none, none']
    · rw [some, some', Option.map_some, Option.map_some, text]
  induction resembles generalizing base parent with
  | leaf label => exact .cons ⟨rfl, rfl, label.text, call label⟩ .nil
  | group label opening below ih => exact .cons ⟨rfl, rfl, label.text, call label⟩ (ih _ _)
  | fork label product first second ihl ihr =>
    simp only [Tree.outlineNodes, first.size]
    exact .cons ⟨rfl, rfl, label.text, call label⟩ (List.rel_append (ihl _ _) (ihr _ _))

theorem Resembles.outline_twins {x y : Tree Mark} (resembles : x.Resembles y) (id : NodeId) :
    (x.outline.node id).Twins (y.outline.node id) := by
  have nodes := resembles.outlineNodes 0 none
  have length : (x.outlineNodes 0 none).length = (y.outlineNodes 0 none).length := by simp [resembles.size]
  have laid (x : Tree Mark) : ((Expression.extend ⟨#[], 0⟩ (x.outlineNodes 0 none) : Outline).node id) =
      (x.outlineNodes 0 none)[id]?.getD default := by
    simp [Expression.extend, Expression.node_eq]
  have twins : ((x.outlineNodes 0 none)[id]?.getD default).Twins
      ((y.outlineNodes 0 none)[id]?.getD default) := by
    by_cases inside : id < (x.outlineNodes 0 none).length
    · rw [List.getElem?_eq_getElem inside, List.getElem?_eq_getElem (length ▸ inside)]
      exact List.Forall₂.get nodes inside (length ▸ inside)
    · rw [List.getElem?_eq_none (Nat.le_of_not_lt inside),
        List.getElem?_eq_none (length ▸ Nat.le_of_not_lt inside)]
      exact ⟨rfl, rfl, rfl, rfl⟩
  rw [outline, outline, Expression.node_modify, Expression.node_modify, laid, laid]
  simp only [Expression.size_extend, length]
  split
  · exact ⟨twins.left, twins.right, twins.text, rfl⟩
  · exact twins

/-- One outline stands for both. -/
theorem Resembles.outline_standard {x y : Tree Mark} (resembles : x.Resembles y) :
    x.outline.standard = y.outline.standard := by
  have size : x.outline.size = y.outline.size := by simp [outline, resembles.size]
  have twins := resembles.outline_twins
  refine Expression.standard_eq ?_
  rw [Expression.drawing, Expression.drawing, resembles.outline_render]
  congr 1
  · exact funext (Expression.sameShape_left size rfl twins)
  · exact funext (Expression.sameShape_right rfl twins)

end Tree

end Stepwise
