import Mathlib.Logic.Function.Basic
import Stepwise.Proofs.Quantity.Redraw
import Stepwise.Proofs.Tree.Walk
import Stepwise.Proofs.Tree.Render

/-! Outlines that are written alike and compared alike. Main statement: the copies of two trees with the same
spellings are, and one outline can be chosen to stand for all that are. -/
namespace Stepwise

namespace Expression

/-- What a quantity sees of an outline: its text, and how it compares with others. -/
structure Drawing where
  text : String
  before : Outline → Bool
  behind : Outline → Bool

def drawing (o : Outline) : Drawing :=
  ⟨o.render, fun p => o.sameShape o.root p p.root, fun p => p.sameShape p.root o o.root⟩

instance : Nonempty Outline := ⟨⟨#[], 0⟩⟩

/-- The outline that stands for all those of the same drawing. -/
noncomputable def standard (o : Outline) : Outline := Function.invFun drawing o.drawing

theorem drawing_standard (o : Outline) : o.standard.drawing = o.drawing := Function.invFun_eq ⟨o, rfl⟩

theorem standard_eq {o p : Outline} (same : o.drawing = p.drawing) : o.standard = p.standard := by
  rw [standard, standard, same]

theorem standard_faithful : Faithful standard where
  render o := congrArg Drawing.text (drawing_standard o)
  sameShape o p := by
    have first := congrFun (congrArg Drawing.before (drawing_standard o)) p.standard
    have second := congrFun (congrArg Drawing.behind (drawing_standard p)) o
    exact first.trans second

end Expression

structure Node.Twins (a b : Node Empty) : Prop where
  left : a.left = b.left
  right : a.right = b.right
  text : a.token.text = b.token.text
  call : a.call.map Token.text = b.call.map Token.text

namespace Expression
variable {o p : Outline}

theorem sameShape_left (size : o.size = p.size) (root : o.root = p.root)
    (twins : ∀ id, (o.node id).Twins (p.node id)) (q : Outline) :
    o.sameShape o.root q q.root = p.sameShape p.root q q.root := by
  have label (id other : NodeId) :
      sameLabel (o.node id) (q.node other) = sameLabel (p.node id) (q.node other) := by
    rw [sameLabel, sameLabel, (twins id).text, (twins id).call]
  have step : o.sameShapeStep q = p.sameShapeStep q := by
    funext stack
    rcases stack with _ | ⟨⟨_ | a, _ | b⟩, stack⟩
    · rfl
    · rfl
    · rfl
    · rfl
    · simp only [sameShapeStep, label, (twins a).left, (twins a).right]
  rw [sameShape, sameShape, step, root, budget, budget, size]

theorem sameShape_right (root : o.root = p.root) (twins : ∀ id, (o.node id).Twins (p.node id))
    (q : Outline) : q.sameShape q.root o o.root = q.sameShape q.root p p.root := by
  have label (id other : NodeId) :
      sameLabel (q.node other) (o.node id) = sameLabel (q.node other) (p.node id) := by
    rw [sameLabel, sameLabel, (twins id).text, (twins id).call]
  have step : q.sameShapeStep o = q.sameShapeStep p := by
    funext stack
    rcases stack with _ | ⟨⟨_ | a, _ | b⟩, stack⟩
    · rfl
    · rfl
    · rfl
    · rfl
    · simp only [sameShapeStep, label, (twins b).left, (twins b).right]
  rw [sameShape, sameShape, step, root]

end Expression

end Stepwise
