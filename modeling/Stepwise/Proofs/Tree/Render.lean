import Stepwise.Proofs.Subtree.Render
import Stepwise.Proofs.Tree.Walk

/-! The text of a tree by recursion. Main statement: an expression is written as the tree it
displays, so its text depends on the labels alone. -/
namespace Stepwise

namespace Tree

variable {ν : Type}

def isUnit (a : Label ν) (left : Tree (Label ν)) : Bool :=
  a.token.kind == .times && a.token.isInserted &&
    (left.isLeaf && left.top.call.isNone && left.top.token.text == "1")

def operatorRendered (a : Label ν) (left : Tree (Label ν)) (l r : Rendered) : Rendered :=
  if a.unary then ⟨a.token.text ++ r.within .product, .sum⟩
  else if isUnit a left then r
  else match a.token.kind with
    | .equals => ⟨l.text ++ " = " ++ r.text, .equation⟩
    | .opening => l
    | _ => Expression.infixed l a.token r

variable [Content ν]

def callRendered (a : Label ν) (keyword : Token) (isLeaf : Bool) (argument : String) : Rendered :=
  let plain (_ : Unit) : Rendered := ⟨keyword.text ++ "(" ++ argument ++ ")", .atom⟩
  match keyword.kind, a.value with
  | .trig, some value | .log, some value =>
    if Content.hasNumericArgument value then Content.rendered value else Content.around value argument
  | .diff, some value =>
    if isLeaf then ⟨"diff(" ++ (Content.rendered value).text ++ ")", .atom⟩ else plain ()
  | _, _ => plain ()

def leafRendered (a : Label ν) : Rendered :=
  match a.call with
  | some keyword => callRendered a keyword true a.token.text
  | none =>
    match a.value with
    | some value => Content.rendered value
    | none => Expression.renderToken a.token

def innerRendered (a : Label ν) (written : Rendered) : Rendered :=
  match a.call with
  | some keyword => callRendered a keyword false written.text
  | none => written

def rendered : Tree (Label ν) → Rendered
  | leaf a => leafRendered a
  | group a inner => innerRendered a (operatorRendered a inner inner.rendered Expression.unwritten)
  | fork a left right => innerRendered a (operatorRendered a left left.rendered right.rendered)

def text (x : Tree (Label ν)) : String := x.rendered.text

end Tree

namespace Expression

variable {ν : Type}

theorem isUnitCoefficient_eq {e : Expression ν} {node : Node ν} {left : Tree NodeId}
    (link : node.left = some left.top) (links : e.Links left) :
    e.isUnitCoefficient node = Tree.isUnit node.label (e.view left) := by
  simp [isUnitCoefficient, Tree.isUnit, link, Node.label, view, links.isLeaf_eq]

theorem composeOperator_eq {e : Expression ν} {node : Node ν} {left : Tree NodeId} (l r : Option Rendered)
    (link : node.left = some left.top) (links : e.Links left) :
    e.composeOperator node l r =
      Tree.operatorRendered node.label (e.view left) (l.getD unwritten) (r.getD unwritten) := by
  simp only [composeOperator, Tree.operatorRendered, isUnitCoefficient_eq link links]
  rfl

variable [Content ν]

/-- A call with a numeric argument is written without its operands. -/
theorem composeCall_numeric {e : Expression ν} {node : Node ν} {keyword : Token}
    (call : node.call = some keyword) (numeric : isNumericCall node) (l r : Option Rendered)
    (isLeaf : Bool) (argument : String) :
    e.composeCall node keyword l r = Tree.callRendered node.label keyword isLeaf argument := by
  simp only [isNumericCall, Node.callKind?, call, Option.map_some] at numeric
  cases value : node.value with
  | none => simp [value] at numeric
  | some v =>
    simp only [value, Option.any_some, Bool.and_eq_true, Bool.or_eq_true, beq_iff_eq,
      Option.some.injEq] at numeric
    rcases numeric with ⟨kind | kind, argument⟩ <;>
      simp [composeCall, Tree.callRendered, Node.label, value, kind, argument]

theorem composeCall_eq {e : Expression ν} {node : Node ν} (keyword : Token) (l r : Option Rendered) :
    e.composeCall node keyword l r =
      Tree.callRendered node.label keyword node.isLeaf (e.composeArgument node l r) := rfl

theorem compose_leaf {e : Expression ν} {node : Node ν} (isLeaf : node.isLeaf) :
    e.compose node none none = Tree.leafRendered node.label := by
  simp only [compose, Tree.leafRendered]
  cases call : node.call with
  | some keyword => simp [Node.label, call, composeCall_eq, composeArgument, isLeaf]
  | none => cases value : node.value <;> simp [Node.label, call, value, isLeaf]

/-- An operator is written over what its operands are written as, unless it is a numeric call. -/
theorem compose_inner {e : Expression ν} {node : Node ν} {left : Tree NodeId} (l r : Option Rendered)
    (isLeaf : node.isLeaf = false) (link : node.left = some left.top) (links : e.Links left) :
    e.compose node l r = Tree.innerRendered node.label
      (Tree.operatorRendered node.label (e.view left) (l.getD unwritten) (r.getD unwritten)) := by
  simp only [compose, Tree.innerRendered]
  cases call : node.call with
  | some keyword =>
    simp [Node.label, call, composeCall_eq, composeArgument, isLeaf, composeOperator_eq l r link links]
  | none => simp [Node.label, call, isLeaf, composeOperator_eq l r link links]

theorem compose_numeric {e : Expression ν} {node : Node ν} (numeric : isNumericCall node)
    (written : Rendered) :
    e.compose node none none = Tree.innerRendered node.label written := by
  cases call : node.call with
  | none => simp [isNumericCall, Node.callKind?, call] at numeric
  | some keyword =>
    have same := composeCall_numeric (e := e) call numeric none none false written.text
    simp only [Node.label, call] at same
    simp [compose, Tree.innerRendered, Node.label, call, same]

/-- The recursion over a tree needs its labels only. -/
theorem rendered_binary {e : Expression ν} {t : Tree NodeId} (links : e.Links t) :
    e.rendered t.binary = some (e.view t).rendered := by
  induction t with
  | leaf id =>
    have isLeaf : (e.node id).isLeaf = true := links.isLeaf_eq
    rw [Tree.binary, rendered_alone (joins_binary.mpr links) (by simp [needsOperands, isLeaf]),
      compose_leaf isLeaf]
    rfl
  | group id inner ih =>
    have isLeaf : (e.node id).isLeaf = false := links.isLeaf_eq
    by_cases numeric : isNumericCall (e.node id)
    · rw [Tree.binary, rendered_numeric numeric, compose_numeric numeric]
      rfl
    · rw [Tree.binary, rendered_plain numeric, ih links.2.2, compose_inner _ _ isLeaf links.1 links.2.2]
      rfl
  | fork id left right ihl ihr =>
    have isLeaf : (e.node id).isLeaf = false := links.isLeaf_eq
    by_cases numeric : isNumericCall (e.node id)
    · rw [Tree.binary, rendered_numeric numeric, compose_numeric numeric]
      rfl
    · rw [Tree.binary, rendered_plain numeric, ihl links.2.2.1, ihr links.2.2.2,
        compose_inner _ _ isLeaf links.1 links.2.2.1]
      rfl

theorem renderAt_eq {e : Expression ν} {t : Tree NodeId} (spans : e.Spans t) :
    e.renderAt t.top = (e.view t).rendered :=
  Option.some.inj (spans.hasSubtree.rendered_eq.symm.trans (rendered_binary spans.links))

/-- An expression is written as the tree it displays. -/
theorem render_eq {e : Expression ν} {x : Tree (Label ν)} (displays : e.Displays x) : e.render = x.text := by
  obtain ⟨t, spans, root, rfl⟩ := displays
  rw [render, ← root, renderAt_eq spans, Tree.text]

end Expression

end Stepwise
