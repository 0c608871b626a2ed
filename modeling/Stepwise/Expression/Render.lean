import Stepwise.Expression.Walk

/-! Writing an expression as text. Operands are written first, from an explicit stack, and put
together with the brackets that the precedences of the parts call for. The inserted coefficient
`1 *` of a lone variable and the inserted zero under a sign are not written. -/
namespace Stepwise.Expression

variable {ν : Type}

open Loop (Progress)

/-- What stands for an operand that is missing. -/
def unwritten : Rendered := ⟨"", .atom⟩

def renderToken (token : Token) : Rendered :=
  match token.kind with
  | .factorial => ⟨token.text ++ "!", .atom⟩
  | .number => ⟨token.text, if token.text.toList.head? == some '-' then .sum else .atom⟩
  | _ => ⟨token.text, .atom⟩

/-- The inserted `1 *` in front of a variable. -/
def isUnitCoefficient (e : Expression ν) (node : Node ν) : Bool :=
  node.token.kind == .times && node.token.isInserted &&
    node.left.any fun id =>
      let left := e.node id
      left.isLeaf && left.call.isNone && left.token.text == "1"

/-- The tiers `+ -` and `* /` group left, so a right operand of the same tier is bracketed; `^`
groups right, so its base is bracketed unless it is atomic. -/
def infixed (left : Rendered) (token : Token) (right : Rendered) : Rendered :=
  let joined (own leftLeast rightLeast : Precedence) : Rendered :=
    ⟨left.within leftLeast ++ token.text ++ right.within rightLeast, own⟩
  match token.kind with
  | .plus | .minus => joined .sum .sum .product
  | .times | .divide => joined .product .product .power
  | .power => joined .power .atom .power
  | _ => joined .atom .equation .equation

/-- An operator over its written operands, keyword and value left aside. -/
def composeOperator (e : Expression ν) (node : Node ν) (left right : Option Rendered) : Rendered :=
  let left := left.getD unwritten
  let right := right.getD unwritten
  if node.unary then ⟨node.token.text ++ right.within .product, .sum⟩
  else if e.isUnitCoefficient node then right
  else match node.token.kind with
    | .equals => ⟨left.text ++ " = " ++ right.text, .equation⟩
    | .opening => left
    | _ => infixed left node.token right

/-- The argument of the keyword on a node. -/
def composeArgument (e : Expression ν) (node : Node ν) (left right : Option Rendered) : String :=
  if node.isLeaf then node.token.text else (e.composeOperator node left right).text

variable [Content ν]

/-- A trigonometric or logarithmic keyword on a value with a numeric argument: the value alone
tells how the node is written. -/
def isNumericCall (node : Node ν) : Bool :=
  (node.callKind? == some .trig || node.callKind? == some .log) &&
    node.value.any Content.hasNumericArgument

def composeCall (e : Expression ν) (node : Node ν) (keyword : Token) (left right : Option Rendered) :
    Rendered :=
  let plain (_ : Unit) : Rendered :=
    ⟨keyword.text ++ "(" ++ e.composeArgument node left right ++ ")", .atom⟩
  match keyword.kind, node.value with
  | .trig, some value | .log, some value =>
    if Content.hasNumericArgument value then Content.rendered value
    else Content.around value (e.composeArgument node left right)
  | .diff, some value =>
    if node.isLeaf then ⟨"diff(" ++ (Content.rendered value).text ++ ")", .atom⟩ else plain ()
  | _, _ => plain ()

/-- A node over its written operands. -/
def compose (e : Expression ν) (node : Node ν) (left right : Option Rendered) : Rendered :=
  match node.call with
  | some keyword => e.composeCall node keyword left right
  | none =>
    if node.isLeaf then
      match node.value with
      | some value => Content.rendered value
      | none => renderToken node.token
    else e.composeOperator node left right

/-- The operands of a node are written before it. -/
def needsOperands (node : Node ν) : Bool := !node.isLeaf && !isNumericCall node

/-- A node whose operands are still to be written, or one whose operands have been. -/
inductive Visit where
  | enter (id : NodeId)
  | exit (id : NodeId)

/-- The part of an operand that exists, taken off the parts written last. -/
def popOperand (operand : Option NodeId) (written : List Rendered) : Option Rendered × List Rendered :=
  match operand, written with
  | some _, part :: rest => (some part, rest)
  | _, written => (none, written)

def renderStep (e : Expression ν) :
    List Visit × List Rendered → Progress (List Visit × List Rendered) Rendered
  | ([], written) => .done (written.head?.getD unwritten)
  | (.enter id :: stack, written) =>
    let node := e.node id
    if needsOperands node then
      .more (node.left.toList.map .enter ++ node.right.toList.map .enter ++ .exit id :: stack, written)
    else .more (stack, e.compose node none none :: written)
  | (.exit id :: stack, written) =>
    let node := e.node id
    let (right, written) := popOperand node.right written
    let (left, written) := popOperand node.left written
    .more (stack, e.compose node left right :: written)

/-- The subtree at `id` as text. -/
def renderAt (e : Expression ν) (id : NodeId) : Rendered :=
  (Loop.run e.budget e.renderStep ([.enter id], [])).getD unwritten

def render (e : Expression ν) : String := (e.renderAt e.root).text

end Stepwise.Expression
