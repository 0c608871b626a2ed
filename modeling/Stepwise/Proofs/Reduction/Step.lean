import Stepwise.Formula.Trace
import Stepwise.Proofs.Tree.Render

/-! One reduction of a tree. The deepest pending node is found by comparing the depths of the
operands; what becomes of it depends on its own label and on the values right below it. -/
namespace Stepwise

abbrev Mark := Label Quantity

namespace Label

def isSettled (a : Mark) : Bool := a.reduced || a.deferred

def isDerivative (a : Mark) : Bool := a.call.map Token.kind == some .diff

def termKeyword? (a : Mark) : Option String :=
  match a.call with
  | some keyword => if keyword.kind = .trig ∨ keyword.kind = .log then some keyword.text else none
  | none => none

def ofValue (value : Quantity) : Mark :=
  { token := Content.token value, value := some value, reduced := true }

/-- A node that has become a leaf with a value. A keyword on it stays. -/
def collapse (a : Mark) (value : Quantity) : Mark :=
  { a with
    token := Content.token value, value := some value, reduced := true, deferred := false,
    unary := false }

end Label

namespace Tree

def callTerm (x : Tree Mark) (keyword : String) (before : Option Quantity) : Quantity :=
  let argument := match x.isLeaf, x.top.value.bind Quantity.value? with
    | true, some n => Argument.numeric n
    | _, _ => Argument.symbolic x.outline
  let (coef, power) := match before with
    | some q => if Formula.isTerm q then (q.coef, q.power) else (1.0, 1.0)
    | none => (1.0, 1.0)
  match TrigFunction.ofName? keyword with
  | some function => .trig { function, argument, coef, power }
  | none => .log { argument, coef, power }

def settled (a : Mark) (value : Quantity) : Tree Mark :=
  let b := a.collapse value
  match a.termKeyword? with
  | some keyword => leaf { b with value := some ((leaf b).callTerm keyword a.value) }
  | none => leaf (if a.isDerivative then { b with reduced := false } else b)

def defer (x : Tree Mark) : Tree Mark := x.mapTop fun a => { a with deferred := true }

def differentiate (x : Tree Mark) : Tree Mark :=
  match x.top.value.bind Quantity.derivative? with
  | some value => leaf ({ x.top with call := none }.collapse value)
  | none => x.defer

def combination (a : Mark) (left right : Option Quantity) : Quantity.Outcome :=
  match Operation.ofKind? a.token.kind, left, right with
  | some operation, some p, some q => p.apply operation q
  | _, _, _ => .ok (if a.token.kind = .opening then left else none)

def operands : Tree Mark → Option Quantity × Option Quantity
  | leaf _ => (none, none)
  | group _ inner => (inner.top.value, none)
  | fork _ left right => (left.top.value, right.top.value)

def value (q : Quantity) : Tree Mark := leaf (.ofValue q)

def linear? (x : Tree Mark) : Option Polynomial :=
  match x.top.value with
  | some (.polynomial p) => if p.degree = 1 then some p else none
  | _ => none

def settleEquation (x : Tree Mark) : Tree Mark :=
  x.mapTop fun a => { a with reduced := true, deferred := false }

/-- `l = r` becomes `l - r = 0`. -/
def moveOver (a : Mark) (left right : Tree Mark) : Tree Mark :=
  fork a (fork { token := .inserted .minus "-" } left right) (value (.constant 0.0))

def offsetMove (p : Polynomial) : Token × Float :=
  if p.coefficient 0 < 0.0 then (.inserted .plus "+", -p.coefficient 0)
    else (.inserted .minus "-", p.coefficient 0)

/-- `a*v + b = r` becomes `a*v = r - b`. -/
def moveOffset (a : Mark) (right : Tree Mark) (p : Polynomial) : Tree Mark :=
  fork a (value (.polynomial (.monomial (p.coefficient 1) 1 p.letter)))
    (fork { token := (offsetMove p).1 } right (value (.constant (offsetMove p).2)))

/-- `a*v = r` becomes `v = r / a`. -/
def divideSlope (a : Mark) (right : Tree Mark) (p : Polynomial) : Tree Mark :=
  fork a (value (.polynomial (.monomial 1.0 1 p.letter)))
    (fork { token := .inserted .divide "/" } right (value (.constant (p.coefficient 1))))

def isolate : Tree Mark → Tree Mark
  | fork a left right =>
    if !right.top.value.any Quantity.isConstant then moveOver a left right
    else match left.linear? with
      | some p =>
        if p.coefficient 0 != 0.0 then moveOffset a right p
        else if p.coefficient 1 != 1.0 then divideSlope a right p
        else (fork a left right).settleEquation
      | none => (fork a left right).settleEquation
  | x => x.settleEquation

def reduceTop (x : Tree Mark) : Except ComputationError (Tree Mark) :=
  if x.isLeaf then .ok x.differentiate
  else if x.top.token.kind = .equals then .ok x.isolate
  else match combination x.top x.operands.1 x.operands.2 with
    | .ok (some value) => .ok (settled x.top value)
    | .ok none => .ok x.defer
    | .error error => .error error

def isPending (x : Tree Mark) : Bool := !x.top.isSettled && (!x.isLeaf || x.top.isDerivative)

/-- The first of two depths is larger. Of equally deep nodes the one on the right is taken. -/
def deeper : Option Nat → Option Nat → Bool
  | some l, some r => r < l
  | some _, none => true
  | none, _ => false

def pendingDepth : Tree Mark → Option Nat
  | leaf a => if (leaf a).isPending then some 0 else none
  | group a inner =>
    match inner.pendingDepth with
    | some depth => some (depth + 1)
    | none => if (group a inner).isPending then some 0 else none
  | fork a left right =>
    if deeper left.pendingDepth right.pendingDepth then left.pendingDepth.map (· + 1)
    else match right.pendingDepth with
      | some depth => some (depth + 1)
      | none => if (fork a left right).isPending then some 0 else none

def step? : Tree Mark → Option (Except ComputationError (Tree Mark))
  | leaf a => if (leaf a).isPending then some (leaf a).reduceTop else none
  | group a inner =>
    match inner.step? with
    | some result => some (result.map (group a))
    | none => if (group a inner).isPending then some (group a inner).reduceTop else none
  | fork a left right =>
    if deeper left.pendingDepth right.pendingDepth then left.step?.map fun result =>
      result.map (fork a · right)
    else match right.step? with
      | some result => some (result.map (fork a left))
      | none => if (fork a left right).isPending then some (fork a left right).reduceTop else none

section

variable (a : Mark) (inner left right : Tree Mark)

theorem pendingDepth_leaf : (leaf a).pendingDepth = if (leaf a).isPending then some 0 else none := rfl

theorem pendingDepth_group :
    (group a inner).pendingDepth = match inner.pendingDepth with
      | some depth => some (depth + 1)
      | none => if (group a inner).isPending then some 0 else none := rfl

theorem pendingDepth_fork :
    (fork a left right).pendingDepth =
      if deeper left.pendingDepth right.pendingDepth then left.pendingDepth.map (· + 1)
      else match right.pendingDepth with
        | some depth => some (depth + 1)
        | none => if (fork a left right).isPending then some 0 else none := rfl

theorem step?_leaf : (leaf a).step? = if (leaf a).isPending then some (leaf a).reduceTop else none := rfl

theorem step?_group :
    (group a inner).step? = match inner.step? with
      | some result => some (result.map (group a))
      | none => if (group a inner).isPending then some (group a inner).reduceTop else none := rfl

theorem step?_fork :
    (fork a left right).step? =
      if deeper left.pendingDepth right.pendingDepth then left.step?.map fun result =>
        result.map (fork a · right)
      else match right.step? with
        | some result => some (result.map (fork a left))
        | none => if (fork a left right).isPending then some (fork a left right).reduceTop else none := rfl

end

/-- Reduces the deepest pending node as long as the root is pending. -/
def next? (x : Tree Mark) : Option (Except ComputationError (Tree Mark)) :=
  if x.isPending then x.step? else none

end Tree

end Stepwise
