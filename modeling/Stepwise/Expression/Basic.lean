import Stepwise.Token.Basic

/-! An expression is a graph of nodes kept in one array and named by their index. A node holds the
token it stands for, its operands, the keyword whose argument its subtree is, and, once it has
one, a value. Values are of any type `ν` that can be written; an expression over `Empty` has none.
Reduction moves nodes out of reach of the root but never renumbers them. -/
namespace Stepwise

/-- How tightly a piece of text binds, the loosest first. -/
inductive Precedence where
  | equation
  | sum
  | product
  | power
  | atom
deriving DecidableEq, Repr

def Precedence.rank : Precedence → Nat
  | equation => 0
  | sum => 1
  | product => 2
  | power => 3
  | atom => 4

/-- A piece of text and how tightly it binds. -/
structure Rendered where
  text : String
  precedence : Precedence
deriving DecidableEq, Repr

/-- In brackets when it binds looser than its place asks for. -/
def Rendered.within (part : Rendered) (required : Precedence) : String :=
  if part.precedence.rank < required.rank then "(" ++ part.text ++ ")" else part.text

/-- What an expression needs to know of the values on its nodes. -/
class Content (ν : Type) where
  rendered : ν → Rendered
  /-- The token of a leaf that holds the value. -/
  token : ν → Token
  /-- The value is a call whose argument is a number. -/
  hasNumericArgument : ν → Bool
  /-- A call around the given text of its argument. -/
  around : ν → String → Rendered

instance : Content Empty := ⟨nofun, nofun, nofun, nofun⟩

abbrev NodeId := Nat

structure Node (ν : Type) where
  token : Token
  left : Option NodeId := none
  right : Option NodeId := none
  parent : Option NodeId := none
  /-- The keyword that takes this subtree as its argument. -/
  call : Option Token := none
  value : Option ν := none
  /-- The subtree has its final value. -/
  reduced : Bool := false
  /-- The operands could not be combined. -/
  deferred : Bool := false
  /-- A sign without a written left operand; the left operand is an inserted `0`. -/
  unary : Bool := false

instance {ν : Type} : Inhabited (Node ν) := ⟨{ token := default }⟩

namespace Node
variable {ν : Type}

def isLeaf (node : Node ν) : Bool := node.left.isNone && node.right.isNone

/-- Neither reduced nor deferred nodes are reduced again. -/
def isSettled (node : Node ν) : Bool := node.reduced || node.deferred

def callKind? (node : Node ν) : Option Token.Kind := node.call.map Token.kind

end Node

structure Expression (ν : Type) where
  nodes : Array (Node ν)
  root : NodeId

/-- An expression without values. -/
abbrev Outline := Expression Empty

namespace Expression
variable {ν : Type}

def leaf (token : Token) : Expression ν := ⟨#[{ token }], 0⟩

/-- The number of nodes, those out of reach included. -/
def size (e : Expression ν) : Nat := e.nodes.size

def node (e : Expression ν) (id : NodeId) : Node ν := e.nodes.getD id default

def modify (e : Expression ν) (id : NodeId) (f : Node ν → Node ν) : Expression ν :=
  { e with nodes := e.nodes.modify id f }

def setParent (e : Expression ν) (id parent : NodeId) : Expression ν :=
  e.modify id fun node => { node with parent := some parent }

def setRoot (e : Expression ν) (id : NodeId) : Expression ν :=
  { e with root := id }.modify id fun node => { node with parent := none }

/-- Adds a node. Its id is the size before. -/
def push (e : Expression ν) (node : Node ν) : Expression ν := { e with nodes := e.nodes.push node }

/-- Adds an operator over two subtrees. Its id is the size before. -/
def pushBinary (e : Expression ν) (token : Token) (left right : NodeId) : Expression ν :=
  ((e.push { token, left := some left, right := some right }).setParent left e.size).setParent
    right e.size

/-- Adds a reduced leaf. Its id is the size before. -/
def pushValue [Content ν] (e : Expression ν) (value : ν) : Expression ν :=
  e.push { token := Content.token value, value := some value, reduced := true }

def replaceChildren (e : Expression ν) (id left right : NodeId) : Expression ν :=
  ((e.modify id fun node => { node with left := some left, right := some right }).setParent
    left id).setParent right id

/-- Turns a node into a reduced leaf. A keyword on it stays. -/
def collapse [Content ν] (e : Expression ν) (id : NodeId) (value : ν) : Expression ν :=
  e.modify id fun node =>
    { node with
      token := Content.token value, left := none, right := none, value := some value
      reduced := true, deferred := false, unary := false }

end Expression

end Stepwise
