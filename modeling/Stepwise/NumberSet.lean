import Stepwise.Matrix.OfText
import Stepwise.Text.Split

/-! Finite sets of numbers as lists in which the order of first occurrence is kept. Elements are
compared by numeric equality: zero has no sign, and NaN equals nothing. A set is written between
braces, its elements separated by commas. -/
namespace Stepwise.NumberSet

inductive Operation where
  | union
  | intersection
  | difference
deriving DecidableEq, Repr

def Operation.name : Operation → String
  | union => "union"
  | intersection => "intersection"
  | difference => "difference"

/-- An operation named in any letter case, or by its sign. -/
def Operation.ofText (text : String) : Except ComputationError Operation :=
  match String.ofList ((Text.trimList text.toList).map Char.toLower) with
  | "union" | "u" | "∪" => .ok .union
  | "intersection" | "n" | "∩" => .ok .intersection
  | "difference" | "-" => .ok .difference
  | name => .error (.unknownSetOperator name)

def insertNew (set : List Float) (x : Float) : List Float :=
  if set.contains x then set else set ++ [x]

/-- The elements of a list, each where it occurs first. -/
def distinct (items : List Float) : List Float := items.foldl insertNew []

/-- A union lists the left elements first. An intersection goes by the order of the right set, a
difference by that of the left. -/
def apply (operation : Operation) (a b : List Float) : List Float :=
  match operation with
  | .union => distinct (a ++ b)
  | .intersection => distinct (b.filter a.contains)
  | .difference => distinct (a.filter fun x => !b.contains x)

/-- The elements, without braces. -/
def elementsText (set : List Float) : String := String.intercalate ", " (set.map Decimal.sixPlaces)

def text (set : List Float) : String := "\x7b" ++ elementsText set ++ "\x7d"

def ofText (text : String) : Except ComputationError (List Float) :=
  let elements? := (Text.between? '\x7b' '\x7d' text).bind fun body =>
    Decimal.readAll? ((Text.split (· = ',') body).map Text.trim)
  match elements? with
  | some elements => .ok elements
  | none => .error (.malformedLiteral .set text)

structure Request where
  left : List Float
  operation : Operation
  right : List Float

/-- The left set ends with the first closing brace and the right one starts with the last opening
one; the operation is named between them. -/
def Request.ofText (text : String) : Except ComputationError Request :=
  let malformed : ComputationError := .malformedLiteral .setRequest text
  let characters := text.toList
  let left := characters.takeWhile (· ≠ '\x7d')
  let right := (characters.reverse.takeWhile (· ≠ '\x7b')).reverse
  if left.length < characters.length ∧ right.length < characters.length ∧
      left.length + 1 + right.length < characters.length then do
    let between := (characters.drop (left.length + 1)).take
      (characters.length - left.length - right.length - 2)
    let leftSet ← NumberSet.ofText (String.ofList (left ++ ['\x7d']))
    let operation ← Operation.ofText (String.ofList between)
    let rightSet ← NumberSet.ofText (String.ofList ('\x7b' :: right))
    return { left := leftSet, operation, right := rightSet }
  else .error malformed

def Request.answer (request : Request) : List Float :=
  apply request.operation request.left request.right

end Stepwise.NumberSet
