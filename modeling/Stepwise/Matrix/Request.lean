import Stepwise.Matrix.OfText
import Stepwise.Text.Split

/-! Matrix requests such as `2*I[1,2;3,4] + T[1,0;0,1]`: one or two operands, each a matrix with an
optional operation on it alone and an optional factor in front, and an operation between them. A
determinant makes its operand a number, which multiplies a matrix but cannot be added to one. -/
namespace Stepwise.Matrix

inductive UnaryOperation where
  | inverse
  | transpose
  | determinant
deriving DecidableEq, Repr

def UnaryOperation.ofText (text : String) : Except ComputationError UnaryOperation :=
  match Text.trim text with
  | "I" | "inv" | "inverse" => .ok .inverse
  | "T" | "transpose" => .ok .transpose
  | "D" | "det" | "determinant" => .ok .determinant
  | name => .error (.unknownMatrixOperator name)

inductive BinaryOperation where
  | add
  | subtract
  | multiply
deriving DecidableEq, Repr

def BinaryOperation.ofText (text : String) : Except ComputationError BinaryOperation :=
  match Text.trim text with
  | "+" | "add" => .ok .add
  | "-" | "sub" | "subtract" => .ok .subtract
  | "*" | "mul" | "multiply" => .ok .multiply
  | name => .error (.unknownMatrixOperator name)

def BinaryOperation.action : BinaryOperation → MatrixAction
  | add => .add
  | subtract => .subtract
  | multiply => .multiply

structure Operand where
  matrix : Matrix
  unary : Option UnaryOperation
  factor : Float

/-- What an operand amounts to. -/
inductive Value where
  | matrix (m : Matrix)
  | number (x : Float)

def Operand.value (operand : Operand) : Except ComputationError Value :=
  let scaled (m : Matrix) : Value :=
    .matrix (if operand.factor != 1.0 then m.scale operand.factor else m)
  match operand.unary with
  | none => .ok (scaled operand.matrix)
  | some .inverse => operand.matrix.inverse.map scaled
  | some .transpose => operand.matrix.transpose.map scaled
  | some .determinant => operand.matrix.determinant.map fun x => .number (x * operand.factor)

/-- An operation named by a text, none by a blank one. -/
def unaryOfText (text : String) : Except ComputationError (Option UnaryOperation) :=
  if (Text.trim text).isEmpty then .ok none else (UnaryOperation.ofText text).map some

/-- `factor*operation` in front of a matrix; either may be left out. -/
def Operand.ofText (text : String) : Except ComputationError Operand :=
  let malformed : ComputationError := .malformedLiteral .matrixOperand text
  let front := text.toList.takeWhile (· ≠ '[')
  let literal := text.toList.dropWhile (· ≠ '[')
  if literal.isEmpty then .error malformed
  else do
    let (factor, code) ← match Text.cut? "*" (String.ofList front) with
      | some (factor, code) =>
        match Decimal.read? (Text.trim factor) with
        | some x => .ok (x, code)
        | none => .error malformed
      | none => .ok (1.0, String.ofList front)
    let unary ← unaryOfText code
    let matrix ← Matrix.ofText (String.ofList literal)
    return { matrix, unary, factor }

structure Request where
  first : Operand
  second : Option (BinaryOperation × Operand)

namespace Request

/-- A request from three operation codes: on the first operand, between, and on the second. -/
def ofCodes (first : Matrix) (second : Option Matrix) (codes : String × String × String)
    (factors : Float × Float) : Except ComputationError Request := do
  let unary (code : String) : Except ComputationError (Option UnaryOperation) :=
    if Text.trim code = "N" then .ok none else unaryOfText code
  let firstUnary ← unary codes.1
  let first : Operand := ⟨first, firstUnary, factors.1⟩
  match second with
  | none => return { first, second := none }
  | some matrix =>
    let binary ← BinaryOperation.ofText codes.2.1
    let secondUnary ← unary codes.2.2
    return { first, second := some (binary, ⟨matrix, secondUnary, factors.2⟩) }

/-- The first operand ends with the first closing bracket; the operation is the next character
that is not blank. -/
def ofText (text : String) : Except ComputationError Request :=
  let trimmed := Text.trim text
  match Text.cut? "]" trimmed with
  | none => .error (.malformedLiteral .matrixRequest trimmed)
  | some (front, rest) => do
    let first ← Operand.ofText (front ++ "]")
    match Text.trimList rest.toList with
    | [] => return { first, second := none }
    | operation :: rest =>
      let binary ← BinaryOperation.ofText operation.toString
      let second ← Operand.ofText (String.ofList rest)
      return { first, second := some (binary, second) }

def combine (operation : BinaryOperation) : Value → Value → Except ComputationError Matrix
  | .matrix a, .matrix b =>
    match operation with
    | .add => a.add b
    | .subtract => a.sub b
    | .multiply => a.mul b
  | .number x, .number y =>
    .ok (scalar (match operation with
      | .add => x + y
      | .subtract => x - y
      | .multiply => x * y))
  | .number x, .matrix m | .matrix m, .number x =>
    match operation with
    | .multiply => .ok (m.scale x)
    | _ => .error (.mixedOperands operation.action)

/-- The answer to a request. A number comes back as a matrix of one entry. -/
def answer (request : Request) : Except ComputationError Matrix := do
  let first ← request.first.value
  match request.second with
  | none =>
    match first with
    | .matrix m => return m
    | .number x => return scalar x
  | some (operation, second) => combine operation first (← second.value)

end Request

end Stepwise.Matrix
