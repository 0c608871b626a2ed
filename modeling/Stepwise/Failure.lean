import Stepwise.Decimal.Shortest

/-! Why a request cannot be answered. A text may not split into tokens, the tokens may not form an
expression, or the computation may have no result. Each cause is a constructor; its wording is
given once, in `message`. -/
namespace Stepwise

inductive LexicalError where
  | invalidCharacter (character : Char) (position : Nat)
  | invalidNumber (text : String) (position : Nat)
  | invalidIdentifier (name : String) (position : Nat)
deriving DecidableEq, Repr

def LexicalError.message : LexicalError → String
  | invalidCharacter character position => s!"Character {character} is invalid (position {position})"
  | invalidNumber text position => s!"Invalid number '{text}' at position {position}"
  | invalidIdentifier name position => s!"Invalid variable name '{name}' at position {position}"

/-- What is wrong at one token of an expression. -/
inductive Misplacement where
  | closingBracket
  | operatorExpectedBefore (text : String)
  | bracketExpectedAfter (text : String)
  | operandExpectedBefore (text : String)
  | operandExpected
deriving DecidableEq, Repr

def Misplacement.message : Misplacement → String
  | closingBracket => "unexpected ')'"
  | operatorExpectedBefore text => s!"operator expected before '{text}'"
  | bracketExpectedAfter text => s!"'(' expected after '{text}'"
  | operandExpectedBefore text => s!"operand expected before '{text}'"
  | operandExpected => "operand expected"

inductive GrammarError where
  | lexical (error : LexicalError)
  | unclosedBracket
  /-- The position is absent when the offending token is not in the text. -/
  | invalidExpression (fault : Misplacement) (position : Option Nat)
  | nestingTooDeep (limit : Nat)
deriving DecidableEq, Repr

def GrammarError.message : GrammarError → String
  | lexical error => error.message
  | unclosedBracket => "Closing Bracket is Missing"
  | invalidExpression fault _ => "Invalid Expression: " ++ fault.message
  | nestingTooDeep limit => s!"Brackets are nested deeper than {limit} levels"

inductive MatrixAction where
  | add
  | subtract
  | multiply
  | transpose
  | cofactor
  | determinant
  | inverse
deriving DecidableEq, Repr

def MatrixAction.name : MatrixAction → String
  | add => "add"
  | subtract => "subtract"
  | multiply => "multiply"
  | transpose => "transpose"
  | cofactor => "cofactor"
  | determinant => "determinant"
  | inverse => "inverse"

/-- The kinds of text that a matrix or set request is made of. -/
inductive Literal where
  | matrix
  | matrixOperand
  | matrixRequest
  | set
  | setRequest
deriving DecidableEq, Repr

def Literal.name : Literal → String
  | matrix => "matrix"
  | matrixOperand => "matrix operand"
  | matrixRequest => "matrix request"
  | set => "set"
  | setRequest => "set request"

inductive ComputationError where
  | dimensionMismatch (action : MatrixAction) (leftRows leftCols rightRows rightCols : Nat)
  | notSquare (action : MatrixAction) (rows cols : Nat)
  | matrixTooSmall (action : MatrixAction) (size minimum : Nat)
  | indexOutOfRange (row col size : Nat)
  | singularMatrix
  | factorialDomain (value : Float)
  | factorialTooLarge (value : Float) (limit : Nat)
  | zeroDenominator
  | nonFinite (operation : String)
  | nonLinear (term : String)
  | mixedOperands (action : MatrixAction)
  | nonNumericResult (line : String)
  | emptySystem
  | unknownSetOperator (name : String)
  | unknownMatrixOperator (name : String)
  | malformedLiteral (literal : Literal) (text : String)

def ComputationError.message : ComputationError → String
  | dimensionMismatch action leftRows leftCols rightRows rightCols =>
    s!"Cannot {action.name} a {leftRows}x{leftCols} matrix and a {rightRows}x{rightCols} matrix"
  | notSquare action rows cols => s!"{action.name} requires a square matrix, got {rows}x{cols}"
  | matrixTooSmall action size minimum =>
    s!"{action.name} requires at least a {minimum}x{minimum} matrix, got {size}x{size}"
  | indexOutOfRange row col size => s!"Entry ({row}, {col}) is outside a {size}x{size} matrix"
  | singularMatrix => "Matrix is singular (determinant is 0), no inverse exists"
  | factorialDomain value =>
    "Factorial is only defined for whole numbers >= 0, got " ++ Decimal.inMessage.write value
  | factorialTooLarge value limit =>
    "Factorial of " ++ Decimal.inMessage.write value ++ s!" is too large (limit is {limit})"
  | zeroDenominator => "Denominator cannot be 0"
  | nonFinite operation => s!"Result of {operation} is undefined"
  | nonLinear term => s!"'{term}' is not a linear term"
  | mixedOperands action => s!"Cannot {action.name} matrix to number"
  | nonNumericResult line => s!"'{line}' does not evaluate to a number"
  | emptySystem => "No equations were given"
  | unknownSetOperator name => s!"Unknown set operator '{name}'"
  | unknownMatrixOperator name => s!"Unknown matrix operator '{name}'"
  | malformedLiteral literal text => s!"Malformed {literal.name} '{text}'"

/-- Why a whole request failed. -/
inductive Failure where
  | grammar (error : GrammarError)
  | computation (error : ComputationError)

namespace Failure

def message : Failure → String
  | grammar error => error.message
  | computation error => error.message

def category : Failure → String
  | grammar (.lexical _) => "Lex error"
  | grammar _ => "Parse error"
  | computation _ => "Compute error"

/-- Category and wording on one line. -/
def line (failure : Failure) : String := failure.category ++ ": " ++ failure.message

end Failure

end Stepwise
