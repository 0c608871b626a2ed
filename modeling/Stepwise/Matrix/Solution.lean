import Stepwise.Matrix.RowReduction

/-! The solutions of a system given by an augmented matrix in reduced row-echelon form, its last
column holding the constants. A variable whose column has no leading entry is free; it becomes a
parameter, named by a letter that no variable has, from `z` down. Every other variable is written
in terms of the parameters. -/
namespace Stepwise.Matrix

def noSolution : String := "There are no solutions for the given system"

/-- The constant of an equation. -/
def constantOf (m : Matrix) (row : Nat) : Float := m.get row (m.cols - 1)

/-- The first of `n` columns in which a row is not zero. -/
def leadingColumn? (m : Matrix) (n row : Nat) : Option Nat :=
  (List.range n).find? fun col => m.get row col != 0.0

/-- Some equation asks for zero to be another number. -/
def isInconsistent (m : Matrix) (n : Nat) : Bool :=
  (List.range m.rows).any fun row => (m.leadingColumn? n row).isNone && m.constantOf row != 0.0

/-- The row whose leading entry stands in a column. -/
def basicRow? (m : Matrix) (n col : Nat) : Option Nat :=
  (List.range m.rows).reverse.find? fun row => m.leadingColumn? n row == some col

/-- Small letters that name no variable, from the end of the alphabet. -/
def freeLetters (letters : List Char) : List Char :=
  "zyxwvutsrqponmlkjihgfedcba".toList.filter fun c => !letters.contains c

/-- A name for each column that has no leading entry, letters first and then `t` with its number. -/
def nameParameters (letters : List Char) (columns : List (Nat × Option Nat)) : List (Option String) :=
  match columns with
  | [] => []
  | (_, some _) :: rest => none :: nameParameters letters rest
  | (col, none) :: rest =>
    match letters with
    | letter :: letters => some letter.toString :: nameParameters letters rest
    | [] => some s!"t{col + 1}" :: nameParameters [] rest

def parameterTerm (coef : Float) (parameter : String) : String :=
  if coef == 1.0 then parameter
  else if coef == -1.0 then "-" ++ parameter
  else Decimal.sixPlaces coef ++ parameter

/-- The right side of a variable with a leading entry in `row`. -/
def basicSide (m : Matrix) (row : Nat) (parameters : List (Option String)) : String :=
  let terms := parameters.zipIdx.filterMap fun (parameter, col) =>
    parameter.bind fun name =>
      let entry := m.get row col
      if entry != 0.0 then some (parameterTerm (-entry) name) else none
  let constant := m.constantOf row
  let terms := if constant != 0.0 then terms ++ [Decimal.sixPlaces constant] else terms
  if terms.isEmpty then "0" else String.intercalate " + " terms

/-- One line for each variable, or the one line that says that there is no solution. -/
def generalSolution (m : Matrix) (letters : List Char) : List String :=
  let n := min letters.length (m.cols - 1)
  if m.isInconsistent n then [noSolution]
  else
    let basic := (List.range n).map fun col => (col, m.basicRow? n col)
    let parameters := nameParameters (freeLetters letters) basic
    (letters.zip (basic.zip parameters)).map fun (name, (_, row), parameter) =>
      let side := match parameter, row with
        | some parameter, _ => parameter
        | none, some row => m.basicSide row parameters
        | none, none => "0"
      name.toString ++ " = " ++ side

end Stepwise.Matrix
