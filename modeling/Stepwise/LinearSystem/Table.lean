import Stepwise.LinearSystem.Terms
import Stepwise.Matrix.Solution

/-! The table of coefficients: a column for every key that occurred, with one entry for each
equation. Solving a system collects the terms of its equations into a table, reduces the table as
an augmented matrix and writes a line for each variable. -/
namespace Stepwise.LinearSystem

structure Table where
  columns : List (Key × List Float) := []
  /-- The number of equations. -/
  equations : Nat := 0

namespace Table

/-- A column of zeros for a key that has none yet. -/
def ensure (table : Table) (key : Key) : Table :=
  if (table.columns.lookup key).isSome then table
  else { table with columns := table.columns ++ [(key, List.replicate table.equations 0.0)] }

/-- Adds an equation. Keys that it or the table lacks count as zero. -/
def push (table : Table) (terms : Terms) : Table :=
  let table := terms.foldl (fun table term => table.ensure term.1) table
  { columns := table.columns.map fun (key, column) => (key, column ++ [(terms.lookup key).getD 0.0])
    equations := table.equations + 1 }

/-- The letters that occurred, in the order of the alphabet. -/
def letters (table : Table) : List Char :=
  let letters := table.columns.filterMap fun (key, _) =>
    match key with
    | .letter name => some name
    | .constant => none
  letters.mergeSort fun a b => a ≤ b

def column? (table : Table) (key : Key) : Option (List Float) := table.columns.lookup key

/-- The augmented matrix: a column for each variable and the constants last. -/
def toMatrix (table : Table) : Except ComputationError Matrix :=
  let keys := table.letters.map Key.letter ++ [Key.constant]
  Matrix.ofRows ((List.range table.equations).map fun row =>
    keys.map fun key => ((table.column? key).bind (·[row]?)).getD 0.0)

end Table

/-- The terms of an equation given as text. -/
def termsOfText (equation : String) : Except Failure Terms :=
  match Expression.ofText equation with
  | .error error => .error (.grammar error)
  | .ok e =>
    match Formula.prepare e with
    | (e, .ok ()) => (collectTerms e).mapError .computation
    | (_, .error error) => .error (.computation error)

/-- The table of the given equations on top of those in `table`. -/
def Table.pushTexts (table : Table) : List String → Except Failure Table
  | [] => .ok table
  | equation :: rest =>
    match termsOfText equation with
    | .ok terms => (table.push terms).pushTexts rest
    | .error failure => .error failure

/-- One line for each variable of a system of equations. -/
def solve (equations : List String) : Except Failure (List String) :=
  if equations = [] then .error (.computation .emptySystem)
  else match Table.pushTexts {} equations with
    | .error failure => .error failure
    | .ok table =>
      match table.toMatrix with
      | .ok matrix => .ok (matrix.rref.generalSolution table.letters)
      | .error error => .error (.computation error)

end Stepwise.LinearSystem
