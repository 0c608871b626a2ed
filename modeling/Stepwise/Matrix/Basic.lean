import Stepwise.Decimal.Fixed
import Stepwise.Failure

/-! Dense matrices of doubles, stored by rows. Each operation says entry by entry what its result
holds. A determinant is expanded along its first row, an inverse is the transposed matrix of
cofactors over the determinant, and sums are taken from left to right. -/
namespace Stepwise

structure Matrix where
  rows : Nat
  cols : Nat
  data : Array Float
  size_data : data.size = rows * cols

namespace Matrix

def ofFn (rows cols : Nat) (entry : Nat → Nat → Float) : Matrix :=
  ⟨rows, cols, Array.ofFn fun i : Fin (rows * cols) => entry (i / cols) (i % cols), by simp⟩

instance : Inhabited Matrix := ⟨ofFn 0 0 fun _ _ => 0.0⟩

/-- Entries are counted from zero; outside the matrix they are zero. -/
def get (m : Matrix) (row col : Nat) : Float := m.data.getD (row * m.cols + col) 0.0

def row (m : Matrix) (i : Nat) : List Float := (List.range m.cols).map (m.get i)

def toRows (m : Matrix) : List (List Float) := (List.range m.rows).map m.row

def zeros (rows cols : Nat) : Matrix := ofFn rows cols fun _ _ => 0.0

def identity (n : Nat) : Matrix := ofFn n n fun i j => if i = j then 1.0 else 0.0

def scalar (x : Float) : Matrix := ofFn 1 1 fun _ _ => x

def IsSquare (m : Matrix) : Prop := m.rows = m.cols

instance (m : Matrix) : Decidable m.IsSquare := inferInstanceAs (Decidable (_ = _))

/-- Rows as they are listed in the report that they do not form a matrix. -/
def listing (rows : List (List Float)) : String :=
  let bracketed (items : List String) : String := "[" ++ String.intercalate ", " items ++ "]"
  bracketed (rows.map fun row => bracketed (row.map Decimal.inListing.write))

/-- Rows of one length other than zero form a matrix. -/
def ofRows (rows : List (List Float)) : Except ComputationError Matrix :=
  let cols := (rows.head?.map List.length).getD 0
  if cols = 0 ∨ rows.any (·.length ≠ cols) then .error (.malformedLiteral .matrix (listing rows))
  else
    let entries := (rows.map List.toArray).toArray
    .ok (ofFn rows.length cols fun i j => (entries.getD i #[]).getD j 0.0)

def mismatch (a b : Matrix) (action : MatrixAction) : ComputationError :=
  .dimensionMismatch action a.rows a.cols b.rows b.cols

def zipWith (a b : Matrix) (action : MatrixAction) (f : Float → Float → Float) :
    Except ComputationError Matrix :=
  if a.rows = b.rows ∧ a.cols = b.cols then
    .ok (ofFn a.rows a.cols fun i j => f (a.get i j) (b.get i j))
  else .error (a.mismatch b action)

def add (a b : Matrix) : Except ComputationError Matrix := a.zipWith b .add (· + ·)

def sub (a b : Matrix) : Except ComputationError Matrix := a.zipWith b .subtract (· - ·)

/-- The products along a row of `a` and a column of `b`, added from left to right. -/
def dot (a b : Matrix) (i j : Nat) : Float :=
  (List.range a.cols).foldl (fun sum k => sum + a.get i k * b.get k j) (-0.0)

def mul (a b : Matrix) : Except ComputationError Matrix :=
  if a.cols = b.rows then .ok (ofFn a.rows b.cols (a.dot b)) else .error (a.mismatch b .multiply)

def scale (m : Matrix) (factor : Float) : Matrix :=
  ofFn m.rows m.cols fun i j => m.get i j * factor

def requireSquare (m : Matrix) (action : MatrixAction) : Except ComputationError Unit :=
  if m.IsSquare then .ok () else .error (.notSquare action m.rows m.cols)

def transpose (m : Matrix) : Except ComputationError Matrix := do
  m.requireSquare .transpose
  return ofFn m.cols m.rows fun i j => m.get j i

/-- The matrix without one row and one column. -/
def minor (m : Matrix) (row col : Nat) : Matrix :=
  let past (cut i : Nat) : Nat := if i < cut then i else i + 1
  ofFn (m.rows - 1) (m.cols - 1) fun i j => m.get (past row i) (past col j)

/-- The sign of the cofactor at an entry. -/
def sign (row col : Nat) : Float := if (row + col) % 2 = 0 then 1.0 else -1.0

/-- The cofactor of an entry that is counted from one, with the determinant of the minor as `expand`
finds it. -/
def cofactorBy (expand : Matrix → Except ComputationError Float) (m : Matrix) (row col : Nat) :
    Except ComputationError Float := do
  m.requireSquare .cofactor
  if m.rows < 3 then .error (.matrixTooSmall .cofactor m.rows 3)
  else if row < 1 ∨ m.rows < row ∨ col < 1 ∨ m.rows < col then
    .error (.indexOutOfRange row col m.rows)
  else
    let minor := m.minor (row - 1) (col - 1)
    minor.requireSquare .determinant
    return sign row col * (← expand minor)

/-- The determinant of a square matrix with `n` rows, expanded along the first. -/
def expand : Nat → Matrix → Except ComputationError Float
  | 0, _ => .ok 1.0
  | 1, m => .ok (m.get 0 0)
  | 2, m => .ok (m.get 0 0 * m.get 1 1 - m.get 0 1 * m.get 1 0)
  | n + 3, m =>
    (List.range (n + 3)).foldlM (fun sum col => do
      return sum + m.get 0 col * (← m.cofactorBy (expand (n + 2)) 1 (col + 1))) 0.0

def determinant (m : Matrix) : Except ComputationError Float := do
  m.requireSquare .determinant
  expand m.rows m

/-- The cofactor of an entry that is counted from one. -/
def cofactor (m : Matrix) (row col : Nat) : Except ComputationError Float :=
  m.cofactorBy (expand (m.rows - 1)) row col

/-- The transposed matrix of cofactors. -/
def adjugate (m : Matrix) : Except ComputationError Matrix := do
  let cofactors ← (List.range m.rows).mapM fun row =>
    (List.range m.rows).mapM fun col => m.cofactor (row + 1) (col + 1)
  return ofFn m.rows m.rows fun i j => (cofactors.getD j []).getD i 0.0

/-- Small matrices have no cofactors; theirs are inverted by a formula of their own. -/
def inverse (m : Matrix) : Except ComputationError Matrix := do
  m.requireSquare .inverse
  let determinant ← m.determinant
  if determinant == 0.0 then .error .singularMatrix
  else match m.rows with
    | 1 => return scalar (1.0 / determinant)
    | 2 =>
      let swapped := ofFn 2 2 fun i j => if i = j then m.get (1 - i) (1 - j) else -m.get i j
      return swapped.scale (1.0 / determinant)
    | _ => return (← m.adjugate).scale (1.0 / determinant)

def text (m : Matrix) : String :=
  let rowText (row : List Float) : String := String.intercalate "," (row.map Decimal.sixPlaces)
  "[" ++ String.intercalate ";" (m.toRows.map rowText) ++ "]"

end Matrix

end Stepwise
