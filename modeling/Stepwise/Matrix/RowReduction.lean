import Stepwise.Matrix.Basic

/-! Reduced row-echelon form. Columns are cleared below their pivot from left to right, the pivot
being the entry of the greatest magnitude and of those the last; then pivots are made one, and
last the columns are cleared above their pivots from the bottom up. A row that was scaled or added
to has its entries below `rowEpsilon` in magnitude set to zero. -/
namespace Stepwise.Matrix

def rowEpsilon : Float := 1e-4

def snap (x : Float) : Float := if x.abs < rowEpsilon then 0.0 else x

def swapRows (m : Matrix) (a b : Nat) : Matrix :=
  ofFn m.rows m.cols fun i j => m.get (if i = a then b else if i = b then a else i) j

def scaleRow (m : Matrix) (row : Nat) (factor : Float) : Matrix :=
  ofFn m.rows m.cols fun i j => if i = row then snap (m.get i j * factor) else m.get i j

/-- Adds a multiple of one row to another. -/
def addRow (m : Matrix) (target source : Nat) (factor : Float) : Matrix :=
  ofFn m.rows m.cols fun i j =>
    if i = target then snap (m.get i j + factor * m.get source j) else m.get i j

/-- Adds a multiple of one row to another unless the factor is zero. -/
def addRowUnlessZero (m : Matrix) (target source : Nat) (factor : Float) : Matrix :=
  if factor != 0.0 then m.addRow target source factor else m

/-- Magnitudes are ordered like the bits of their doubles; NaN is above infinity. -/
def magnitude (x : Float) : Nat := x.abs.toBits.toNat

/-- The row of the greatest magnitude in a column, from row `first` down; of several the last. -/
def pivotRow (m : Matrix) (first col : Nat) : Nat :=
  (List.range' first (m.rows - first)).foldl
    (fun best row => if magnitude (m.get best col) ≤ magnitude (m.get row col) then row else best) first

def clearBelow (m : Matrix) (row col : Nat) : Matrix :=
  (List.range' (row + 1) (m.rows - (row + 1))).foldl
    (fun m below => m.addRowUnlessZero below row (-m.get below col / m.get row col)) m

def clearAbove (m : Matrix) (row col : Nat) : Matrix :=
  (List.range row).foldl (fun m above => m.addRowUnlessZero above row (-m.get above col)) m

def normalizePivot (m : Matrix) (row col : Nat) : Matrix :=
  let lead := m.get row col
  if lead != 1.0 then m.scaleRow row (1.0 / lead) else m

/-- A matrix on the way to echelon form and its pivots so far, the last one first. -/
structure Elimination where
  matrix : Matrix
  pivots : List (Nat × Nat)

/-- Finds the pivot of a column, if it has one, and clears the column below it. -/
def Elimination.column (e : Elimination) (col : Nat) : Elimination :=
  let row := e.pivots.length
  if e.matrix.rows ≤ row then e
  else
    let best := e.matrix.pivotRow row col
    if e.matrix.get best col == 0.0 then e
    else ⟨(e.matrix.swapRows row best).clearBelow row col, (row, col) :: e.pivots⟩

def eliminate (m : Matrix) : Elimination :=
  (List.range m.cols).foldl Elimination.column ⟨m, []⟩

/-- Zeros lose their sign. -/
def unsignedZeros (m : Matrix) : Matrix :=
  ofFn m.rows m.cols fun i j => if m.get i j == 0.0 then 0.0 else m.get i j

def rref (m : Matrix) : Matrix :=
  let e := m.eliminate
  let scaled := e.pivots.reverse.foldl (fun m pivot => m.normalizePivot pivot.1 pivot.2) e.matrix
  (e.pivots.foldl (fun m pivot => m.clearAbove pivot.1 pivot.2) scaled).unsignedZeros

end Stepwise.Matrix
