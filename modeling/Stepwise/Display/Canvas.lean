import Stepwise.Display.Line

/-! A rectangle of character cells. Drawing replaces the symbols of cells and lays styles over
theirs; what falls outside the canvas is lost. -/
namespace Stepwise.Display

structure Cell where
  symbol : Char := ' '
  style : Style := {}
deriving DecidableEq, Repr, Inhabited

def Cell.tint (cell : Cell) (style : Style) : Cell := { cell with style := style.onto cell.style }

structure Area where
  left : Nat
  top : Nat
  width : Nat
  height : Nat
deriving DecidableEq, Repr

/-- Rows of cells, from top to bottom. -/
abbrev Canvas := Array (Array Cell)

namespace Canvas

def blank (width height : Nat) : Canvas := Array.replicate height (Array.replicate width {})

def modifyCell (canvas : Canvas) (x y : Nat) (change : Cell → Cell) : Canvas :=
  canvas.modify y (·.modify x change)

/-- Lays a style over every cell of an area. -/
def tint (canvas : Canvas) (area : Area) (style : Style) : Canvas :=
  (List.range' area.top area.height).foldl (fun canvas y =>
    (List.range' area.left area.width).foldl (fun canvas x =>
      canvas.modifyCell x y (·.tint style)) canvas) canvas

def put (canvas : Canvas) (x y : Nat) (symbol : Char) (style : Style) : Canvas :=
  canvas.modifyCell x y fun cell => { cell.tint style with symbol }

/-- Writes glyphs from left to right. -/
def putGlyphs (canvas : Canvas) (x y : Nat) : List (Char × Style) → Canvas
  | [] => canvas
  | (symbol, style) :: rest => (canvas.put x y symbol style).putGlyphs (x + 1) y rest

/-- Writes a line into the first row of an area and cuts it off at the right. -/
def write (canvas : Canvas) (area : Area) (line : Line) : Canvas :=
  if area.height = 0 then canvas
  else canvas.putGlyphs area.left area.top (line.glyphs.take area.width)

/-- Writes a line so that it ends where the area does. One that is too long still starts at the
left and loses its end. -/
def writeAtRight (canvas : Canvas) (area : Area) (line : Line) : Canvas :=
  let room := area.width - line.glyphs.length
  canvas.write { area with left := area.left + room, width := area.width - room } line

/-- Writes lines below one another, as many as the area is high. -/
def writeLines (canvas : Canvas) (area : Area) : List Line → Canvas
  | [] => canvas
  | line :: rest =>
    match area.height with
    | 0 => canvas
    | height + 1 =>
      (canvas.write area line).writeLines { area with top := area.top + 1, height } rest

end Canvas

end Stepwise.Display
