import Stepwise.Display.Canvas

/-! A frame around a pane. It takes one cell on each side; its title is written into the upper
edge. -/
namespace Stepwise.Display

/-- An area without the cells on its edge. -/
def Area.inside (area : Area) : Area :=
  ⟨area.left + 1, area.top + 1, area.width - 2, area.height - 2⟩

/-- A frame around a pane, with a title in its upper edge. -/
structure Frame where
  style : Style
  title : Line

namespace Frame

/-- The room for a pane of some height within its frame; at least one row counts as shown. -/
def rowsInside (height : Nat) : Nat := max (height - 2) 1

/-- The line drawn at a place on the edge of an area. -/
def symbol? (area : Area) (x y : Nat) : Option Char :=
  let right := area.left + area.width - 1
  let bottom := area.top + area.height - 1
  if x = area.left then
    some (if y = area.top then '┌' else if y = bottom then '└' else '│')
  else if x = right then
    some (if y = area.top then '┐' else if y = bottom then '┘' else '│')
  else if y = area.top ∨ y = bottom then some '─'
  else none

def drawEdge (frame : Frame) (area : Area) (canvas : Canvas) : Canvas :=
  (List.range' area.top area.height).foldl (fun canvas y =>
    (List.range' area.left area.width).foldl (fun canvas x =>
      match symbol? area x y with
      | some symbol => canvas.put x y symbol frame.style
      | none => canvas) canvas) canvas

/-- The title starts at the second cell and leaves the corner free. -/
def draw (frame : Frame) (area : Area) (canvas : Canvas) : Canvas :=
  (frame.drawEdge area canvas).write
    { area with left := area.left + 1, width := area.width - 2 } frame.title

end Frame

end Stepwise.Display
