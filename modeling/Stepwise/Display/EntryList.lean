import Stepwise.Display.Frame
import Stepwise.Session.History

/-! The pane with the computed requests, oldest first. It scrolls only as far as it has to for
the selected entry to be on the screen. -/
namespace Stepwise.Display.EntryList

/-- The first of `count` entries on the screen, where it was `before`. Without an entry nothing
moves. -/
def offset (count : Nat) (selected : Option Nat) (height before : Nat) : Nat :=
  let room := Frame.rowsInside height
  let wanted := match selected with
    | none => before
    | some index =>
      if index < before then index
      else if before + room ≤ index then index + 1 - room
      else before
  if count = 0 then before else min wanted (count - room)

def rowStyle (entry : Entry) (selected : Bool) : Style :=
  { foreground := some (if entry.failed then Palette.failure else Palette.text)
    background := if selected then some Palette.current else none
    bold := selected }

/-- The rows of an entry. A request of several lines takes several rows. -/
def rows (entry : Entry) (selected : Bool) : List Span :=
  (Text.split (· = '\n') ("[" ++ entry.mode.name ++ "] " ++ entry.summary)).map
    fun text => ⟨text, rowStyle entry selected⟩

/-- The rows of the first entries, as far as there is room for whole entries. -/
def fitting (room : Nat) : List (List Span) → List Span
  | [] => []
  | entry :: rest =>
    if entry.length ≤ room then entry ++ fitting (room - entry.length) rest else []

/-- A row has its style over the full width. -/
def drawRows (area : Area) (canvas : Canvas) : List Span → Canvas
  | [] => canvas
  | row :: rest =>
    let canvas := (canvas.tint { area with height := 1 } row.style).write area [row]
    drawRows { area with top := area.top + 1 } canvas rest

def draw (history : History) (selected : Option Nat) (focused : Bool) (offset : Nat) (area : Area)
    (canvas : Canvas) : Canvas :=
  let title := s!" History ({history.size}/{history.limit}) "
  let frame : Frame := ⟨Palette.edge focused, [⟨title, {}⟩]⟩
  if history.isEmpty then
    let canvas := canvas.tint area { foreground := some Palette.muted }
    (frame.draw area canvas).write area.inside [⟨"(no history)", {}⟩]
  else
    let inside := area.inside
    let inside := { inside with left := inside.left + 1, width := inside.width - 1 }
    let listed := history.entries.mapIdx fun index entry => rows entry (selected = some index)
    drawRows inside (frame.draw area canvas) (fitting inside.height (listed.drop offset))

end Stepwise.Display.EntryList
