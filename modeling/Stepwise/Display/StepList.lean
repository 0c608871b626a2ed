import Stepwise.Display.Frame
import Stepwise.Display.Highlight
import Stepwise.Session.Entry

/-! The pane with the steps of an entry, each with its number, up to the current one. With the
last step a failure shows too. -/
namespace Stepwise.Display.StepList

def numberText (index : Nat) (current : Bool) : String :=
  (if current then "▶" else " ") ++ String.ofList ((toString index).toList.leftpad 3 ' ') ++ " "

def stepLine (index : Nat) (text : String) (current : Bool) : Line :=
  let content := Highlight.ofText text
  if current then
    ⟨numberText index true, { foreground := some Palette.secondary, bold := true }⟩ ::
      content.tinted { background := some Palette.current }
  else ⟨numberText index false, { foreground := some Palette.muted }⟩ :: content

def failureLine (failure : Failure) : Line :=
  [⟨" " ++ failure.line ++ " ",
    { foreground := some .white, background := some Palette.failure, bold := true }⟩]

def lines (entry : Entry) (step : Nat) : List Line :=
  let steps := (entry.steps.take (step + 1)).mapIdx fun index text =>
    stepLine index text (index = step)
  match entry.outcome with
  | .ok _ => steps
  | .error failure =>
    if entry.steps.length ≤ step + 1 then steps ++ [failureLine failure] else steps

/-- The first line on the screen, such that the last one is on it. Without an entry nothing
moves. -/
def offset (entry : Option Entry) (step height before : Nat) : Nat :=
  match entry with
  | none => before
  | some entry => (lines entry step).length - Frame.rowsInside height

def draw (entry : Option Entry) (step : Nat) (focused : Bool) (offset : Nat) (area : Area)
    (canvas : Canvas) : Canvas :=
  let frame : Frame := ⟨Palette.edge focused, [⟨" Steps ", {}⟩]⟩
  match entry with
  | none =>
    let canvas := canvas.tint area { foreground := some Palette.muted }
    (frame.draw area canvas).write area.inside [⟨"(type a request and press Enter)", {}⟩]
  | some entry => (frame.draw area canvas).writeLines area.inside ((lines entry step).drop offset)

end Stepwise.Display.StepList
