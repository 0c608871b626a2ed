import Stepwise.Display.Frame
import Stepwise.Display.Highlight
import Stepwise.Session.Mode

/-! The pane in which a request is typed. The title of its frame names the modes. -/
namespace Stepwise.Display.RequestLine

def tab (mode current : Mode) : Span :=
  ⟨" " ++ mode.name ++ " ",
    if mode = current then
      { foreground := some .black, background := some Palette.primary, bold := true }
    else { foreground := some Palette.muted }⟩

def title (current : Mode) : Line :=
  ⟨" ", {}⟩ :: Mode.all.flatMap fun mode => [tab mode current, ⟨" ", {}⟩]

def cursor : Span := ⟨"█", { foreground := some Palette.secondary, blinking := true }⟩

/-- The request and the cursor, or an example of one behind the cursor. -/
def line (mode : Mode) (input : String) : Line :=
  let mark : Span := ⟨"> ", { foreground := some Palette.secondary }⟩
  if input.isEmpty then
    [mark, cursor, ⟨" " ++ mode.placeholder, { foreground := some Palette.muted }⟩]
  else mark :: Highlight.ofText input ++ [cursor]

def draw (mode : Mode) (input : String) (area : Area) (canvas : Canvas) : Canvas :=
  let frame : Frame := ⟨Palette.edge true, title mode⟩
  (frame.draw area canvas).write area.inside (line mode input)

end Stepwise.Display.RequestLine
