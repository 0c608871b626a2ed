import Stepwise.Display.Canvas

/-! The bar at the foot of the screen: on the left the current step and a message, on the right
the keys and the state of the playback. -/
namespace Stepwise.Display.StatusBar

/-- What the bar tells. The steps are counted from zero; there are none without an entry. -/
structure Status where
  message : String
  step : Nat
  stepCount : Nat
  failed : Bool
  playing : Bool

def stepText (status : Status) : String :=
  if status.stepCount = 0 then " Step -/- " else s!" Step {status.step + 1}/{status.stepCount} "

def onBar (foreground : Color) : Style :=
  { foreground := some foreground, background := some Palette.current }

def badge (text : String) (background : Color) : Span :=
  ⟨text, { foreground := some .black, background := some background, bold := true }⟩

def message (status : Status) : Line :=
  [badge (stepText status) (if status.failed then Palette.failure else Palette.primary),
    ⟨" | ", onBar Palette.muted⟩,
    ⟨" " ++ status.message ++ " ", onBar (if status.failed then Palette.failure else Palette.text)⟩]

def bindings : List (String × String) :=
  [("⇥", "mode"), ("↵", "compute"), ("←/→", "step"), ("⇱/⇲", "first/last"), ("⎵", "play"),
   ("↑/↓", "history"), ("esc", "quit")]

def separator : Span := ⟨"│", onBar Palette.muted⟩

def binding (key action : String) : Line :=
  [⟨" " ++ key ++ " ", { foreground := some .black, background := some Palette.muted }⟩,
    ⟨" " ++ action ++ " ", onBar Palette.text⟩]

def keys : Line :=
  List.intercalate [separator, ⟨" ", onBar Palette.text⟩]
    (bindings.map fun (key, action) => binding key action)

def position? (status : Status) : Option Span :=
  if status.playing then some (badge " ▶ PLAYING " Palette.secondary)
  else if status.stepCount = 0 then none
  else if status.stepCount ≤ status.step + 1 then some (badge " END " Palette.failure)
  else if status.step = 0 then some (badge " START " Palette.success)
  else none

def help (status : Status) : Line :=
  keys ++ match position? status with
    | some position => [separator, position]
    | none => []

/-- The message has forty-five hundredths of the width, rounded with a half going up. -/
def draw (status : Status) (area : Area) (canvas : Canvas) : Canvas :=
  let width := (45 * area.width + 50) / 100
  let left : Area := { area with width }
  let right : Area := { area with left := area.left + width, width := area.width - width }
  let canvas := canvas.tint area { background := some Palette.current }
  (canvas.write left (message status)).writeAtRight right (help status)

end Stepwise.Display.StatusBar
