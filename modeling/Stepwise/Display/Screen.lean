import Stepwise.Display.EntryList
import Stepwise.Display.RequestLine
import Stepwise.Display.StatusBar
import Stepwise.Display.StepList
import Stepwise.Session.Basic

/-! The whole screen of a session: the request line above, the status bar below, and between them
the steps beside the history. -/
namespace Stepwise.Display

structure Layout where
  request : Area
  steps : Area
  history : Area
  status : Area

/-- The steps have sixty-five hundredths of the width, rounded with a half going up. -/
def Layout.ofSize (width height : Nat) : Layout :=
  let requestHeight := min 3 height
  let statusHeight := min 1 (height - requestHeight)
  let middle := height - requestHeight - statusHeight
  let stepsWidth := (65 * width + 50) / 100
  { request := ⟨0, 0, width, requestHeight⟩
    steps := ⟨0, requestHeight, stepsWidth, middle⟩
    history := ⟨stepsWidth, requestHeight, width - stepsWidth, middle⟩
    status := ⟨0, requestHeight + middle, width, statusHeight⟩ }

def status (s : Session) : StatusBar.Status where
  message := s.notice.message
  step := s.step
  stepCount := s.stepCount
  failed := (s.entry?.map Entry.failed).getD false
  playing := s.playing

/-- The session with its panes scrolled to what they have to show at the given heights. -/
def scrollPanes (s : Session) (stepsHeight historyHeight : Nat) : Session :=
  let stepsOffset := StepList.offset s.entry? s.step stepsHeight s.stepsOffset
  let historyOffset := EntryList.offset s.history.size s.selected historyHeight s.historyOffset
  { s with stepsOffset, historyOffset }

def scroll (s : Session) (width height : Nat) : Session :=
  let layout := Layout.ofSize width height
  scrollPanes s layout.steps.height layout.history.height

/-- The screen of a session that is scrolled for it. -/
def screen (s : Session) (width height : Nat) : Canvas :=
  let layout := Layout.ofSize width height
  Canvas.blank width height
    |> RequestLine.draw s.mode s.input layout.request
    |> StepList.draw s.entry? s.step (!s.browsing) s.stepsOffset layout.steps
    |> EntryList.draw s.history s.selected s.browsing s.historyOffset layout.history
    |> StatusBar.draw (status s) layout.status

end Stepwise.Display
