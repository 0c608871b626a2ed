import Stepwise.Session.History
import Stepwise.Session.Notice

/-! A session: a line on which a request is typed, the history of computed requests, and one of
them shown up to one of its steps. Keys and the ticks of a playback move it on. -/
namespace Stepwise

inductive Key where
  | escape
  | tab
  | backTab
  | enter
  | left
  | right
  | home
  | endKey
  | up
  | down
  | backspace
  | character (c : Char)
  /-- A character typed with the control key held. -/
  | control (c : Char)
  | other
deriving DecidableEq, Repr

structure Session where
  history : History
  mode : Mode := .expression
  input : String := ""
  /-- The entry shown. -/
  selected : Option Nat := none
  /-- The last step shown of that entry. -/
  step : Nat := 0
  /-- The history is in focus, not the steps. -/
  browsing : Bool := false
  /-- The first step on the screen when it was last drawn. -/
  stepsOffset : Nat := 0
  /-- The first entry of the history on the screen when it was last drawn. -/
  historyOffset : Nat := 0
  finished : Bool := false
  notice : Notice := .ready
  playing : Bool := false

namespace Session

def start (limit : Nat) : Session := { history := .empty limit }

def entry? (s : Session) : Option Entry := s.selected.bind s.history.get?

/-- How many steps the entry shown has. -/
def stepCount (s : Session) : Nat := (s.entry?.map (·.steps.length)).getD 0

def lastStep (s : Session) : Nat := s.stepCount - 1

/-- Shows an entry at its last step. -/
def select (s : Session) (index : Nat) : Session :=
  let s := { s with selected := some index }
  { s with step := s.lastStep }

def switch (s : Session) (mode : Mode) : Session := { s with mode, notice := .switched mode }

/-- Computes the request on the input line, which is then empty. -/
def compute (s : Session) : Session :=
  let s := { s with playing := false, browsing := false }
  if (Text.trim s.input).isEmpty then { s with notice := .nothingToCompute }
  else
    let entry := Entry.compute s.mode s.input
    let notice := match entry.outcome with
      | .ok answer => .answered answer
      | .error failure => .refused failure
    let history := s.history.push entry
    { s with history, notice, input := "" }.select (history.size - 1)

/-- Turns from the playback and the history to the steps. -/
def focusSteps (s : Session) : Session := { s with playing := false, browsing := false }

def stepForward (s : Session) : Session :=
  if s.step < s.lastStep then { s with step := s.step + 1, notice := .steppedForward }
  else { s with notice := .atLastStep }

def stepBackward (s : Session) : Session :=
  if 0 < s.step then { s with step := s.step - 1, notice := .steppedBackward }
  else { s with notice := .atFirstStep }

def jumpToFirst (s : Session) : Session :=
  { s with playing := false, step := 0, notice := .jumpedToFirst }

def jumpToLast (s : Session) : Session :=
  { s with playing := false, step := s.lastStep, notice := .jumpedToLast }

/-- Shows another entry, the newest if none is shown yet, and puts its request on the input line. -/
def browse (s : Session) (move : Nat → Nat) : Session :=
  let last := s.history.size - 1
  let target := match s.selected with
    | some index => min (move index) last
    | none => last
  match s.history.get? target with
  | none => s
  | some entry =>
    let notice := .recalled (target + 1) s.history.size
    { s with playing := false, browsing := true, mode := entry.mode, input := entry.input,
             notice }.select target

/-- Starts or stops the playback. From the last step it starts over. -/
def togglePlayback (s : Session) : Session :=
  if s.entry?.isNone then s
  else if s.playing then { s with playing := false, notice := .paused }
  else
    let step := if s.step < s.lastStep then s.step else 0
    { s with playing := true, step, notice := .playing }

/-- A blank typed on an empty input line is the key for the playback. -/
def type (s : Session) (c : Char) : Session :=
  if c = ' ' ∧ s.input.isEmpty then s.togglePlayback
  else { s with browsing := false, input := s.input.push c }

def eraseLast (s : Session) : Session :=
  { s with input := String.ofList s.input.toList.dropLast }

def press (s : Session) : Key → Session
  | .escape => { s with finished := true }
  | .tab => s.switch s.mode.next
  | .backTab => s.switch s.mode.previous
  | .enter => s.compute
  | .left => s.focusSteps.stepBackward
  | .right => s.focusSteps.stepForward
  | .home => s.jumpToFirst
  | .endKey => s.jumpToLast
  | .up => s.browse (· - 1)
  | .down => s.browse (· + 1)
  | .backspace => s.eraseLast
  | .character c => s.type c
  | .control c => if c = 'c' then { s with finished := true } else s.type c
  | .other => s

/-- The next step of a playback, which ends behind the last one. -/
def tick (s : Session) : Session :=
  if s.step < s.lastStep then { s with step := s.step + 1, notice := .playing }
  else { s with playing := false, notice := .played }

end Session

end Stepwise
