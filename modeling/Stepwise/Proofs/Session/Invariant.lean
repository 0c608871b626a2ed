import Mathlib
import Stepwise.Session.Basic

/-! What holds of a session whatever keys are pressed and however often the playback ticks. Main
statement: the history holds the newest of the entries computed so far, the entry shown is one of
them, the step shown is one of its steps, and moving in the history puts the request of the entry
shown back on the input line. -/
namespace Stepwise

/-- The history holds the newest entries of a log, as many as there is room for. -/
structure History.Keeps (history : History) (limit : Nat) (log : List Entry) : Prop where
  room : history.limit = limit
  newest : history.entries <:+ log
  size : history.size = min log.length limit

namespace History.Keeps
variable {history : History} {limit : Nat} {log : List Entry}

theorem empty (limit : Nat) : (History.empty limit).Keeps (max limit 1) [] :=
  ⟨rfl, List.suffix_refl _, by simp [History.size, History.empty]⟩

theorem push (keeps : history.Keeps limit log) (entry : Entry) :
    (history.push entry).Keeps limit (log ++ [entry]) where
  room := keeps.room
  newest := by
    have behind : history.entries ++ [entry] <:+ log ++ [entry] := by
      obtain ⟨before, split⟩ := keeps.newest
      exact ⟨before, by rw [← split, List.append_assoc]⟩
    exact (List.drop_suffix _ _).trans behind
  size := by
    have size : history.entries.length = min log.length limit := keeps.size
    have room := history.limit_pos
    simp only [History.size, History.push, History.newest, keeps.room, List.length_drop, List.length_append,
      List.length_singleton]
    rw [keeps.room] at room
    omega

end History.Keeps

namespace Session

inductive Event where
  | key (key : Key)
  | tick

def handle (s : Session) : Event → Session
  | .key key => s.press key
  | .tick => s.tick

def after (s : Session) (events : List Event) : Session := events.foldl handle s

/-- The entry that an event adds to the history: the request on the input line, if there is one. -/
def computed? (s : Session) : Event → Option Entry
  | .key .enter => if (Text.trim s.input).isEmpty then none else some (Entry.compute s.mode s.input)
  | _ => none

/-- The entries computed on the way, oldest first, those that the history has dropped included. -/
def computed (s : Session) : List Event → List Entry
  | [] => []
  | event :: rest => (s.computed? event).toList ++ (s.handle event).computed rest

/-- A session whose history holds the newest entries of a log, and which shows one of them at one of
its steps. -/
structure Sound (limit : Nat) (log : List Entry) (s : Session) : Prop where
  history : s.history.Keeps (max limit 1) log
  selected : ∀ index ∈ s.selected, index < s.history.size
  step : s.step = 0 ∨ s.step < s.stepCount
  playing : s.playing → s.selected.isSome
  browsing : s.browsing → s.selected.isSome

/-- The history is in focus, and the request of the entry shown is on the input line, in its mode. -/
structure Recalls (s : Session) : Prop where
  browsing : s.browsing
  request : ∃ entry, s.entry? = some entry ∧ s.input = entry.input ∧ s.mode = entry.mode

section Steps
variable {limit : Nat} {log : List Entry} {s t : Session}

theorem sound_start (limit : Nat) : (start limit).Sound limit [] where
  history := .empty limit
  selected := by simp [start]
  step := .inl rfl
  playing := by simp [start]
  browsing := by simp [start]

theorem selected_of_entry (shown : s.entry?.isSome) : s.selected.isSome := by
  cases selected : s.selected with
  | none => simp [selected, entry?] at shown
  | some _ => rfl

/-- The same entry may be shown at an earlier step, or at any of its own. -/
theorem Sound.moved (sound : s.Sound limit log) (history : t.history = s.history)
    (selected : t.selected = s.selected) (step : t.step ≤ s.step ∨ t.step ≤ s.lastStep)
    (playing : t.playing → s.playing ∨ s.entry?.isSome) (browsing : t.browsing → s.browsing) :
    t.Sound limit log where
  history := history ▸ sound.history
  selected := by rw [selected, history]; exact sound.selected
  step := by
    have count : t.stepCount = s.stepCount := by rw [stepCount, stepCount, entry?, entry?, selected, history]
    have before := sound.step
    rw [lastStep] at step
    omega
  playing plays := by
    rw [selected]
    exact (playing plays).elim sound.playing selected_of_entry
  browsing browses := selected ▸ sound.browsing (browsing browses)

/-- An entry of the history is shown at its last step. -/
theorem sound_select (history : s.history.Keeps (max limit 1) log) {index : Nat}
    (inside : index < s.history.size) :
    (s.select index).Sound limit log where
  history := history
  selected := by
    intro other same
    cases same
    exact inside
  step := by
    change lastStep _ = 0 ∨ lastStep _ < stepCount _
    rw [lastStep]
    exact (Nat.eq_zero_or_pos _).imp (fun none => by rw [none]) fun positive =>
      Nat.sub_lt positive Nat.one_pos
  playing _ := rfl
  browsing _ := rfl

theorem Sound.compute (sound : s.Sound limit log) :
    s.compute.Sound limit (log ++ (s.computed? (.key .enter)).toList) := by
  unfold Session.compute computed?
  by_cases blank : (Text.trim s.input).isEmpty
  · simp only [blank, if_true, Option.toList_none, List.append_nil]
    exact sound.moved rfl rfl (.inl (Nat.le_refl _)) (by simp) (by simp)
  · simp only [blank, Bool.false_eq_true, if_false, Option.toList_some]
    have keeps := sound.history.push (Entry.compute s.mode s.input)
    refine sound_select keeps ?_
    have size := keeps.size
    simp only [List.length_append, List.length_singleton] at size ⊢
    omega

theorem Sound.browse (sound : s.Sound limit log) (move : Nat → Nat) : (s.browse move).Sound limit log := by
  unfold Session.browse
  simp only
  split
  · exact sound
  · rename_i entry found
    refine sound_select ?_ ?_
    · exact sound.history
    · exact (List.getElem?_eq_some_iff.mp found).1

theorem Sound.togglePlayback (sound : s.Sound limit log) : s.togglePlayback.Sound limit log := by
  unfold Session.togglePlayback
  split
  · exact sound
  · rename_i shown
    split
    · exact sound.moved rfl rfl (.inl (Nat.le_refl _)) (by simp) id
    · refine sound.moved rfl rfl (.inl ?_)
        (fun _ => .inr (by simpa [Option.isSome_iff_ne_none] using shown)) id
      change (if _ then _ else _) ≤ _
      split <;> simp

theorem Sound.type (sound : s.Sound limit log) (c : Char) : (s.type c).Sound limit log := by
  unfold Session.type
  split
  · exact sound.togglePlayback
  · exact sound.moved rfl rfl (.inl (Nat.le_refl _)) .inl (by simp)

theorem Sound.stepForward (sound : s.Sound limit log) : s.stepForward.Sound limit log := by
  unfold Session.stepForward
  split
  · exact sound.moved rfl rfl (.inr (by simpa)) .inl id
  · exact sound.moved rfl rfl (.inl (Nat.le_refl _)) .inl id

theorem Sound.stepBackward (sound : s.Sound limit log) : s.stepBackward.Sound limit log := by
  unfold Session.stepBackward
  split
  · exact sound.moved rfl rfl (.inl (Nat.sub_le _ _)) .inl id
  · exact sound.moved rfl rfl (.inl (Nat.le_refl _)) .inl id

theorem Sound.focusSteps (sound : s.Sound limit log) : s.focusSteps.Sound limit log :=
  sound.moved rfl rfl (.inl (Nat.le_refl _)) (by simp [Session.focusSteps]) (by simp [Session.focusSteps])

/-- What only changes the mode, the input line or the notice keeps the rest. -/
theorem Sound.unmoved (sound : s.Sound limit log) (history : t.history = s.history)
    (selected : t.selected = s.selected) (step : t.step = s.step) (playing : t.playing = s.playing)
    (browsing : t.browsing = s.browsing) : t.Sound limit log :=
  sound.moved history selected (.inl (Nat.le_of_eq step)) (fun plays => .inl (playing ▸ plays))
    (browsing ▸ id)

/-- Only the key that computes adds to the log. -/
theorem Sound.silent {event : Event} (sound : t.Sound limit log) (other : event ≠ .key .enter) :
    t.Sound limit (log ++ (s.computed? event).toList) := by
  have nothing : s.computed? event = none := by
    unfold computed?
    split
    · exact absurd rfl other
    · rfl
  rwa [nothing, Option.toList_none, List.append_nil]

/-- A key keeps the session sound, and adds to the log what it computes. -/
theorem Sound.press (sound : s.Sound limit log) (key : Key) :
    (s.press key).Sound limit (log ++ (s.computed? (.key key)).toList) := by
  cases key with
  | enter => exact sound.compute
  | escape | tab | backTab | backspace | other =>
    refine Sound.silent ?_ (by simp)
    exact sound.unmoved rfl rfl rfl rfl rfl
  | left =>
    refine Sound.silent ?_ (by simp)
    exact sound.focusSteps.stepBackward
  | right =>
    refine Sound.silent ?_ (by simp)
    exact sound.focusSteps.stepForward
  | home =>
    refine Sound.silent ?_ (by simp)
    exact sound.moved rfl rfl (.inl (Nat.zero_le _)) (by simp [Session.press, jumpToFirst]) id
  | endKey =>
    refine Sound.silent ?_ (by simp)
    exact sound.moved rfl rfl (.inr (Nat.le_refl _)) (by simp [Session.press, jumpToLast]) id
  | up | down =>
    refine Sound.silent ?_ (by simp)
    exact sound.browse _
  | character c =>
    refine Sound.silent ?_ (by simp)
    exact sound.type c
  | control c =>
    refine Sound.silent ?_ (by simp)
    rw [Session.press]
    split
    · exact sound.unmoved rfl rfl rfl rfl rfl
    · exact sound.type c

theorem Sound.tick (sound : s.Sound limit log) : s.tick.Sound limit log := by
  unfold Session.tick
  split
  · exact sound.moved rfl rfl (.inr (by simpa)) .inl id
  · exact sound.moved rfl rfl (.inl (Nat.le_refl _)) (by simp) id

theorem Sound.handle (sound : s.Sound limit log) (event : Event) :
    (s.handle event).Sound limit (log ++ (s.computed? event).toList) := by
  cases event with
  | key key => exact sound.press key
  | tick => exact sound.tick.silent (by simp)

theorem Sound.after (sound : s.Sound limit log) (events : List Event) :
    (s.after events).Sound limit (log ++ s.computed events) := by
  induction events generalizing s log with
  | nil => rwa [computed, List.append_nil]
  | cons event rest ih =>
    rw [computed, ← List.append_assoc]
    exact ih (sound.handle event)

/-- Moving in the history recalls the entry that is shown then. Without entries there is nothing to
move to. -/
theorem browse_recalls (s : Session) (move : Nat → Nat) :
    if s.history.isEmpty then s.browse move = s else (s.browse move).Recalls := by
  unfold browse
  simp only
  split
  · rename_i empty
    have none : s.history.entries = [] := List.isEmpty_iff.mp empty
    rw [History.get?, none, List.getElem?_nil]
  · rename_i nonempty
    have size : 0 < s.history.size := List.length_pos_iff.mpr fun none => nonempty (List.isEmpty_iff.mpr none)
    split
    · rename_i missing
      have beyond := List.getElem?_eq_none_iff.mp missing
      change s.history.size ≤ _ at beyond
      split at beyond <;> omega
    · rename_i entry found
      exact ⟨rfl, entry, found, rfl, rfl⟩

end Steps

/-- Whatever keys are pressed and however often the playback ticks, the history holds the newest of
the entries computed so far, in their order and as many as there is room for. The entry shown is one
of them and the step shown is one of its steps, or the first. The playback and the focus on the
history need an entry that is shown. The keys that move in the history put the request of the entry
shown then on the input line. -/
theorem session_sound (limit : Nat) (events : List Event) :
    let s := (start limit).after events
    s.Sound limit ((start limit).computed events) ∧
      (if s.history.isEmpty then s.press .up = s else (s.press .up).Recalls) ∧
      (if s.history.isEmpty then s.press .down = s else (s.press .down).Recalls) :=
  ⟨(sound_start limit).after events, browse_recalls _ _, browse_recalls _ _⟩

/-- With room for one entry, the one that is recalled is the second. -/
example :
    let keys := [.character '(', .enter, .character ')', .enter, .character 'x', .up]
    ((start 1).after (keys.map .key)).input = ")" := by
  decide +kernel

end Session

end Stepwise
