import Stepwise.Display.Screen
import Stepwise.Proofs.Session.Invariant
import Stepwise.Proofs.Text.Split

/-! Scrolling of the history. Main statement: wherever the pane stood before and however high it is
now, the entry selected is one of those it shows from the first one on, and it is not scrolled
beyond the newest entry. So it is in every session, however often it was drawn on the way and
however high its panes were. -/
namespace Stepwise.Display

namespace EntryList

section Offset

variable {count index height before : Nat}

theorem rowsInside_eq (height : Nat) : Frame.rowsInside height = max 1 (height - 2) := Nat.max_comm ..

/-- The pane starts no further down than the entry selected. -/
theorem offset_le_selected (inside : index < count) : offset count (some index) height before ≤ index := by
  have nonempty : count ≠ 0 := Nat.ne_zero_of_lt inside
  have room : 1 ≤ Frame.rowsInside height := Nat.le_max_right ..
  simp only [offset, if_neg nonempty]
  -- Up to the entry, down to it, or no further than before.
  split
  · omega
  · split <;> omega

/-- It ends no further up either. The last entries fill the pane, so that the entry stays in it when
the first one is held back for them. -/
theorem selected_lt_offset (inside : index < count) :
    index < offset count (some index) height before + Frame.rowsInside height := by
  have nonempty : count ≠ 0 := Nat.ne_zero_of_lt inside
  have room : 1 ≤ Frame.rowsInside height := Nat.le_max_right ..
  simp only [offset, if_neg nonempty]
  split
  · omega
  · split <;> omega

theorem offset_le_last {selected : Option Nat} (nonempty : count ≠ 0) :
    offset count selected height before ≤ count - Frame.rowsInside height := by
  simp only [offset, if_neg nonempty]
  exact Nat.min_le_right ..

end Offset

/-- For every history, every entry selected in it, every first entry that the pane showed before and
every height of the pane, the entry selected is one of the visible ones from the first one on, and
none of the rows stays empty while there are entries for them. -/
theorem offset_shows_selected (history : History) {index : Nat} (inside : index < history.size)
    (before height : Nat) :
    let visible := max 1 (height - 2)
    let first := offset history.size (some index) height before
    first ≤ index ∧ index < first + visible ∧ first ≤ history.size - visible := by
  have nonempty : history.size ≠ 0 := Nat.ne_zero_of_lt inside
  simp only [← rowsInside_eq]
  exact ⟨offset_le_selected inside, selected_lt_offset inside, offset_le_last nonempty⟩

/-- In a pane with one row the first entry is the one selected, however far the pane was scrolled. -/
theorem offset_shows_selected_narrow :
    let history := ((History.empty 3).push (.compute .expression "1")).push (.compute .expression "2")
    0 < history.size ∧ offset history.size (some 0) 2 7 ≤ 0 ∧
    0 < offset history.size (some 0) 2 7 + max 1 (2 - 2) ∧
      offset history.size (some 0) 2 7 ≤ history.size - max 1 (2 - 2) :=
  ⟨by decide +kernel, offset_shows_selected _ (by decide +kernel) 7 2⟩

section Rows

def visibleRows (history : History) (selected : Option Nat) (first height : Nat) : List Span :=
  fitting (height - 2)
    ((history.entries.mapIdx fun index entry => rows entry (selected = some index)).drop first)

/-- The row of an entry whose request has no line breaks. -/
def row (entry : Entry) (selected : Bool) : Span :=
  ⟨"[" ++ entry.mode.name ++ "] " ++ entry.summary, rowStyle entry selected⟩

theorem rows_eq {entry : Entry} (line : '\n' ∉ entry.summary.toList) (selected : Bool) :
    rows entry selected = [row entry selected] := by
  have absent : ∀ c ∈ ("[" ++ entry.mode.name ++ "] " ++ entry.summary).toList,
      decide (c = '\n') = false := by
    have named : ("[" ++ entry.mode.name ++ "] ").toList.any (· = '\n') = false := by
      cases entry.mode <;> decide +kernel
    intro c member
    rw [String.toList_append] at member
    rcases List.mem_append.mp member with front | behind
    · exact Bool.eq_false_iff.mpr (List.any_eq_false.mp named c front)
    · exact decide_eq_false fun same => line (same ▸ behind)
  rw [rows, Text.split, Text.splitList_absent absent, List.map_singleton, List.map_singleton,
    String.ofList_toList, row]

/-- Entries of one row each are shown as far as there is room. -/
theorem fitting_single (room : Nat) (rows : List Span) :
    fitting room (rows.map fun row => [row]) = rows.take room := by
  induction rows generalizing room with
  | nil => simp [fitting]
  | cons row rest ih => cases room <;> simp [fitting, ih]

theorem visibleRows_eq {history : History} (lines : ∀ entry ∈ history.entries, '\n' ∉ entry.summary.toList)
    (selected : Option Nat) (first height : Nat) : visibleRows history selected first height =
      ((history.entries.mapIdx fun index entry => row entry (selected = some index)).drop
      first).take (height - 2) := by
  have single : (history.entries.mapIdx fun index entry => rows entry (selected = some index)) =
      (history.entries.mapIdx fun index entry => row entry (selected = some index)).map fun row => [row] := by
    refine List.ext_getElem (by simp) fun index inside _ => ?_
    rw [List.getElem_mapIdx, List.getElem_map, List.getElem_mapIdx]
    exact rows_eq (lines _ (List.getElem_mem _)) _
  rw [visibleRows, single, ← List.map_drop, fitting_single]

/-- The entry selected has its row in the pane, if requests are written on one line each and the
frame leaves room for a row. -/
theorem selected_row_visible {history : History}
    (lines : ∀ entry ∈ history.entries, '\n' ∉ entry.summary.toList) {index : Nat}
    (inside : index < history.size) (before : Nat) {height : Nat} (room : 2 < height) :
    let first := offset history.size (some index) height before
    (visibleRows history (some index) first height)[index - first]? =
    some (row (history.entries.get ⟨index, inside⟩) true) := by
  intro first
  have above : first ≤ index := offset_le_selected inside
  have below : index < first + max 1 (height - 2) := rowsInside_eq height ▸ selected_lt_offset inside
  have there : first + (index - first) = index := Nat.add_sub_cancel' above
  rw [visibleRows_eq lines, List.getElem?_take_of_lt (by omega), List.getElem?_drop, there,
    List.getElem?_mapIdx, List.getElem?_eq_getElem inside, Option.map_some, decide_eq_true rfl]
  rfl

end Rows

end EntryList

/-- What happens to a session on a screen: a key, a tick, or that it is drawn in panes of some heights. -/
inductive Happening where
  | moved (event : Session.Event)
  | drawn (stepsHeight historyHeight : Nat)

def Happening.apply (s : Session) : Happening → Session
  | .moved event => s.handle event
  | .drawn stepsHeight historyHeight => scrollPanes s stepsHeight historyHeight

def shownAfter (limit : Nat) (happenings : List Happening) : Session :=
  happenings.foldl Happening.apply (.start limit)

/-- To draw a session changes nothing but how far its panes are scrolled. -/
theorem sound_scrollPanes {limit : Nat} {log : List Entry} {s : Session} (sound : s.Sound limit log)
    (stepsHeight historyHeight : Nat) : (scrollPanes s stepsHeight historyHeight).Sound limit log :=
  sound.unmoved rfl rfl rfl rfl rfl

theorem sound_apply {limit : Nat} {log : List Entry} {s : Session} (sound : s.Sound limit log)
    (happening : Happening) :
    ∃ log, (happening.apply s).Sound limit log := by
  cases happening with
  | moved event => exact ⟨_, sound.handle event⟩
  | drawn stepsHeight historyHeight => exact ⟨log, sound_scrollPanes sound stepsHeight historyHeight⟩

theorem sound_foldl {limit : Nat} {log : List Entry} {s : Session} (sound : s.Sound limit log)
    (happenings : List Happening) :
    ∃ log, (happenings.foldl Happening.apply s).Sound limit log := by
  induction happenings generalizing s log with
  | nil => exact ⟨log, sound⟩
  | cons happening rest ih =>
    obtain ⟨log, sound⟩ := sound_apply sound happening
    exact ih sound

/-- A session that is drawn shows the entry selected, whatever keys were pressed and however high
its panes were before. -/
theorem drawn_shows_selected (limit : Nat)
    (happenings : List Happening) (stepsHeight historyHeight index : Nat)
    (selected : (shownAfter limit happenings).selected = some index) :
    let s := scrollPanes (shownAfter limit happenings) stepsHeight historyHeight
    let visible := Frame.rowsInside historyHeight
    s.historyOffset ≤ index ∧ index < s.historyOffset + visible ∧
        s.historyOffset ≤ s.history.size - visible := by
  obtain ⟨log, sound⟩ := sound_foldl (Session.sound_start limit) happenings
  have inside : index < (shownAfter limit happenings).history.size := sound.selected index selected
  simp only [scrollPanes, selected]
  exact ⟨EntryList.offset_le_selected inside, EntryList.selected_lt_offset inside,
    EntryList.offset_le_last (Nat.ne_zero_of_lt inside)⟩

end Stepwise.Display
