import Stepwise.Proofs.Session.Invariant
import Stepwise.Proofs.Text.Cut

/-! Recalling a request and computing it again. Main statement: in every session that has a history,
the key that computes, pressed after a key that moves in the history, adds the entry that was
recalled once more. -/
namespace Stepwise

namespace Entry

/-- An entry that its own request leads to. The request is not blank. -/
structure IsComputed (entry : Entry) : Prop where
  again : compute entry.mode entry.input = entry
  request : (Text.trim entry.input).isEmpty = false

/-- The request of an entry is trimmed already, and is computed from there in the same way. -/
theorem isComputed_compute (mode : Mode) {input : String} (request : (Text.trim input).isEmpty = false) :
    (compute mode input).IsComputed where
  again := by simp only [compute, Text.trim_trim]
  request := by simpa only [compute, Text.trim_trim] using request

end Entry

theorem History.latest?_push (history : History) (entry : Entry) :
    (history.push entry).latest? = some entry := by
  have room := history.limit_pos
  have kept : history.entries.length + 1 - history.limit ≤ history.entries.length := by omega
  simp [latest?, push, newest, List.drop_append_of_le_length kept]

theorem History.get?_last (history : History) : history.get? (history.size - 1) = history.latest? :=
  List.getLast?_eq_getElem?.symm

namespace Session

theorem isComputed_of_computed? {s : Session} {event : Event} {entry : Entry}
    (computes : s.computed? event = some entry) :
    entry.IsComputed := by
  unfold computed? at computes
  split at computes
  · split at computes
    · cases computes
    · rename_i request
      obtain rfl := Option.some.inj computes
      exact Entry.isComputed_compute s.mode (by simpa using request)
  · cases computes

theorem isComputed_of_computed {s : Session} {events : List Event} {entry : Entry}
    (member : entry ∈ s.computed events) :
    entry.IsComputed := by
  induction events generalizing s with
  | nil => cases member
  | cons event rest ih =>
    rcases List.mem_append.mp member with now | later
    · exact isComputed_of_computed? (Option.mem_toList.mp now)
    · exact ih later

/-- The history is a part of what was computed. -/
theorem isComputed_of_history {limit : Nat} {events : List Event} {entry : Entry}
    (member : entry ∈ ((start limit).after events).history.entries) : entry.IsComputed :=
  isComputed_of_computed (((sound_start limit).after events).history.newest.subset member)

structure ShowsNewest (s : Session) (entry : Entry) : Prop where
  newest : s.history.latest? = some entry
  selected : s.selected = some (s.history.size - 1)
  shown : s.entry? = some entry
  step : s.step = entry.steps.length - 1
  input : s.input = ""

/-- What the key that computes does with a request. -/
theorem compute_adds (s : Session) (request : (Text.trim s.input).isEmpty = false) :
    s.compute.history = s.history.push (.compute s.mode s.input) ∧
      s.compute.ShowsNewest (.compute s.mode s.input) := by
  have newest := s.history.latest?_push (.compute s.mode s.input)
  have last := (History.get?_last _).trans newest
  simp only [compute, request, Bool.false_eq_true, if_false]
  refine ⟨rfl, newest, rfl, last, ?_, rfl⟩
  simp only [select, lastStep, stepCount, entry?, Option.bind_some, last, Option.map_some, Option.getD_some]

/-- Moving in a history that is not empty recalls one of its entries, and changes nothing in it. -/
theorem browse_shows (s : Session) (nonempty : s.history.isEmpty = false) (move : Nat → Nat) :
    (s.browse move).history = s.history ∧ ∃ entry ∈ s.history.entries,
      Session.entry? (s.browse move) = some entry ∧ (s.browse move).input = entry.input ∧
      (s.browse move).mode = entry.mode := by
  have recalls := browse_recalls s move
  rw [nonempty] at recalls
  obtain ⟨-, entry, shown, input, mode⟩ := recalls
  have kept : (s.browse move).history = s.history := by
    simp only [browse]
    split <;> rfl
  refine ⟨kept, entry, ?_, shown, input, mode⟩
  obtain ⟨index, -, found⟩ := Option.bind_eq_some_iff.mp shown
  rw [kept] at found
  exact List.mem_of_getElem? found

/-- In a session that has come to a history, a key that moves in it recalls one of its entries. The
key that computes then adds this very entry to the history, from which the oldest drops out where
there is no more room, shows it at its last step and empties the input line. -/
theorem recall_recomputes (limit : Nat) (events : List Event)
    (nonempty : ((start limit).after events).history.isEmpty = false) {key : Key}
    (moves : key = .up ∨ key = .down) :
    let s := (start limit).after events
    ∃ entry ∈ s.history.entries, Session.entry? (s.press key) = some entry ∧
      ((s.press key).press .enter).history = s.history.push entry ∧
      ((s.press key).press .enter).ShowsNewest entry := by
  intro s
  obtain ⟨move, browses⟩ : ∃ move, s.press key = s.browse move := by
    rcases moves with rfl | rfl <;> exact ⟨_, rfl⟩
  obtain ⟨kept, entry, member, shown, input, mode⟩ := browse_shows s nonempty move
  obtain ⟨again, request⟩ := isComputed_of_history member
  have adds := compute_adds (s.browse move) (input ▸ request)
  rw [kept, input, mode, again] at adds
  rw [browses]
  exact ⟨entry, member, shown, adds⟩

/-- With room for one entry, the failed request that is recalled takes its own place. -/
theorem recall_recomputes_failure :
    let s := (start 1).after [.key (.character '1'), .key .enter, .key (.character '('), .key .enter, .tick]
    s.history.isEmpty = false ∧ s.history.entries.all Entry.failed ∧
      ∃ entry ∈ s.history.entries, Session.entry? (s.press .up) = some entry ∧
        ((s.press .up).press .enter).history = s.history.push entry ∧
          ((s.press .up).press .enter).ShowsNewest entry :=
  ⟨by decide +kernel, by decide +kernel, recall_recomputes 1 _ (by decide +kernel) (.inl rfl)⟩

end Session

end Stepwise
