import Mathlib
import Stepwise.Text.Blank

/-! The pieces that a text is split into. Pieces in which no separator stands come back from the
text that puts them together, and whatever is no separator stands in one of the pieces. -/
namespace Stepwise.Text

variable {separates : Char → Bool}

theorem splitList_absent {text : List Char} (absent : ∀ c ∈ text, separates c = false) :
    splitList separates text = [text] := by
  induction text with
  | nil => rfl
  | cons c rest ih =>
    obtain ⟨first, later⟩ := List.forall_mem_cons.mp absent
    simp [splitList, first, ih later]

/-- The first piece goes up to the first separator. -/
theorem splitList_append {piece : List Char} (absent : ∀ c ∈ piece, separates c = false) {mark : Char}
    (marked : separates mark) (rest : List Char) :
    splitList separates (piece ++ mark :: rest) = piece :: splitList separates rest := by
  induction piece with
  | nil => simp [splitList, marked]
  | cons c later ih =>
    obtain ⟨first, others⟩ := List.forall_mem_cons.mp absent
    simp [splitList, first, ih others]

theorem splitList_intercalate {pieces : List (List Char)} (nonempty : pieces ≠ [])
    (absent : ∀ piece ∈ pieces, ∀ c ∈ piece, separates c = false) {mark : Char} (marked : separates mark) :
    splitList separates ([mark].intercalate pieces) = pieces := by
  induction pieces with
  | nil => exact absurd rfl nonempty
  | cons piece rest ih =>
    obtain ⟨first, later⟩ := List.forall_mem_cons.mp absent
    cases rest with
    | nil => rw [List.intercalate_singleton, splitList_absent first]
    | cons next others =>
      rw [List.intercalate_cons_cons, List.append_assoc, List.singleton_append, splitList_append first marked,
        ih (List.cons_ne_nil _ _) later]

/-- Texts put together with a separator between them are what the whole is split into. -/
theorem split_intercalate {pieces : List String} (nonempty : pieces ≠ [])
    (absent : ∀ piece ∈ pieces, ∀ c ∈ piece.toList, separates c = false) {mark : String} {c : Char}
    (one : mark.toList = [c]) (marked : separates c) :
    split separates (mark.intercalate pieces) = pieces := by
  have absent' : ∀ piece ∈ pieces.map String.toList, ∀ c ∈ piece, separates c = false := by
    rintro _ member
    obtain ⟨piece, inside, rfl⟩ := List.mem_map.mp member
    exact absent piece inside
  rw [split, String.toList_intercalate, one,
    splitList_intercalate (by simpa using nonempty) absent' marked, List.map_map]
  simp

/-- Whatever stands in texts put together stands in one of them or between them. -/
theorem mem_of_mem_intercalate {mark : String} {pieces : List String} {c : Char}
    (member : c ∈ (mark.intercalate pieces).toList) :
    c ∈ mark.toList ∨ ∃ piece ∈ pieces, c ∈ piece.toList := by
  rw [String.toList_intercalate] at member
  induction pieces with
  | nil => cases member
  | cons piece rest ih =>
    cases rest with
    | nil => exact .inr ⟨piece, List.mem_cons_self .., by simpa using member⟩
    | cons next others =>
      rw [List.map_cons, List.map_cons, List.intercalate_cons_cons, ← List.map_cons,
        List.append_assoc] at member
      rcases List.mem_append.mp member with first | later
      · exact .inr ⟨piece, List.mem_cons_self .., first⟩
      · rcases List.mem_append.mp later with between | behind
        · exact .inl between
        · exact (ih behind).imp_right fun ⟨found, inside, here⟩ =>
            ⟨found, List.mem_cons_of_mem _ inside, here⟩

/-- Nothing but separators is lost. -/
theorem exists_piece {c : Char} {text : List Char} (member : c ∈ text) (kept : separates c = false) :
    ∃ piece ∈ splitList separates text, c ∈ piece := by
  fun_induction splitList separates text with
  | case1 => cases member
  | case2 d rest marked ih =>
    have behind : c ∈ rest := by
      refine (List.mem_cons.mp member).resolve_left ?_
      rintro rfl
      rw [kept] at marked
      cases marked
    obtain ⟨piece, inside, here⟩ := ih behind
    exact ⟨piece, List.mem_cons_of_mem _ inside, here⟩
  | case3 d rest other first pieces split ih =>
    rw [split] at ih
    rcases List.mem_cons.mp member with rfl | behind
    · exact ⟨_, List.mem_cons_self .., List.mem_cons_self ..⟩
    · obtain ⟨piece, inside, here⟩ := ih behind
      rcases List.mem_cons.mp inside with rfl | later
      · exact ⟨_, List.mem_cons_self .., List.mem_cons_of_mem _ here⟩
      · exact ⟨piece, List.mem_cons_of_mem _ later, here⟩
  | case4 d rest other split ih =>
    rw [split] at ih
    rcases List.mem_cons.mp member with rfl | behind
    · exact ⟨_, List.mem_cons_self .., List.mem_cons_self ..⟩
    · obtain ⟨piece, inside, -⟩ := ih behind
      cases inside

end Stepwise.Text
