import Mathlib
import Stepwise.Text.Blank

/-! Trimming around a character that is not blank. Such a character stays, and what is trimmed off
is what is blank before it and behind it. Blanks around a text make no difference to what is left of
it. -/
namespace Stepwise.Text

variable {p : Char → Bool} {before behind text gap : List Char} {mark : Char}

theorem trimList_eq (text : List Char) : trimList text = (text.dropWhile isBlank).rdropWhile isBlank := rfl

section Mark

theorem dropWhile_mark (kept : p mark = false) (before behind : List Char) :
    (before ++ mark :: behind).dropWhile p = before.dropWhile p ++ mark :: behind := by
  induction before with
  | nil => simp [kept]
  | cons c rest ih => cases first : p c <;> simp [first, ih]

theorem rdropWhile_mark (kept : p mark = false) (before behind : List Char) :
    (before ++ mark :: behind).rdropWhile p = before ++ mark :: behind.rdropWhile p := by
  have reversed := dropWhile_mark kept behind.reverse before.reverse
  simp only [List.rdropWhile, List.reverse_append, List.reverse_cons, List.append_assoc,
    List.singleton_append, reversed]
  simp

theorem trimList_mark (kept : isBlank mark = false) (before behind : List Char) :
    trimList (before ++ mark :: behind) = before.dropWhile isBlank ++ mark :: behind.rdropWhile isBlank := by
  rw [trimList_eq, dropWhile_mark kept, rdropWhile_mark kept]

/-- A text that begins and ends with characters that are not blank stays as it is. -/
theorem trimList_ends {first last : Char} (first_kept : isBlank first = false)
    (last_kept : isBlank last = false) :
    trimList (first :: (text ++ [last])) = first :: (text ++ [last]) := by
  have front := trimList_mark first_kept [] (text ++ [last])
  have back := rdropWhile_mark last_kept text []
  rw [List.rdropWhile_nil] at back
  rwa [back] at front

end Mark

section Gap

theorem dropWhile_gap (blank : ∀ c ∈ gap, p c) (text : List Char) :
    (gap ++ text).dropWhile p = text.dropWhile p :=
  List.dropWhile_append_of_pos blank

theorem dropWhile_all (blank : ∀ c ∈ gap, p c) : gap.dropWhile p = [] := by
  simpa using dropWhile_gap blank []

theorem rdropWhile_all (blank : ∀ c ∈ gap, p c) : gap.rdropWhile p = [] :=
  List.rdropWhile_eq_nil_iff.mpr blank

theorem trimList_all (blank : ∀ c ∈ gap, isBlank c) : trimList gap = [] := by
  rw [trimList_eq, dropWhile_all blank, List.rdropWhile_nil]

/-- Blanks before a text do not count. -/
theorem trimList_gap_append (blank : ∀ c ∈ gap, isBlank c) (text : List Char) :
    trimList (gap ++ text) = trimList text := by
  rw [trimList_eq, dropWhile_gap blank, trimList_eq]

theorem rdropWhile_gap (blank : ∀ c ∈ gap, p c) (text : List Char) :
    (text ++ gap).rdropWhile p = text.rdropWhile p := by
  simp only [List.rdropWhile, List.reverse_append]
  rw [dropWhile_gap fun c member => blank c (List.mem_reverse.mp member)]

/-- Blanks behind a text do not count. -/
theorem trimList_append_gap (blank : ∀ c ∈ gap, isBlank c) (text : List Char) :
    trimList (text ++ gap) = trimList text := by
  by_cases none : ∀ c ∈ text, isBlank c
  · rw [trimList_all none, trimList_all fun c member => (List.mem_append.mp member).elim (none c) (blank c)]
  · push Not at none
    obtain ⟨c, member, kept⟩ := none
    obtain ⟨before, behind, rfl⟩ := List.append_of_mem member
    have kept : isBlank c = false := by simpa using kept
    rw [List.append_assoc, List.cons_append, trimList_mark kept, trimList_mark kept, rdropWhile_gap blank]

theorem trimList_dropWhile (text : List Char) : trimList (text.dropWhile isBlank) = trimList text := by
  rw [trimList_eq, List.dropWhile_idempotent, trimList_eq]

theorem trimList_rdropWhile (text : List Char) : trimList (text.rdropWhile isBlank) = trimList text := by
  have blank : ∀ c ∈ text.rtakeWhile isBlank, isBlank c := fun c member => List.mem_rtakeWhile_imp member
  rw [← trimList_append_gap blank, List.rdropWhile_append_rtakeWhile]

theorem trimList_of_dropWhile {other : List Char} (same : other.dropWhile isBlank = text.dropWhile isBlank) :
    trimList other = trimList text := by
  rw [← trimList_dropWhile, same, trimList_dropWhile]

theorem trimList_of_rdropWhile {other : List Char}
    (same : other.rdropWhile isBlank = text.rdropWhile isBlank) :
    trimList other = trimList text := by
  rw [← trimList_rdropWhile, same, trimList_rdropWhile]

/-- What is left of a text, with the blanks that it stood between. -/
theorem exists_gaps (text : List Char) : ∃ front back, (∀ c ∈ front, isBlank c) ∧ (∀ c ∈ back, isBlank c) ∧
    text = front ++ trimList text ++ back := by
  refine ⟨text.takeWhile isBlank, (text.dropWhile isBlank).rtakeWhile isBlank,
    fun c => List.mem_takeWhile_imp, fun c => List.mem_rtakeWhile_imp, ?_⟩
  rw [trimList_eq, List.append_assoc, List.rdropWhile_append_rtakeWhile, List.takeWhile_append_dropWhile]

theorem mem_trimList_or_blank {c : Char} (member : c ∈ text) : c ∈ trimList text ∨ isBlank c := by
  obtain ⟨front, back, front_blank, back_blank, same⟩ := exists_gaps text
  rw [same] at member
  rcases List.mem_append.mp member with member | behind
  · exact (List.mem_append.mp member).elim (.inr ∘ front_blank c) .inl
  · exact .inr (back_blank c behind)

/-- A text with other blanks around it has a character that is not blank in the same place. -/
theorem exists_mark (kept : isBlank mark = false)
    (same : trimList text = trimList (before ++ mark :: behind)) :
    ∃ before' behind', text = before' ++ mark :: behind' ∧
      before'.dropWhile isBlank = before.dropWhile isBlank ∧
      behind'.rdropWhile isBlank = behind.rdropWhile isBlank := by
  obtain ⟨front, back, front_blank, back_blank, whole⟩ := exists_gaps text
  rw [same, trimList_mark kept] at whole
  refine ⟨front ++ before.dropWhile isBlank, behind.rdropWhile isBlank ++ back, by simpa using whole, ?_, ?_⟩
  · rw [dropWhile_gap front_blank, List.dropWhile_idempotent]
  · rw [rdropWhile_gap back_blank, List.rdropWhile_idempotent]

end Gap

end Stepwise.Text
