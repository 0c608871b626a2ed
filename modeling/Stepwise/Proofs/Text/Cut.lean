import Mathlib
import Stepwise.Text.Blank
import Stepwise.Text.Split

/-! Cutting and trimming a text that holds the characters in question once or not at all, and
cutting a text by bytes. Main statement: a cut by bytes succeeds between two characters and nowhere
else, and gives what stands between them. -/
namespace Stepwise.Text

theorem cutFrom_none {c : Char} {more before text : List Char} (absent : c ∉ text) :
    cutFrom? (c :: more) before text = none := by
  induction text generalizing before with
  | nil => rfl
  | cons d rest ih =>
    have other : (c == d) = false := by
      rw [beq_eq_false_iff_ne]
      exact fun same => absent (same ▸ List.mem_cons_self ..)
    simp only [cutFrom?, List.isPrefixOf, other, Bool.false_and, Bool.false_eq_true, if_false]
    exact ih fun member => absent (List.mem_cons_of_mem _ member)

theorem cutFrom_mark {c : Char} {more before text : List Char} (absent : c ∉ text) (rest : List Char) :
    cutFrom? (c :: more) before (text ++ (c :: more ++ rest)) = some (before.reverse ++ text, rest) := by
  induction text generalizing before with
  | nil =>
    have first : (c :: more).isPrefixOf (c :: more ++ rest) :=
      List.isPrefixOf_iff_prefix.mpr (List.prefix_append ..)
    rw [List.cons_append] at first
    simp [cutFrom?, first]
  | cons d later ih =>
    have other : (c == d) = false := by
      rw [beq_eq_false_iff_ne]
      exact fun same => absent (same ▸ List.mem_cons_self ..)
    simp only [List.cons_append, cutFrom?, List.isPrefixOf, other, Bool.false_and,
      Bool.false_eq_true, if_false]
    rw [← List.cons_append, ih fun member => absent (List.mem_cons_of_mem _ member)]
    simp

/-- A text without the first character of the mark is not cut. -/
theorem cut_none {mark text : String} {c : Char} {more : List Char} (first : mark.toList = c :: more)
    (absent : c ∉ text.toList) : cut? mark text = none := by
  simp [cut?, first, cutFrom_none absent]

/-- A text is cut at the mark whose first character does not stand before it. -/
theorem cut_mark {mark before behind : String} {c : Char} {more : List Char} (first : mark.toList = c :: more)
    (absent : c ∉ before.toList) : cut? mark (before ++ mark ++ behind) = some (before, behind) := by
  rw [cut?, String.toList_append, String.toList_append, first, List.append_assoc, cutFrom_mark absent]
  simp

theorem dropWhile_absent {p : Char → Bool} {text : List Char} (absent : ∀ c ∈ text, p c = false) :
    text.dropWhile p = text := by
  cases text with
  | nil => rfl
  | cons c rest => simp [absent c (List.mem_cons_self ..)]

theorem stripped_absent {p : Char → Bool} {text : List Char} (absent : ∀ c ∈ text, p c = false) :
    ((text.dropWhile p).reverse.dropWhile p).reverse = text := by
  rw [dropWhile_absent absent, dropWhile_absent fun c member =>
    absent c (List.mem_reverse.mp member), List.reverse_reverse]

/-- What a text begins with once its first characters are dropped, keeps its own first characters. -/
theorem dropWhile_of_prefix {p : Char → Bool} {piece text : List Char} (ahead : piece <+: text.dropWhile p) :
    piece.dropWhile p = piece := by
  cases piece with
  | nil => rfl
  | cons c rest =>
    obtain ⟨behind, split⟩ := ahead
    have first := List.head?_dropWhile_not p text
    rw [← split, List.cons_append, List.head?_cons] at first
    simp [first]

theorem trimList_trimList (text : List Char) : trimList (trimList text) = trimList text := by
  have ahead : trimList text <+: text.dropWhile isBlank :=
    List.rdropWhile_prefix isBlank (text.dropWhile isBlank)
  rw [trimList, dropWhile_of_prefix ahead, trimList, List.reverse_reverse, List.dropWhile_idempotent]

/-- Trimming twice is trimming once. -/
theorem trim_trim (text : String) : trim (trim text) = trim text := by
  rw [trim, trim, String.toList_ofList, trimList_trimList]

theorem trim_absent {text : String} (absent : ∀ c ∈ text.toList, isBlank c = false) : trim text = text := by
  rw [trim, trimList, stripped_absent absent, String.ofList_toList]

section Slice

variable {text part : String} {start stop : Nat}

/-- What stands between two other texts is cut out whole. -/
theorem slice_append (before part after : String) :
    slice? (before ++ part ++ after) before.utf8ByteSize (before.utf8ByteSize + part.utf8ByteSize) =
      some part := by
  have front : String.Pos.Raw.IsValid (before ++ part ++ after) ⟨before.utf8ByteSize⟩ :=
    String.Pos.Raw.isValid_iff_exists_append.mpr ⟨before, part ++ after, String.append_assoc, rfl⟩
  have back : String.Pos.Raw.IsValid (before ++ part ++ after) ⟨before.utf8ByteSize + part.utf8ByteSize⟩ :=
    String.Pos.Raw.isValid_iff_exists_append.mpr
      ⟨before ++ part, after, rfl, by simp [String.Pos.Raw.ext_iff]⟩
  -- The bytes of the text are those of its three parts one after the other.
  have behind := ByteArray.extract_append_size_add (a := before.toByteArray)
    (b := part.toByteArray ++ after.toByteArray) (i := 0) (j := part.utf8ByteSize)
  have bytes := behind.trans (ByteArray.extract_append_eq_left String.size_toByteArray.symm)
  rw [String.size_toByteArray, Nat.add_zero] at bytes
  rw [slice?, dif_pos ⟨Nat.le_add_right .., front, back⟩, Option.some_inj, ← String.toByteArray_inj,
    String.toByteArray_extract, String.toByteArray_append, String.toByteArray_append, ByteArray.append_assoc]
  exact bytes

/-- Two places between characters have a text between them. -/
theorem exists_between (ordered : start ≤ stop) (front : String.Pos.Raw.IsValid text ⟨start⟩)
    (back : String.Pos.Raw.IsValid text ⟨stop⟩) : ∃ before part after, text = before ++ part ++ after ∧
      start = before.utf8ByteSize ∧ stop = before.utf8ByteSize + part.utf8ByteSize := by
  obtain ⟨before, rest, rfl, first⟩ := String.Pos.Raw.isValid_iff_exists_append.mp front
  have first : start = before.utf8ByteSize := congrArg String.Pos.Raw.byteIdx first
  rcases String.Pos.Raw.isValid_append.mp back with inside | ⟨-, beyond⟩
  · have last : stop ≤ before.utf8ByteSize := inside.le_utf8ByteSize
    exact ⟨before, "", rest, by simp, first, by simp; omega⟩
  · obtain ⟨part, after, rfl, last⟩ := String.Pos.Raw.isValid_iff_exists_append.mp beyond
    have last : stop - before.utf8ByteSize = part.utf8ByteSize := congrArg String.Pos.Raw.byteIdx last
    exact ⟨before, part, after, String.append_assoc.symm, first, by omega⟩

/-- A text is cut between characters only. -/
theorem slice_eq_some_iff : slice? text start stop = some part ↔
    ∃ before after, text = before ++ part ++ after ∧ start = before.utf8ByteSize ∧
      stop = before.utf8ByteSize + part.utf8ByteSize := by
  constructor
  · intro cut
    have between : start ≤ stop ∧ String.Pos.Raw.IsValid text ⟨start⟩ ∧
        String.Pos.Raw.IsValid text ⟨stop⟩ := by
      by_contra none
      rw [slice?, dif_neg none] at cut
      cases cut
    obtain ⟨before, found, after, rfl, rfl, rfl⟩ := exists_between between.1 between.2.1 between.2.2
    obtain rfl : found = part := Option.some.inj ((slice_append before found after).symm.trans cut)
    exact ⟨before, after, rfl, rfl, rfl⟩
  · rintro ⟨before, after, rfl, rfl, rfl⟩
    exact slice_append before part after

end Slice

def bytes (chars : List Char) : Nat := (String.ofList chars).utf8ByteSize

@[simp] theorem bytes_nil : bytes [] = 0 := by simp [bytes]

@[simp] theorem bytes_append (first second : List Char) :
    bytes (first ++ second) = bytes first + bytes second := by
  simp [bytes, String.ofList_append]

@[simp] theorem bytes_singleton (c : Char) : bytes [c] = c.utf8Size := by
  simp [bytes]

theorem bytes_cons (c : Char) (rest : List Char) : bytes (c :: rest) = c.utf8Size + bytes rest := by
  rw [← List.singleton_append, bytes_append, bytes_singleton]

/-- What is left behind the characters of a class begins as many bytes later as they take up. -/
theorem dropWhile_placed (p : Char → Bool) (start : Nat) (chars : List Char) :
    ((placed start chars).dropWhile fun entry => p entry.2) =
      placed (start + bytes (chars.takeWhile p)) (chars.dropWhile p) := by
  induction chars generalizing start with
  | nil => rfl
  | cons c rest ih =>
    cases first : p c with
    | true => simp [placed, first, ih, bytes_cons, Nat.add_assoc]
    | false => simp [placed, first]

end Stepwise.Text
