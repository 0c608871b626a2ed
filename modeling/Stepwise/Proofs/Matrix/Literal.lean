import Stepwise.Matrix.OfText
import Stepwise.Proofs.Decimal.Figures
import Stepwise.Proofs.Decimal.Stable
import Stepwise.Proofs.Matrix.Entries
import Stepwise.Proofs.Text.Split
import Stepwise.Proofs.Text.Trim

/-! Matrices as they are written between brackets. What stands between the brackets of a text that
is read as a matrix has no bracket in it, and blanks around the brackets do not count. Main
statement: what is written for a matrix is read as a matrix of its shape, each entry of which is
what is read for the entry written. -/
namespace Stepwise

open Text (isBlank trimList)
open Decimal (isFigure read? sixPlaces)

section Pieces

variable {α β : Type} {f : α → Option β} {items : List α}

theorem isSome_of_mapM (all : (items.mapM f).isSome) : ∀ item ∈ items, (f item).isSome := by
  induction items with
  | nil => simp
  | cons item rest ih =>
    obtain ⟨values, all⟩ := Option.isSome_iff_exists.mp all
    rw [List.mapM_cons] at all
    obtain ⟨value, first, all⟩ := Option.bind_eq_some_iff.mp all
    obtain ⟨later, others, -⟩ := Option.bind_eq_some_iff.mp all
    exact List.forall_mem_cons.mpr ⟨by simp [first], ih (by simp [others])⟩

theorem mapM_eq_some {value : α → β} (all : ∀ item ∈ items, f item = some (value item)) :
    items.mapM f = some (items.map value) := by
  induction items with
  | nil => rfl
  | cons item rest ih =>
    obtain ⟨first, later⟩ := List.forall_mem_cons.mp all
    rw [List.mapM_cons, first, ih later]
    rfl

/-- What is left of a text begins and ends with the two characters exactly if there is something
between them. -/
theorem Text.between_eq_some_iff {opening closing : Char} {text body : String} :
    between? opening closing text = some body ↔
    trimList text.toList = opening :: (body.toList ++ [closing]) := by
  unfold between?
  cases shape : trimList text.toList with
  | nil => simp
  | cons first rest =>
    simp only
    constructor
    · intro found
      split at found
      · next ends =>
        obtain rfl := Option.some.inj found
        obtain ⟨last, same⟩ := List.getLast?_eq_some_iff.mp ends.2
        rw [ends.1, same, String.toList_ofList, List.dropLast_concat]
      · cases found
    · intro same
      obtain ⟨rfl, rfl⟩ := List.cons.inj same
      simp

end Pieces

namespace Decimal

theorem ne_empty_of_read {text : String} {x : Float} (read : read? text = some x) : text ≠ "" := by
  rintro rfl
  cases read

end Decimal

namespace Matrix

def IsBetween (c : Char) : Prop := isFigure c ∨ c = ',' ∨ c = ';' ∨ isBlank c

section Reading

/-- Whatever stands in a piece that is read as numbers is a figure. -/
theorem figure_of_readAll {pieces : List String} (read : (Decimal.readAll? pieces).isSome)
    {piece : String} (inside : piece ∈ pieces) {c : Char} (member : c ∈ piece.toList) :
    isFigure c := by
  have kept : piece ∈ pieces.filter (!·.isEmpty) := by
    refine List.mem_filter.mpr ⟨inside, ?_⟩
    rw [Bool.not_eq_true', String.isEmpty_eq_false_iff]
    rintro rfl
    cases member
  obtain ⟨x, found⟩ := Option.isSome_iff_exists.mp (isSome_of_mapM read piece kept)
  exact Decimal.figure_of_read found c member

theorem between_of_readRow {row : String} (read : (readRow? row).isSome) : ∀ c ∈ row.toList, IsBetween c := by
  intro c member
  by_cases separates : (c = ',' || isBlank c) = true
  · rcases Bool.or_eq_true _ _ ▸ separates with comma | blank
    · exact .inr (.inl (of_decide_eq_true comma))
    · exact .inr (.inr (.inr blank))
  · obtain ⟨piece, inside, here⟩ := @Text.exists_piece (fun c => decide (c = ',') || isBlank c) c _ member
      (Bool.eq_false_iff.mpr separates)
    exact .inl (figure_of_readAll read (List.mem_map_of_mem inside) (by simpa using here))

def rows? (text : String) : Option (List (List Float)) :=
  (Text.between? '[' ']' text).bind fun body => (Text.split (· = ';') body).mapM readRow?

theorem ofText_eq_ok_iff {text : String} {m : Matrix} :
    Matrix.ofText text = .ok m ↔ ∃ rows, rows? text = some rows ∧ ofRows rows = .ok m := by
  rw [Matrix.ofText, ← rows?]
  cases rows? text with
  | none => simp
  | some rows =>
    simp only [Option.some.injEq, exists_eq_left']
    cases ofRows rows <;> simp [Except.mapError]

/-- Blanks around a matrix do not count. -/
theorem ofText_congr {text text' : String} (same : trimList text'.toList = trimList text.toList) {m : Matrix}
    (read : Matrix.ofText text = .ok m) : Matrix.ofText text' = .ok m := by
  obtain ⟨rows, found, formed⟩ := ofText_eq_ok_iff.mp read
  refine ofText_eq_ok_iff.mpr ⟨rows, ?_, formed⟩
  rw [← found, rows?, rows?, Text.between?, Text.between?, same]

/-- What is read as a matrix stands between the two brackets, and no bracket stands inside. -/
theorem exists_body {text : String} {m : Matrix} (read : Matrix.ofText text = .ok m) :
    ∃ body, trimList text.toList = '[' :: (body ++ [']']) ∧ ∀ c ∈ body, IsBetween c := by
  obtain ⟨rows, found, -⟩ := ofText_eq_ok_iff.mp read
  obtain ⟨body, between, found⟩ := Option.bind_eq_some_iff.mp found
  refine ⟨body.toList, Text.between_eq_some_iff.mp between, fun c member => ?_⟩
  by_cases separates : c = ';'
  · exact .inr (.inr (.inl separates))
  · obtain ⟨piece, inside, here⟩ :=
      @Text.exists_piece (fun c => decide (c = ';')) c _ member (decide_eq_false separates)
    have row := isSome_of_mapM (Option.isSome_of_mem found) _ (List.mem_map_of_mem inside)
    exact between_of_readRow row c (by simpa using here)

/-- A matrix that is read has entries. -/
theorem pos_of_ofText {text : String} {m : Matrix} (read : Matrix.ofText text = .ok m) :
    0 < m.rows ∧ 0 < m.cols := by
  obtain ⟨rows, -, formed⟩ := ofText_eq_ok_iff.mp read
  unfold ofRows at formed
  simp only at formed
  split at formed
  · cases formed
  · next proper =>
    obtain rfl := Except.ok.inj formed
    have widthNonzero : (rows.head?.map List.length).getD 0 ≠ 0 := fun none => proper (.inl none)
    refine ⟨List.length_pos_iff.mpr ?_, Nat.pos_of_ne_zero widthNonzero⟩
    rintro rfl
    exact widthNonzero rfl

end Reading

section Writing

/-- Matrices of one shape with the same entries are the same. -/
theorem ext_get {a b : Matrix} (rows : a.rows = b.rows) (cols : a.cols = b.cols)
    (entries : ∀ i < a.rows, ∀ j < a.cols, a.get i j = b.get i j) : a = b := by
  obtain ⟨r, c, first, size⟩ := a
  obtain ⟨r', c', second, size'⟩ := b
  obtain rfl : r = r' := rows
  obtain rfl : c = c' := cols
  have same : first = second := by
    refine Array.ext (size.trans size'.symm) fun k inside inside' => ?_
    have below : k < r * c := size ▸ inside
    have width : 0 < c := Nat.pos_of_ne_zero fun none => by simp [none] at below
    have entry :=
      entries (k / c) (Nat.div_lt_of_lt_mul (Nat.mul_comm r c ▸ below)) (k % c) (Nat.mod_lt k width)
    simpa [get, Nat.div_add_mod', Array.getD, inside, inside'] using entry
  subst same
  rfl

def rowText (row : List Float) : String := String.intercalate "," (row.map sixPlaces)

theorem text_eq (m : Matrix) : m.text = "[" ++ String.intercalate ";" (m.toRows.map rowText) ++ "]" := rfl

theorem readRow_rowText {row : List Float} (nonempty : row ≠ []) :
    readRow? (rowText row) = some (row.map Decimal.reread) := by
  have whole : ∀ piece ∈ row.map sixPlaces, ∀ c ∈ piece.toList, (decide (c = ',') || isBlank c) = false := by
    intro piece inside c member
    obtain ⟨x, -, rfl⟩ := List.mem_map.mp inside
    have figure := Decimal.figure_of_written x c member
    refine Bool.or_eq_false_iff.mpr ⟨decide_eq_false ?_, Decimal.not_blank_of_figure figure⟩
    rintro rfl
    cases figure
  have kept : (row.map sixPlaces).filter (!·.isEmpty) = row.map sixPlaces := by
    refine List.filter_eq_self.mpr fun piece inside => ?_
    obtain ⟨x, -, rfl⟩ := List.mem_map.mp inside
    rw [Bool.not_eq_true', String.isEmpty_eq_false_iff]
    exact Decimal.ne_empty_of_read (Decimal.read_written x)
  rw [readRow?, rowText, Text.split_intercalate (by simpa using nonempty) whole
    (show ",".toList = [','] by decide) (by decide), Decimal.readAll?, kept, List.mapM_map]
  exact mapM_eq_some fun x _ => Decimal.read_written x

/-- What separates rows does not stand in one. -/
theorem semicolon_not_mem (row : List Float) : ';' ∉ (rowText row).toList := by
  intro member
  rcases Text.mem_of_mem_intercalate member with comma | ⟨_, written, here⟩
  · exact absurd comma (by decide)
  · obtain ⟨x, -, rfl⟩ := List.mem_map.mp written
    cases Decimal.figure_of_written x _ here

theorem rows_text {m : Matrix} (rows : 0 < m.rows) (cols : 0 < m.cols) :
    rows? m.text = some (m.toRows.map (List.map Decimal.reread)) := by
  have between : Text.between? '[' ']' m.text = some (String.intercalate ";" (m.toRows.map rowText)) := by
    have written : m.text.toList =
        '[' :: ((String.intercalate ";" (m.toRows.map rowText)).toList ++ [']']) := by
      simp [text_eq]
    refine Text.between_eq_some_iff.mpr ?_
    rw [written]
    exact Text.trimList_ends (by decide) (by decide)
  have apart : ∀ piece ∈ m.toRows.map rowText, ∀ c ∈ piece.toList, decide (c = ';') = false := by
    intro piece inside c member
    obtain ⟨row, -, rfl⟩ := List.mem_map.mp inside
    exact decide_eq_false fun same => semicolon_not_mem row (same ▸ member)
  have nonempty : m.toRows.map rowText ≠ [] := by simpa [toRows] using rows.ne'
  rw [rows?, between, Option.bind_some, Text.split_intercalate nonempty apart
    (show ";".toList = [';'] by decide) (by decide), List.mapM_map]
  refine mapM_eq_some fun row inside => readRow_rowText ?_
  obtain ⟨i, -, rfl⟩ := List.mem_map.mp inside
  simpa [Matrix.row] using cols.ne'

/-- What is written for a matrix is read as a matrix of its shape, and each entry as what is read for it. -/
theorem ofText_text {m : Matrix} (rows : 0 < m.rows) (cols : 0 < m.cols) : ∃ r, Matrix.ofText m.text = .ok r ∧
    r.rows = m.rows ∧ r.cols = m.cols ∧
      ∀ i < m.rows, ∀ j < m.cols, r.get i j = Decimal.reread (m.get i j) := by
  obtain ⟨r, formed, high, wide, same⟩ := @ofRows_ok (m.toRows.map (List.map Decimal.reread)) m.cols
    (by simpa [toRows] using rows.ne') cols (by simp [toRows, row])
  refine ⟨r, ofText_eq_ok_iff.mpr ⟨_, rows_text rows cols, formed⟩, by simpa [toRows] using high,
    wide, fun i below j inside => ?_⟩
  simpa [toRows, row] using same i (by simpa [toRows] using below) j (by simpa [toRows, row] using inside)

end Writing

end Matrix

end Stepwise
