import Stepwise.Display.RequestLine
import Stepwise.Proofs.Phrase.Scan
import Stepwise.Proofs.Text.Cut

/-! The pieces that a line is colored in. Main statement: a text is cut between its characters only,
whatever they are, the pieces put together are the text again, and each of them is a number or a
word that is taken as far as it goes, or one other character. -/
namespace Stepwise.Display

namespace Line

@[simp] theorem text_cons (span : Span) (line : Line) :
    Line.text (span :: line) = span.text ++ line.text := by
  simp [text]

@[simp] theorem text_append (front back : Line) : Line.text (front ++ back) = front.text ++ back.text := by
  simp [text]

end Line

namespace Highlight

open Text (bytes placed)

structure IsRun (belongs : Char → Bool) (before part after : List Char) : Prop where
  filled : part ≠ []
  within : ∀ c ∈ part, belongs c
  front : ∀ c ∈ before.getLast?, belongs c = false
  back : ∀ c ∈ after.head?, belongs c = false

/-- A run of digits and points, a run of letters, or one other character. -/
inductive IsPiece (before part after : List Char) : Prop where
  | numeral (run : IsRun isNumeral before part after)
  | word (run : IsRun Token.isLetter before part after)
  | symbol (c : Char) (single : part = [c]) (numeral : isNumeral c = false)
      (letter : Token.isLetter c = false)

/-- The pieces of what stands behind `before`, one after the other. -/
inductive Tiles : List Char → List Char → Line → Prop where
  | nil {before : List Char} : Tiles before [] []
  | cons {before part after : List Char} {style : Style} {line : Line} (piece : IsPiece before part after)
      (behind : Tiles (before ++ part) after line) :
      Tiles before (part ++ after) (⟨String.ofList part, style⟩ :: line)

namespace IsPiece

variable {before part after : List Char}

theorem filled (piece : IsPiece before part after) : part ≠ [] := by
  cases piece with
  | numeral run => exact run.filled
  | word run => exact run.filled
  | symbol c single => simp [single]

end IsPiece

namespace Tiles

variable {before rest : List Char} {line : Line}

theorem text_eq (tiles : Tiles before rest line) : line.text = String.ofList rest := by
  induction tiles with
  | nil => rfl
  | @cons before part after style line piece behind ih =>
    rw [Line.text_cons, ih, String.ofList_append]

/-- No piece is empty, so there are no more of them than characters. -/
theorem length_le (tiles : Tiles before rest line) : line.length ≤ rest.length := by
  induction tiles with
  | nil => exact Nat.le_refl _
  | cons piece behind ih =>
    have filled := List.length_pos_iff.mpr piece.filled
    simp only [List.length_cons, List.length_append]
    omega

/-- Each piece is one in its place between the pieces before it and those behind it. -/
theorem isPiece (tiles : Tiles before rest line) {front back : Line} {span : Span}
    (split : line = front ++ span :: back) :
    IsPiece (before ++ (Line.text front).toList) span.text.toList (Line.text back).toList := by
  induction tiles generalizing front with
  | nil => simp at split
  | @cons before part after style line piece behind ih =>
    cases front with
    | nil =>
      obtain ⟨rfl, rfl⟩ := List.cons.inj split
      have empty : (Line.text []).toList = [] := by simp [Line.text]
      rw [behind.text_eq, String.toList_ofList, String.toList_ofList, empty, List.append_nil]
      exact piece
    | cons first later =>
      obtain ⟨rfl, below⟩ := List.cons.inj split
      have here := ih below
      rw [List.append_assoc] at here
      rw [Line.text_cons, String.toList_append, String.toList_ofList]
      exact here

end Tiles

section Runs

variable {belongs : Char → Bool} {before part after : List Char} {c : Char}

theorem isRun_takeWhile (first : belongs c) (front : ∀ b ∈ before.getLast?, belongs b = false)
    (later : List Char) :
    IsRun belongs before (c :: later.takeWhile belongs) (later.dropWhile belongs) where
  filled := by simp
  within := by
    intro d member
    rcases List.mem_cons.mp member with rfl | member
    · exact first
    · exact List.mem_takeWhile_imp member
  front := front
  back := by
    intro d next
    have stopped := List.head?_dropWhile_not belongs later
    rw [Option.mem_def.mp next] at stopped
    exact stopped

/-- The character before what is left stands in the piece read last. -/
theorem last_mem (filled : part ≠ []) {b : Char} (last : b ∈ (before ++ part).getLast?) : b ∈ part := by
  rw [List.getLast?_append_of_ne_nil before filled] at last
  exact List.mem_of_getLast? last

theorem not_numeral_of_letter (letter : Token.isLetter c) : isNumeral c = false := by
  simpa [isNumeral] using Token.not_digit_of_letter letter

/-- Neither a number nor a word goes on from what stands before to what is left. -/
structure Apart (before rest : List Char) : Prop where
  numeral : ∀ c ∈ rest.head?, isNumeral c → ∀ b ∈ before.getLast?, isNumeral b = false
  letter : ∀ c ∈ rest.head?, Token.isLetter c → ∀ b ∈ before.getLast?, Token.isLetter b = false

theorem apart_numeral (run : IsRun isNumeral before part after) : Apart (before ++ part) after where
  numeral c next numeral := absurd numeral (by simp [run.back c next])
  letter _ _ _ b last := by
    have numeral := run.within b (last_mem run.filled last)
    by_contra letter
    rw [not_numeral_of_letter (by simpa using letter)] at numeral
    cases numeral

theorem apart_word (run : IsRun Token.isLetter before part after) : Apart (before ++ part) after where
  numeral _ _ _ b last := not_numeral_of_letter (run.within b (last_mem run.filled last))
  letter c next letter := absurd letter (by simp [run.back c next])

theorem apart_symbol (numeral : isNumeral c = false) (letter : Token.isLetter c = false) :
    Apart (before ++ [c]) after where
  numeral _ _ _ b last := by
    obtain rfl : b = c := by simpa using last_mem (by simp) last
    exact numeral
  letter _ _ _ b last := by
    obtain rfl : b = c := by simpa using last_mem (by simp) last
    exact letter

end Runs

section Reading

variable {text : String} {before part after : List Char}

theorem firstByte_placed {rest : List Char} (whole : text = String.ofList (before ++ rest)) :
    firstByte text (placed (bytes before) rest) = bytes before := by
  cases rest with
  | nil => simp [firstByte, placed, whole, bytes]
  | cons c later => rfl

/-- A piece is cut between two characters. -/
theorem piece_eq (whole : text = String.ofList (before ++ part ++ after)) (color : String → Color) :
    piece? text (bytes before) (bytes (before ++ part)) color =
      some ⟨String.ofList part, { foreground := some (color (String.ofList part)) }⟩ := by
  rw [piece?, whole, Text.bytes_append, String.ofList_append, String.ofList_append]
  simp only [bytes, Text.slice_append]
  rfl

/-- A piece that is read stands before the pieces behind it. -/
theorem bind_piece (span : Span) (behind : Option Line) :
    (do let first ← some span; let line ← behind; return first :: line : Option Line) =
    behind.map (span :: ·) := by
  cases behind <;> rfl

theorem run_behind (belongs : Char → Bool) (before : List Char) (c : Char) (later : List Char) :
    ((placed (bytes before + c.utf8Size) later).dropWhile fun entry => belongs entry.2) =
      placed (bytes (before ++ c :: later.takeWhile belongs)) (later.dropWhile belongs) := by
  rw [Text.dropWhile_placed, Text.bytes_append, Text.bytes_cons, Nat.add_assoc]

/-- A run is read as one piece, up to the first character that does not belong to it. -/
theorem read_run (belongs : Char → Bool) (color : String → Color) {c : Char} {later : List Char}
    (whole : text = String.ofList (before ++ c :: later)) :
    (do
      let behind := (placed (bytes before + c.utf8Size) later).dropWhile fun entry => belongs entry.2
      let span ← piece? text (bytes before) (firstByte text behind) color
      let line ← ofPlaced? text behind
      return span :: line : Option Line) =
      (ofPlaced? text (placed (bytes (before ++ c :: later.takeWhile belongs)) (later.dropWhile belongs))).map
        (⟨String.ofList (c :: later.takeWhile belongs),
          { foreground := some (color (String.ofList (c :: later.takeWhile belongs))) }⟩ :: ·) := by
  have split : text =
      String.ofList (before ++ (c :: later.takeWhile belongs) ++ later.dropWhile belongs) := by
    rw [whole, List.append_assoc, List.cons_append, List.takeWhile_append_dropWhile]
  simp only [run_behind, firstByte_placed split, piece_eq split]
  exact bind_piece ..

structure Begins (text : String) (before rest part after : List Char) : Prop where
  split : rest = part ++ after
  piece : IsPiece before part after
  apart : Apart (before ++ part) after
  read : ∃ style, ofPlaced? text (placed (bytes before) rest) =
    (ofPlaced? text (placed (bytes (before ++ part)) after)).map (⟨String.ofList part, style⟩ :: ·)

theorem begins (c : Char) (later : List Char) (apart : Apart before (c :: later))
    (whole : text = String.ofList (before ++ c :: later)) :
    ∃ part after, Begins text before (c :: later) part after := by
  by_cases numeral : isNumeral c
  · have run := isRun_takeWhile numeral (apart.numeral c rfl numeral) later
    refine ⟨_, _, by simp, .numeral run, apart_numeral run, ?_⟩
    rw [placed, ofPlaced?, if_pos numeral]
    exact ⟨_, read_run isNumeral (fun _ => Palette.number) whole⟩
  · by_cases letter : Token.isLetter c
    · have run := isRun_takeWhile letter (apart.letter c rfl letter) later
      refine ⟨_, _, by simp, .word run, apart_word run, ?_⟩
      rw [placed, ofPlaced?, if_neg numeral, if_pos letter]
      exact ⟨_, read_run Token.isLetter wordColor whole⟩
    · have numeral : isNumeral c = false := by simpa using numeral
      have letter : Token.isLetter c = false := by simpa using letter
      have whole : text = String.ofList (before ++ [c] ++ later) := by rw [whole, List.append_assoc]; rfl
      have stop : bytes before + c.utf8Size = bytes (before ++ [c]) := by simp
      refine ⟨[c], later, rfl, .symbol c rfl numeral letter, apart_symbol numeral letter, ?_⟩
      rw [placed, ofPlaced?, numeral, letter, stop, piece_eq whole]
      exact ⟨_, bind_piece ..⟩

/-- What is left of a text is read to its end, and the pieces make it up. -/
theorem exists_tiles (before rest : List Char) (apart : Apart before rest)
    (whole : text = String.ofList (before ++ rest)) :
    ∃ line, ofPlaced? text (placed (bytes before) rest) = some line ∧ Tiles before rest line := by
  induction length : rest.length using Nat.strong_induction_on generalizing before rest with
  | _ n ih =>
    cases rest with
    | nil => exact ⟨[], by simp [placed, ofPlaced?], .nil⟩
    | cons c later =>
      obtain ⟨part, after, split, piece, behind, style, read⟩ := begins c later apart whole
      have shorter : after.length < n := by
        have filled := List.length_pos_iff.mpr piece.filled
        rw [← length, split, List.length_append]
        omega
      rw [split, ← List.append_assoc] at whole
      obtain ⟨line, rest_read, tiles⟩ := ih _ shorter (before ++ part) after behind whole rfl
      refine ⟨⟨String.ofList part, style⟩ :: line, ?_, split ▸ .cons piece tiles⟩
      rw [read, rest_read]
      rfl

/-- A text is read whole. -/
theorem ofText_tiles (text : String) :
    ofText? text = some (ofText text) ∧ Tiles [] text.toList (ofText text) := by
  have apart : Apart [] text.toList := ⟨by simp, by simp⟩
  have whole : text = String.ofList ([] ++ text.toList) := by simp
  obtain ⟨line, read, tiles⟩ := exists_tiles [] text.toList apart whole
  have read : ofText? text = some line := by simpa [ofText?] using read
  rw [ofText, read]
  exact ⟨rfl, tiles⟩

/-- Coloring loses nothing of a text, and cuts it where a run or another character ends. -/
theorem ofText_pieces (text : String) : ofText? text = some (ofText text) ∧ (ofText text).text = text ∧
    (ofText text).length ≤ text.length ∧
    ∀ (front back : Line) (span : Span), ofText text = front ++ span :: back →
      IsPiece front.text.toList span.text.toList back.text.toList := by
  obtain ⟨read, tiles⟩ := ofText_tiles text
  refine ⟨read, ?_, ?_, ?_⟩
  · rw [tiles.text_eq, String.ofList_toList]
  · exact tiles.length_le.trans_eq String.length_toList
  · intro front back span split
    exact tiles.isPiece split

/-- The word behind a number and a character of two bytes ends before the digit. -/
theorem pieces_of_accented : ofText "2.5éxy7" =
      [⟨"2.5", { foreground := some Palette.number }⟩, ⟨"é", { foreground := some Palette.text }⟩] ++
        ⟨"xy", { foreground := some Palette.muted }⟩ :: [⟨"7", { foreground := some Palette.number }⟩] ∧
    IsPiece "2.5é".toList "xy".toList "7".toList := by
  have split : ofText "2.5éxy7" =
      [⟨"2.5", { foreground := some Palette.number }⟩, ⟨"é", { foreground := some Palette.text }⟩] ++
        ⟨"xy", { foreground := some Palette.muted }⟩ :: [⟨"7", { foreground := some Palette.number }⟩] := by
    decide +kernel
  exact ⟨split, (ofText_pieces "2.5éxy7").2.2.2 _ _ _ split⟩

end Reading
end Highlight

namespace RequestLine

/-- A request stands between the mark and the cursor as it was typed. -/
theorem text_line (mode : Mode) {input : String} (typed : input ≠ "") :
    (line mode input).text = "> " ++ input ++ "█" := by
  have colored := (Highlight.ofText_tiles input).2.text_eq
  rw [String.ofList_toList] at colored
  rw [line, if_neg (by simpa using typed), List.cons_append, Line.text_cons, Line.text_append, colored]
  exact (String.append_assoc ..).symm

end RequestLine
end Stepwise.Display
