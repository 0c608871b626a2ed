import Stepwise.Display.Line
import Stepwise.Text.Split
import Stepwise.Token.Scan

/-! Colors for the text of a step. Digits and points run together, and so do letters; any other
character stands alone. The pieces are cut out of the text by the bytes at which characters begin. -/
namespace Stepwise.Display.Highlight

def isNumeral (c : Char) : Bool := c.isDigit || c = '.'

def functionNames : List String := ["sin", "cos", "tan", "log", "diff"]

/-- Words that are neither functions nor variables belong to messages. -/
def wordColor (word : String) : Color :=
  if word ∈ functionNames then Palette.function
  else if word.utf8ByteSize = 1 then Palette.letter
  else Palette.muted

def symbolColor (c : Char) : Color :=
  if c ∈ ['+', '-', '*', '/', '^', '=', '!'] then Palette.operator
  else if c ∈ ['(', ')', '[', ']', '\x7b', '\x7d'] then Palette.primary
  else Palette.text

/-- The byte at which the first of the characters that are left begins, or the end of the text. -/
def firstByte (text : String) : List (Nat × Char) → Nat
  | [] => text.utf8ByteSize
  | (start, _) :: _ => start

/-- The piece between two bytes. -/
def piece? (text : String) (start stop : Nat) (color : String → Color) : Option Span :=
  (Text.slice? text start stop).map fun part => ⟨part, { foreground := some (color part) }⟩

/-- The pieces of a text from the first of its characters that are left. There are none when the
text would be cut inside a character. -/
def ofPlaced? (text : String) (left : List (Nat × Char)) : Option Line :=
  match left with
  | [] => some []
  | (start, c) :: rest =>
    if isNumeral c then do
      let behind := rest.dropWhile fun placed => isNumeral placed.2
      let span ← piece? text start (firstByte text behind) fun _ => Palette.number
      let line ← ofPlaced? text behind
      return span :: line
    else if Token.isLetter c then do
      let behind := rest.dropWhile fun placed => Token.isLetter placed.2
      let span ← piece? text start (firstByte text behind) wordColor
      let line ← ofPlaced? text behind
      return span :: line
    else do
      let span ← piece? text start (start + c.utf8Size) fun _ => symbolColor c
      let line ← ofPlaced? text rest
      return span :: line
termination_by left.length
decreasing_by
  all_goals
    have numerals :=
      (List.dropWhile_sublist (fun placed : Nat × Char => isNumeral placed.2) (l := rest)).length_le
    have letters := (List.dropWhile_sublist (fun placed : Nat × Char => Token.isLetter placed.2)
      (l := rest)).length_le
    simp only [List.length_cons]
    omega

def ofText? (text : String) : Option Line := ofPlaced? text (Text.placed 0 text.toList)

def ofText (text : String) : Line := (ofText? text).getD []

end Stepwise.Display.Highlight
