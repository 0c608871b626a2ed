/-! Cutting a text at the first place where a given text stands, or at places counted in bytes of
its UTF-8 form. A character may take up several bytes, and a text can be cut only between
characters. -/
namespace Stepwise.Text

/-- Goes on from `before`, the characters already passed, last first. -/
def cutFrom? (mark before : List Char) : List Char → Option (List Char × List Char)
  | [] => if mark.isEmpty then some (before.reverse, []) else none
  | c :: rest =>
    if mark.isPrefixOf (c :: rest) then some (before.reverse, (c :: rest).drop mark.length)
    else cutFrom? mark (c :: before) rest

/-- What stands before and behind the first `mark`. -/
def cut? (mark : String) (text : String) : Option (String × String) :=
  (cutFrom? mark.toList [] text.toList).map fun (before, behind) =>
    (String.ofList before, String.ofList behind)

/-- The characters, each with the byte at which it begins when the first one begins at `start`. -/
def placed (start : Nat) : List Char → List (Nat × Char)
  | [] => []
  | c :: rest => (start, c) :: placed (start + c.utf8Size) rest

/-- The text from one byte up to another. There is none when they stand in the wrong order, or when
one of them lies inside a character or beyond the end. -/
def slice? (text : String) (start stop : Nat) : Option String :=
  if between : start ≤ stop ∧ String.Pos.Raw.IsValid text ⟨start⟩ ∧ String.Pos.Raw.IsValid text ⟨stop⟩ then
    some (text.extract ⟨⟨start⟩, between.2.1⟩ ⟨⟨stop⟩, between.2.2⟩)
  else none

end Stepwise.Text
