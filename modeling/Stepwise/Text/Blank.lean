/-! Blank characters are those of the Unicode property White_Space: twenty-five code points, among
them the no-break space and the line separator, but neither the zero-width space nor the byte
order mark. Trimming and splitting go by this set. -/
namespace Stepwise.Text

def isBlank (c : Char) : Bool :=
  let n := c.toNat
  (0x9 ≤ n && n ≤ 0xD) || n = 0x20 || n = 0x85 || n = 0xA0 || n = 0x1680 ||
    (0x2000 ≤ n && n ≤ 0x200A) || n = 0x2028 || n = 0x2029 || n = 0x202F || n = 0x205F || n = 0x3000

def trimList (text : List Char) : List Char :=
  ((text.dropWhile isBlank).reverse.dropWhile isBlank).reverse

/-- The text without the blanks at its two ends. -/
def trim (text : String) : String := String.ofList (trimList text.toList)

/-- The pieces between the characters that `separates` holds of; there is always one. -/
def splitList (separates : Char → Bool) : List Char → List (List Char)
  | [] => [[]]
  | c :: rest =>
    if separates c then [] :: splitList separates rest
    else match splitList separates rest with
      | piece :: pieces => (c :: piece) :: pieces
      | [] => [[c]]

def split (separates : Char → Bool) (text : String) : List String :=
  (splitList separates text.toList).map String.ofList

end Stepwise.Text
