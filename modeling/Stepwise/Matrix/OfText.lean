import Stepwise.Decimal.Read
import Stepwise.Matrix.Basic
import Stepwise.Text.Blank

/-! Reading a matrix such as `[1,2;3,4]`. Rows are separated by semicolons, entries by commas or
blanks. Blanks around the brackets are left aside. -/
namespace Stepwise

/-- The text between an opening and a closing character at the ends of a trimmed text. -/
def Text.between? (opening closing : Char) (text : String) : Option String :=
  match Text.trimList text.toList with
  | first :: rest =>
    if first = opening ∧ rest.getLast? = some closing then some (String.ofList rest.dropLast) else none
  | [] => none

/-- The numbers in the pieces of a text; empty pieces are left out. -/
def Decimal.readAll? (pieces : List String) : Option (List Float) :=
  (pieces.filter (!·.isEmpty)).mapM Decimal.read?

namespace Matrix

def readRow? (text : String) : Option (List Float) :=
  Decimal.readAll? (Text.split (fun c => c = ',' || Text.isBlank c) text)

def ofText (text : String) : Except ComputationError Matrix :=
  let rows? := (Text.between? '[' ']' text).bind fun body =>
    (Text.split (· = ';') body).mapM readRow?
  match rows? with
  | some rows => (ofRows rows).mapError fun _ => .malformedLiteral .matrix text
  | none => .error (.malformedLiteral .matrix text)

end Matrix

end Stepwise
