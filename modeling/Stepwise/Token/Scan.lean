import Stepwise.Failure
import Stepwise.Text.Blank
import Stepwise.Token.Basic

/-! Splitting a text into tokens. A lexeme is a number with at most one point, not at its end; a
number followed by `!`; a maximal run of ASCII letters that is a keyword or one small letter; or
one of the eight operator and bracket characters. Blanks may stand between lexemes and mean
nothing. The first character that starts no lexeme stops the scan. -/
namespace Stepwise.Token

/-- A token and the number of characters it takes beyond its first. -/
abbrev Lexeme := Token × Nat

def isLetter (c : Char) : Bool := ('a' ≤ c && c ≤ 'z') || ('A' ≤ c && c ≤ 'Z')

/-- A number, or a factorial when `!` follows it directly. -/
def numberLexeme (position : Nat) (text rest : List Char) : Lexeme :=
  match rest with
  | '!' :: _ => (⟨.factorial, String.ofList text, some position⟩, text.length)
  | _ => (⟨.number, String.ofList text, some position⟩, text.length - 1)

/-- The lexeme at the head of `source`, which starts with a digit or a point. -/
def scanNumber (position : Nat) (source : List Char) : Except LexicalError Lexeme :=
  let whole := source.takeWhile Char.isDigit
  match source.dropWhile Char.isDigit with
  | '.' :: more =>
    let fraction := more.takeWhile Char.isDigit
    let text := whole ++ '.' :: fraction
    match more.dropWhile Char.isDigit with
    | '.' :: _ => .error (.invalidNumber (String.ofList (text ++ ['.'])) position)
    | rest =>
      if fraction = [] then .error (.invalidNumber (String.ofList text) position)
      else .ok (numberLexeme position text rest)
  | rest => .ok (numberLexeme position whole rest)

def wordKind? (word : String) : Option Kind :=
  match word with
  | "sin" | "cos" | "tan" => some .trig
  | "log" => some .log
  | "sqrt" => some .sqrt
  | "diff" => some .diff
  | _ =>
    match word.toList with
    | [c] => if 'a' ≤ c ∧ c ≤ 'z' then some .letter else none
    | _ => none

def scanWord (position : Nat) (source : List Char) : Except LexicalError Lexeme :=
  let letters := source.takeWhile isLetter
  let word := String.ofList letters
  match wordKind? word with
  | some kind => .ok (⟨kind, word, some position⟩, letters.length - 1)
  | none => .error (.invalidIdentifier word position)

def symbolKind? : Char → Option Kind
  | '=' => some .equals
  | '+' => some .plus
  | '-' => some .minus
  | '*' => some .times
  | '/' => some .divide
  | '^' => some .power
  | '(' => some .opening
  | ')' => some .closing
  | _ => none

/-- The lexeme that starts with `c`. -/
def scanLexeme (position : Nat) (c : Char) (rest : List Char) : Except LexicalError Lexeme :=
  if c.isDigit ∨ c = '.' then scanNumber position (c :: rest)
  else if isLetter c then scanWord position (c :: rest)
  else match symbolKind? c with
    | some kind => .ok (⟨kind, c.toString, some position⟩, 0)
    | none => .error (.invalidCharacter c position)

/-- The tokens of `source`, which starts at `position`, behind those already `read`, last first. -/
def scanFrom (read : List Token) (position : Nat) (source : List Char) :
    Except LexicalError (List Token) :=
  match source with
  | [] => .ok ((⟨.finish, "", some position⟩ :: read).reverse)
  | c :: rest =>
    if Text.isBlank c then scanFrom read (position + 1) rest
    else match scanLexeme position c rest with
      | .ok (token, extra) => scanFrom (token :: read) (position + 1 + extra) (rest.drop extra)
      | .error error => .error error
termination_by source.length
decreasing_by
  · simp
  · simp only [List.length_drop, List.length_cons]; omega

/-- The tokens of a text as it is written. The list ends with the end of the text. -/
def scan (text : String) : Except LexicalError (List Token) := scanFrom [] 0 text.toList

end Stepwise.Token
