import Stepwise.Token.Scan

/-! Implicit products are spelled out and bracketed before the expression is built, so that
precedence never has to be guessed for them: `3x^2` becomes `( 3 * x ^ 2 )`, a lone `x` becomes
`( 1 * x ^ 1 )` and `2sin(30)` becomes `2 * sin ( 30 )`. An exponent in brackets belongs to its
variable's group, which closes behind it. No written token is lost or moved. -/
namespace Stepwise.Token

/-- What has been put out so far, last token first, while variables are being grouped. -/
structure Grouping where
  out : List Token := []
  /-- How many written brackets are open. -/
  depth : Nat := 0
  /-- The depths of the variable groups that wait for the bracket of their exponent to close. -/
  waiting : List Nat := []

namespace Grouping

def put (g : Grouping) (token : Token) : Grouping := { g with out := token :: g.out }

/-- A variable group up to its letter. A number right in front of the letter is its coefficient. -/
def openGroup (g : Grouping) (letter : Token) : Grouping :=
  let (coefficient, before) := match g.out with
    | last :: before => if last.kind = .number then (last, before) else (inserted .number "1", g.out)
    | [] => (inserted .number "1", [])
  { g with out := letter :: inserted .times "*" :: coefficient :: inserted .opening "(" :: before }

def closeGroup (g : Grouping) : Grouping := g.put (inserted .closing ")")

def unitExponent (g : Grouping) : Grouping :=
  (g.put (inserted .power "^")).put (inserted .number "1")

def openBracket (g : Grouping) (bracket : Token) : Grouping :=
  { g.put bracket with depth := g.depth + 1 }

/-- A closing bracket also closes the variable group whose exponent it ends. -/
def closeBracket (g : Grouping) (bracket : Token) : Grouping :=
  let depth := g.depth - 1
  match g.waiting with
  | next :: waiting =>
    if next = depth then ({ g.put bracket with depth, waiting } : Grouping).closeGroup
    else { g.put bracket with depth }
  | [] => { g.put bracket with depth }

/-- A keyword right behind a number multiplies it. -/
def putCall (g : Grouping) (keyword : Token) : Grouping :=
  match g.out with
  | last :: _ => if last.kind = .number then (g.put (inserted .times "*")).put keyword else g.put keyword
  | [] => g.put keyword

/-- One token that is no variable. -/
def putOther (g : Grouping) (token : Token) : Grouping :=
  if token.kind.IsCall then g.putCall token
  else if token.kind = .opening then g.openBracket token
  else if token.kind = .closing then g.closeBracket token
  else g.put token

/-- Ends the group of a letter that `rest` follows. A written number is its exponent, a written
bracket opens it, and without either it is one. The result holds what is left of `rest`. -/
def takeExponent (g : Grouping) (rest : List Token) : Grouping × List Token :=
  match rest with
  | caret :: exponent :: after =>
    if caret.kind = .power ∧ exponent.kind = .number then
      (((g.put caret).put exponent).closeGroup, after)
    else if caret.kind = .power ∧ exponent.kind = .opening then
      ({ g.put caret with waiting := g.depth :: g.waiting }, exponent :: after)
    else (g.unitExponent.closeGroup, rest)
  | _ => (g.unitExponent.closeGroup, rest)

theorem length_takeExponent (g : Grouping) (rest : List Token) :
    (g.takeExponent rest).2.length ≤ rest.length := by
  unfold takeExponent
  split
  · split
    · simp; omega
    · split <;> simp
  · exact Nat.le_refl _

def run (g : Grouping) (tokens : List Token) : List Token :=
  match tokens with
  | [] => g.out.reverse
  | token :: rest =>
    if token.kind = .letter then
      let ended := (g.openGroup token).takeExponent rest
      ended.1.run ended.2
    else (g.putOther token).run rest
termination_by tokens.length
decreasing_by
  · exact Nat.lt_succ_of_le (length_takeExponent _ _)
  · simp

end Grouping

def groupProducts (tokens : List Token) : List Token := Grouping.run {} tokens

/-- The tokens an expression is built from. -/
def ofText (text : String) : Except LexicalError (List Token) := (scan text).map groupProducts

end Stepwise.Token
