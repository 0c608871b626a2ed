/-! Tokens of the expression language. A token that was read carries the position of its first
character, counted in characters from zero; a token put in to spell out an implicit product, a
sign or an expanded call has none. -/
namespace Stepwise

inductive Token.Kind where
  | number
  | equals
  | plus
  | minus
  | divide
  | times
  | power
  | opening
  | closing
  | polynomial
  | trig
  | log
  | sqrt
  | diff
  | letter
  | factorial
  | finish
deriving DecidableEq, Repr

/-- `text` is the spelling; that of a factorial leaves out the `!`. -/
structure Token where
  kind : Token.Kind
  text : String
  position : Option Nat
deriving DecidableEq, Repr

instance : Inhabited Token := ⟨⟨.finish, "", none⟩⟩

/-- A token that does not come from the text. -/
def Token.inserted (kind : Token.Kind) (text : String) : Token := ⟨kind, text, none⟩

def Token.isInserted (token : Token) : Bool := token.position.isNone

namespace Token.Kind

/-- The tier of a binary operator, the loosest first. -/
def rank? : Kind → Option Nat
  | equals => some 0
  | plus | minus => some 1
  | divide | times => some 2
  | power => some 3
  | _ => none

/-- A keyword that takes the bracketed group after it as its argument. -/
def IsCall (kind : Kind) : Prop := kind = trig ∨ kind = log ∨ kind = sqrt ∨ kind = diff

instance (kind : Kind) : Decidable kind.IsCall := inferInstanceAs (Decidable (_ ∨ _))

end Token.Kind

end Stepwise
