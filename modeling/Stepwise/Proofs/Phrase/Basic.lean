import Stepwise.Proofs.Token.Grouping
import Stepwise.Proofs.Tree.Draft

/-! Expressions as they are written, bracket by bracket. A phrase fixes its characters, the tokens that
these split into, and the tree that the tokens are built into. A phrase is valid when no operator in it
takes an operand that binds too loosely to be written there without brackets. -/
namespace Stepwise

namespace Token

def Kind.symbol : Kind → Char
  | equals => '='
  | plus => '+'
  | minus => '-'
  | times => '*'
  | divide => '/'
  | power => '^'
  | opening => '('
  | closing => ')'
  | _ => ' '

def symbol (kind : Kind) (position : Nat) : Token := ⟨kind, kind.symbol.toString, some position⟩

/-- How tightly the left operand of an operator has to bind. -/
def Kind.leftTier : Kind → Nat
  | plus | minus => 1
  | times | divide => 2
  | power => 4
  | _ => 0

def Kind.rightTier : Kind → Nat
  | equals => 1
  | plus | minus => 2
  | times | divide | power => 3
  | _ => 0

end Token

/-- An expression with the brackets that are written in it. -/
inductive Phrase where
  | number (digits : String)
  | factorial (digits : String)
  | letter (name : String)
  | power (name digits : String)
  /-- A letter with an exponent in brackets. -/
  | raised (name : String) (exponent : Phrase)
  | call (kind : Token.Kind) (keyword : String) (argument : Phrase)
  | bracket (inner : Phrase)
  | sign (kind : Token.Kind) (operand : Phrase)
  | operator (kind : Token.Kind) (left right : Phrase)

namespace Phrase

def gap (kind : Token.Kind) : List Char := if kind = .equals then [' '] else []

def chars : Phrase → List Char
  | number digits => digits.toList
  | factorial digits => digits.toList ++ ['!']
  | letter name => name.toList
  | power name digits => name.toList ++ '^' :: digits.toList
  | raised name exponent => name.toList ++ '^' :: '(' :: exponent.chars ++ [')']
  | call _ keyword argument => keyword.toList ++ '(' :: argument.chars ++ [')']
  | bracket inner => '(' :: inner.chars ++ [')']
  | sign kind operand => kind.symbol :: operand.chars
  | operator kind left right => left.chars ++ gap kind ++ kind.symbol :: gap kind ++ right.chars

def width (p : Phrase) : Nat := p.chars.length

def tokens : Phrase → Nat → List Token
  | number digits, position => [⟨.number, digits, some position⟩]
  | factorial digits, position => [⟨.factorial, digits, some position⟩]
  | letter name, position => [⟨.letter, name, some position⟩]
  | power name digits, position =>
    [⟨.letter, name, some position⟩, .symbol .power (position + 1), ⟨.number, digits, some (position + 2)⟩]
  | raised name exponent, position =>
    ⟨.letter, name, some position⟩ :: .symbol .power (position + 1) :: .symbol .opening (position + 2) ::
      exponent.tokens (position + 3) ++ [.symbol .closing (position + 3 + exponent.width)]
  | call kind keyword argument, position =>
    ⟨kind, keyword, some position⟩ :: .symbol .opening (position + keyword.toList.length) ::
      argument.tokens (position + keyword.toList.length + 1) ++
        [.symbol .closing (position + keyword.toList.length + 1 + argument.width)]
  | bracket inner, position =>
    .symbol .opening position :: inner.tokens (position + 1) ++
      [.symbol .closing (position + 1 + inner.width)]
  | sign kind operand, position => .symbol kind position :: operand.tokens (position + 1)
  | operator kind left right, position =>
    left.tokens position ++ .symbol kind (position + left.width + (gap kind).length) ::
      right.tokens (position + left.width + (gap kind).length + 1 + (gap kind).length)

end Phrase

/-- A letter with its coefficient and its exponent. -/
def Tree.ofLetter {ν : Type} (coefficient letter caret : Token) (exponent : Tree (Label ν)) :
    Tree (Label ν) :=
  fork { token := .inserted .times "*" } (leaf { token := coefficient })
    (fork { token := caret } (leaf { token := letter }) exponent)

namespace Phrase

/-- The digits behind a minus sign that makes them a negative number. -/
def negated? : Token.Kind → Phrase → Option String
  | .minus, number digits => some digits
  | _, _ => none

theorem of_negated {kind : Token.Kind} {p : Phrase} {digits : String}
    (negative : negated? kind p = some digits) :
    kind = .minus ∧ p = number digits := by
  unfold negated? at negative
  split at negative
  · exact ⟨rfl, congrArg number (Option.some.inj negative)⟩
  · cases negative

def tree {ν : Type} : Phrase → Nat → Tree (Label ν)
  | number digits, position => .leaf { token := ⟨.number, digits, some position⟩ }
  | factorial digits, position => .leaf { token := ⟨.factorial, digits, some position⟩ }
  | letter name, position =>
    .ofLetter (.inserted .number "1") ⟨.letter, name, some position⟩ (.inserted .power "^")
      (.leaf { token := .inserted .number "1" })
  | power name digits, position =>
    .ofLetter (.inserted .number "1") ⟨.letter, name, some position⟩ (.symbol .power (position + 1))
      (.leaf { token := ⟨.number, digits, some (position + 2)⟩ })
  | raised name exponent, position =>
    .ofLetter (.inserted .number "1") ⟨.letter, name, some position⟩ (.symbol .power (position + 1))
      (exponent.tree (position + 3))
  | call kind keyword argument, position =>
    (argument.tree (position + keyword.toList.length + 1)).applyCall (some ⟨kind, keyword, some position⟩)
  | bracket inner, position => inner.tree (position + 1)
  | sign kind operand, position =>
    match negated? kind operand with
    | some digits => .leaf { token := ⟨.number, "-" ++ digits, some position⟩ }
    | none =>
      .fork { token := .symbol kind position, unary := true } (.leaf { token := .inserted .number "0" })
        (operand.tree (position + 1))
  | operator kind left right, position =>
    .fork { token := .symbol kind (position + left.width + (gap kind).length) } (left.tree position)
      (right.tree (position + left.width + (gap kind).length + 1 + (gap kind).length))

section

variable (rest : List Token) (position : Nat)

theorem tokens_raised (name : String) (exponent : Phrase) :
    (raised name exponent).tokens position ++ rest =
      ⟨.letter, name, some position⟩ :: .symbol .power (position + 1) :: .symbol .opening (position + 2) ::
        (exponent.tokens (position + 3) ++ .symbol .closing (position + 3 + exponent.width) :: rest) := by
  simp [tokens]

theorem tokens_call (kind : Token.Kind) (keyword : String) (argument : Phrase) :
    (call kind keyword argument).tokens position ++ rest =
      ⟨kind, keyword, some position⟩ :: .symbol .opening (position + keyword.toList.length) ::
        (argument.tokens (position + keyword.toList.length + 1) ++
          .symbol .closing (position + keyword.toList.length + 1 + argument.width) :: rest) := by
  simp [tokens]

theorem tokens_bracket (inner : Phrase) :
    (bracket inner).tokens position ++ rest =
      .symbol .opening position ::
      (inner.tokens (position + 1) ++ .symbol .closing (position + 1 + inner.width) :: rest) := by
  simp [tokens]

theorem tokens_operator (kind : Token.Kind) (left right : Phrase) :
    (operator kind left right).tokens position ++ rest =
      left.tokens position ++ .symbol kind (position + left.width + (gap kind).length) ::
        (right.tokens (position + left.width + (gap kind).length + 1 + (gap kind).length) ++ rest) := by
  simp [tokens]

end

def tier : Phrase → Nat
  | sign _ _ => 1
  | operator kind _ _ => kind.rank?.getD 0
  | _ => 4

def opens : Phrase → Token.Kind
  | number _ => .number
  | factorial _ => .factorial
  | letter _ | power _ _ | raised _ _ => .letter
  | call kind _ _ => kind
  | bracket _ => .opening
  | sign kind _ => kind
  | operator _ left _ => left.opens

/-- What follows does not become the exponent of a lone letter. -/
def Ends (p : Phrase) (kind next : Token.Kind) : Prop :=
  (∃ name, p = letter name) → kind = .power → next ≠ .number ∧ next ≠ .opening

/-- Every token is spelled as its kind asks for, and operands are in brackets where they have to be. -/
def Valid : Phrase → Prop
  | number digits => Token.IsNumeral digits.toList
  | factorial digits => Token.IsNumeral digits.toList ∧ Expression.Builder.smallWhole? digits = none
  | letter name => ∃ c, 'a' ≤ c ∧ c ≤ 'z' ∧ name.toList = [c]
  | power name digits => (∃ c, 'a' ≤ c ∧ c ≤ 'z' ∧ name.toList = [c]) ∧ Token.IsNumeral digits.toList
  | raised name exponent => (∃ c, 'a' ≤ c ∧ c ≤ 'z' ∧ name.toList = [c]) ∧ exponent.Valid
  | call kind keyword argument => kind.IsCall ∧ Token.Spelled ⟨kind, keyword, none⟩ ∧ argument.Valid
  | bracket inner => inner.Valid
  | sign kind operand => (kind = .plus ∨ kind = .minus) ∧ 2 ≤ operand.tier ∧ operand.Valid
  | operator kind left right =>
    kind.rank?.isSome ∧ left.Valid ∧ right.Valid ∧ kind.leftTier ≤ left.tier ∧ kind.rightTier ≤ right.tier ∧
      left.Ends kind right.opens

def Spelled : Phrase → Prop
  | number digits => Token.IsNumeral digits.toList
  | factorial digits => Token.IsNumeral digits.toList
  | letter name => ∃ c, 'a' ≤ c ∧ c ≤ 'z' ∧ name.toList = [c]
  | power name digits => (∃ c, 'a' ≤ c ∧ c ≤ 'z' ∧ name.toList = [c]) ∧ Token.IsNumeral digits.toList
  | raised name exponent => (∃ c, 'a' ≤ c ∧ c ≤ 'z' ∧ name.toList = [c]) ∧ exponent.Spelled
  | call kind keyword argument => kind.IsCall ∧ Token.Spelled ⟨kind, keyword, none⟩ ∧ argument.Spelled
  | bracket inner => inner.Spelled
  | sign kind operand => (kind = .plus ∨ kind = .minus) ∧ operand.Spelled
  | operator kind left right => kind.rank?.isSome ∧ left.Spelled ∧ right.Spelled

theorem Valid.spelled {p : Phrase} (valid : p.Valid) : p.Spelled := by
  induction p with
  | number digits | letter name | power name digits => exact valid
  | factorial digits => exact valid.1
  | raised name exponent ih => exact ⟨valid.1, ih valid.2⟩
  | call kind keyword argument ih => exact ⟨valid.1, valid.2.1, ih valid.2.2⟩
  | bracket inner ih => exact ih valid
  | sign kind operand ih => exact ⟨valid.1, ih valid.2.2⟩
  | operator kind left right ihl ihr => exact ⟨valid.1, ihl valid.2.1, ihr valid.2.2.1⟩

/-- The first token. -/
theorem tokens_eq (p : Phrase) (position : Nat) :
    ∃ first rest, p.tokens position = first :: rest ∧ first.kind = p.opens ∧ first.isInserted = false := by
  induction p generalizing position with
  | operator kind left right ihl ihr =>
    obtain ⟨first, rest, split, opens, read⟩ := ihl position
    exact ⟨first, _, by rw [tokens, split]; rfl, opens, read⟩
  | _ => exact ⟨_, _, rfl, rfl, rfl⟩

end Phrase

end Stepwise
