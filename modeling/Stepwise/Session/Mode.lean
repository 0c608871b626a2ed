/-! The four kinds of request, in the order in which they follow one another. -/
namespace Stepwise

inductive Mode where
  | expression
  | system
  | matrix
  | set
deriving DecidableEq, Repr

namespace Mode

def all : List Mode := [expression, system, matrix, set]

def name : Mode → String
  | expression => "Expression"
  | system => "System"
  | matrix => "Matrix"
  | set => "Set"

/-- The mode after this one; the first comes after the last. -/
def next : Mode → Mode
  | expression => system
  | system => matrix
  | matrix => set
  | set => expression

def previous : Mode → Mode
  | expression => set
  | system => expression
  | matrix => system
  | set => matrix

@[simp] theorem previous_next (mode : Mode) : mode.next.previous = mode := by cases mode <;> rfl

@[simp] theorem next_previous (mode : Mode) : mode.previous.next = mode := by cases mode <;> rfl

/-- A request to show where none is typed. -/
def placeholder : Mode → String
  | expression => "2x+4=10"
  | system => "x+y=3; x-y=1"
  | matrix => "2*I[1,2;3,4] + T[1,0;0,1]"
  | set => "\x7b1,2,3\x7d union \x7b2,3,4\x7d"

end Mode

end Stepwise
