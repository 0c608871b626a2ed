import Stepwise.Session.Entry

/-! The computed requests, oldest first. There is room for a fixed number of them, at least one;
when it is used up, the oldest makes way for the newest. -/
namespace Stepwise

structure History where
  limit : Nat
  entries : List Entry
  limit_pos : 0 < limit
  length_le : entries.length ≤ limit

namespace History

/-- No room at all counts as room for one entry. -/
def empty (limit : Nat) : History := ⟨max limit 1, [], by omega, by simp⟩

def defaultLimit : Nat := 200

def size (history : History) : Nat := history.entries.length

def isEmpty (history : History) : Bool := history.entries.isEmpty

def get? (history : History) (index : Nat) : Option Entry := history.entries[index]?

def latest? (history : History) : Option Entry := history.entries.getLast?

/-- The newest entries that there is room for. -/
def newest (limit : Nat) (entries : List Entry) : List Entry :=
  entries.drop (entries.length - limit)

theorem length_newest_le (limit : Nat) (entries : List Entry) :
    (newest limit entries).length ≤ limit := by
  simp only [newest, List.length_drop]; omega

def push (history : History) (entry : Entry) : History :=
  { history with
    entries := newest history.limit (history.entries ++ [entry])
    length_le := length_newest_le _ _ }

def clear (history : History) : History :=
  { history with entries := [], length_le := by simp }

end History

end Stepwise
