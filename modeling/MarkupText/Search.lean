namespace MarkupText

variable {α : Type}

/-- The position between `low` and `high` at which `p` turns false, by halving the range. -/
def bisect (p : α → Bool) (xs : Array α) (low high : Nat) : Nat :=
  if low < high then
    if xs[(low + high) / 2]?.any p then bisect p xs ((low + high) / 2 + 1) high
    else bisect p xs low ((low + high) / 2)
  else low
termination_by high - low

/-- How many elements satisfy `p`, where those that do come before all others. -/
def countLeading (p : α → Bool) (xs : Array α) : Nat := bisect p xs 0 xs.size

/-- A set of characters as ascending ranges of code points, both ends included. -/
abbrev CharTable := Array (Nat × Nat)

namespace CharTable

def place? (table : CharTable) (c : Char) : Option Nat :=
  let (first, last) := table.getD (countLeading (·.1 ≤ c.toNat) table - 1) (0, 0)
  if first ≤ c.toNat ∧ c.toNat ≤ last then some (c.toNat - first) else none

def contains (table : CharTable) (c : Char) : Bool := (place? table c).isSome

end CharTable

end MarkupText
