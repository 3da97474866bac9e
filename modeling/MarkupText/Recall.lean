namespace MarkupText

variable {α : Type}

/-- What a forward search found last: from position `asked` on, the first hit is at `found`. -/
structure Recall where
  asked : Nat
  found : Option Nat
deriving DecidableEq, Repr

namespace Recall

def search (hit : α → Bool) (pos : Nat) (rest : List α) : Option Nat :=
  (rest.findIdx? hit).map (pos + ·)

def covers (m : Recall) (pos : Nat) : Bool := m.asked ≤ pos && m.found.all (pos ≤ ·)

def renew (hit : α → Bool) (known : Option Recall) (pos : Nat) (rest : List α) : Recall :=
  match known.filter (covers · pos) with
  | some m => m
  | none => ⟨pos, search hit pos rest⟩

end Recall

end MarkupText
