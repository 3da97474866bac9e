import MarkupText.Run
import MarkupText.Search

namespace MarkupText

structure RunTable where
  runs : Array Run := #[]
deriving DecidableEq, Repr

namespace RunTable

def cleanLength (t : RunTable) : Nat := t.runs.foldl (fun n r ↦ n + r.clean.length) 0

def extendLast? (t : RunTable) (r : Run) : Option RunTable := do
  let last ← t.runs.back?
  let longer ← last.extend? r
  return ⟨t.runs.pop.push longer⟩

instance : RunStore RunTable where
  last? t := t.runs.back?
  extendLast? := extendLast?
  push t r := ⟨t.runs.push r⟩
  endBlock t := t

def runAt? (t : RunTable) (side : Side) (offset : Nat) : Option Run :=
  t.runs[countLeading (Run.reaches side offset) t.runs - 1]?

instance : RunIndex RunTable where
  runAt? := runAt?

end RunTable

end MarkupText
