import MarkupText.Run
import MarkupText.Text.Blank

namespace MarkupText

/-- A block of text: the runs of one line, none of which crosses into or out of the title. -/
structure Line where
  runs : Array Run
  runs_size_pos : 0 < runs.size
deriving DecidableEq

namespace Line

def single (r : Run) : Line := ⟨#[r], Nat.one_pos⟩

def first (l : Line) : Run :=
  have := l.runs_size_pos
  l.runs[0]

def last (l : Line) : Run := l.runs.back l.runs_size_pos

def inTitle (l : Line) : Bool := l.first.inTitle

def clean (l : Line) : Span := ⟨l.first.clean.start, l.last.clean.stop⟩

def source (l : Line) : Span := ⟨l.first.source.start, l.last.source.stop⟩

def push (l : Line) (r : Run) : Line := ⟨l.runs.push r, by simp⟩

def extendLast? (l : Line) (r : Run) : Option Line :=
  (l.last.extend? r).map fun longer ↦ ⟨l.runs.pop.push longer, by simp⟩

def text? (l : Line) (clean : Text) : Option Text := Text.slice? clean l.clean

def runAt? (l : Line) (side : Side) (offset : Nat) : Option Run :=
  l.runs.findRev? (Run.reaches side offset) <|> some l.first

instance : RunIndex Line where
  runAt? := runAt?

end Line

structure LineBuilder where
  done : Array Line := #[]
  pending : Option Line := none
deriving DecidableEq

namespace LineBuilder

def endBlock (b : LineBuilder) : LineBuilder :=
  match b.pending with
  | some line => ⟨b.done.push line, none⟩
  | none => b

def push (b : LineBuilder) (r : Run) : LineBuilder :=
  match b.pending with
  | some line =>
    if line.inTitle = r.inTitle then { b with pending := some (line.push r) }
    else ⟨b.done.push line, some (.single r)⟩
  | none => { b with pending := some (.single r) }

def extendLast? (b : LineBuilder) (r : Run) : Option LineBuilder := do
  let line ← b.pending
  let longer ← line.extendLast? r
  return { b with pending := some longer }

instance : RunStore LineBuilder where
  last? b := b.pending.map Line.last
  extendLast? := extendLast?
  push := push
  endBlock := endBlock

def lines (b : LineBuilder) : Array Line := b.endBlock.done

end LineBuilder

end MarkupText
