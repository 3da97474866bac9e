import MarkupText.Extraction
import MarkupText.Sentence.Split

namespace MarkupText

/-- The clean text of a document, its lines and, where they were asked for, its sentences. The
text fills `window` in the output that it was added to. -/
structure Outline where
  window : Span
  tokenCount : Nat
  text : Text
  lines : Array Line
  sentences : Option (List Sentence)

namespace Outline

def lineIndex? (o : Outline) (offset : Nat) : Option Nat :=
  match countLeading (·.clean.start ≤ offset) o.lines with
  | 0 => none
  | i + 1 => if o.lines[i]?.any (offset < ·.clean.stop) then some i else none

def lineHolding? (o : Outline) (offset : Nat) : Option Line := do
  let i ← o.lineIndex? offset
  o.lines[i]?

/-- The markup offset of a clean offset. One that no line holds counts for the line after it. -/
def sourceOffset (o : Outline) (offset : Nat) : Nat :=
  match o.lineHolding? offset with
  | some line => RunIndex.sourceOffset .left line offset
  | none =>
    match o.lines[countLeading (·.clean.stop ≤ offset) o.lines]?, o.lines.back? with
    | some next, _ => RunIndex.sourceOffset .left next offset
    | none, some last => RunIndex.sourceOffset .right last offset
    | none, none => 0

end Outline

namespace Splitter

def splitLines (s : Splitter) (clean : Text) (lines : Array Line) : List Sentence :=
  lines.toList.flatMap (s.splitLine clean)

def outline (s : Splitter) (base : Nat) (markup : Text) (wantSentences : Bool) : Outline :=
  let x := Extraction.run markup ({} : LineBuilder)
  let lines := x.store.lines
  { window := ⟨base, base + Text.byteLength x.text⟩
    tokenCount := x.tokenCount
    text := x.text
    lines := lines
    sentences := if wantSentences then some (s.splitLines x.text lines) else none }

end Splitter

end MarkupText
