import MarkupText.Outline
import MarkupText.Window
import MarkupText.Writer

namespace MarkupText

/-- What processes one document after another. Its tables hold what the last one has left. -/
structure Analyzer where
  splitter : Splitter
  table : RunTable := {}
  lines : Array Line := #[]
  sentences : Array Sentence := #[]

namespace Analyzer

def ofSplitter (s : Splitter) : Analyzer := { splitter := s }

instance : Coe Splitter Analyzer := ⟨ofSplitter⟩

def reset (a : Analyzer) : Analyzer := { a with table := {}, lines := #[], sentences := #[] }

def whole (a : Analyzer) (markup : Window) (output : Text) : Document × Analyzer × Text :=
  let a := a.reset
  let w := Writer.run (.ofText output) markup.text a.table
  let document := ⟨w.window, w.tokenCount, w.text, w.store⟩
  (document, { a with table := w.store }, w.output.text)

def outline (a : Analyzer) (markup : Window) (wantSentences : Bool) (output : Text) :
    Outline × Analyzer × Text :=
  let a := a.reset
  let w := Writer.run (.ofText output) markup.text (⟨a.lines, none⟩ : LineBuilder)
  let lines := w.store.lines
  let sentences :=
    if wantSentences then lines.foldl (a.splitter.splitLineInto w.text) a.sentences
    else a.sentences
  let outline :=
    { window := w.window
      tokenCount := w.tokenCount
      text := w.text
      lines := lines
      sentences := if wantSentences then some sentences.toList else none }
  (outline, { a with lines := lines, sentences := sentences }, w.output.text)

end Analyzer

end MarkupText
