import MarkupText.Analyzer

namespace MarkupText

structure Session where
  analyzer : Analyzer
  output : Text

inductive Request
  | whole (markup : Window)
  | outline (markup : Window) (wantSentences : Bool)
  /-- Drops all results but the output. -/
  | reset
  | append (text : Text)
  | clear

inductive Answer
  | whole (document : Document)
  | outline (outline : Outline)
  | outputLength (bytes : Nat)

namespace Session

def withOutput (s : Session) (output : Text) : Session := { s with output }

def outputLength (s : Session) : Answer × Session :=
  (.outputLength (Text.byteLength s.output), s)

def answer (s : Session) : Request → Answer × Session
  | .whole markup =>
    let (document, analyzer, output) := s.analyzer.whole markup s.output
    (.whole document, ⟨analyzer, output⟩)
  | .outline markup wantSentences =>
    let (outline, analyzer, output) := s.analyzer.outline markup wantSentences s.output
    (.outline outline, ⟨analyzer, output⟩)
  | .reset => ({ s with analyzer := s.analyzer.reset } : Session).outputLength
  | .append text => (s.withOutput (s.output ++ text)).outputLength
  | .clear => (s.withOutput []).outputLength

end Session

end MarkupText
