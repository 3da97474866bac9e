import MarkupText.Line
import MarkupText.Markup.Lexeme
import MarkupText.Markup.Region
import MarkupText.RunTable

namespace MarkupText

def cleanText (es : List (Event Fragment)) : Text :=
  (es.filterMap Event.content?).flatMap Fragment.text

def placeFrom (offset : Nat) : List (Event Fragment) → List (Event Run)
  | [] => []
  | .boundary :: es => .boundary :: placeFrom offset es
  | .content f :: es =>
    let stop := offset + Text.byteLength f.text
    .content ⟨f.source, ⟨offset, stop⟩, f.inTitle⟩ :: placeFrom stop es

namespace RunStore

variable {σ : Type} [RunStore σ]

def accept (s : σ) (r : Run) : σ :=
  match extendLast? s r with
  | some s => s
  | none => push s r

def collect (s : σ) : List (Event Run) → σ
  | [] => s
  | .content r :: es => collect (accept s r) es
  | .boundary :: es => collect (endBlock s) es

end RunStore

structure Extraction (σ : Type) where
  tokenCount : Nat
  text : Text
  store : σ

namespace Extraction

variable {σ : Type} [RunStore σ]

def run (markup : Text) (store : σ) : Extraction σ :=
  let ts := tokens markup
  let es := events ts
  ⟨ts.length, cleanText es, RunStore.collect store (placeFrom 0 es)⟩

end Extraction

/-- The clean text of a document and one table of its runs. The text fills `window` in the
output that it was added to. -/
structure Document where
  window : Span
  tokenCount : Nat
  text : Text
  table : RunTable

namespace Document

def ofMarkup (base : Nat) (markup : Text) : Document :=
  let x := Extraction.run markup ({} : RunTable)
  ⟨⟨base, base + Text.byteLength x.text⟩, x.tokenCount, x.text, x.store⟩

end Document

end MarkupText
