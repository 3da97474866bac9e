import MarkupText.Line
import MarkupText.Sentence.Boundary
import MarkupText.Sentence.Rules

namespace MarkupText

structure Sentence where
  clean : Span
  source : Span
  inTitle : Bool
deriving DecidableEq, Repr

/-- Joins a piece that ends in a title with the piece after it. What is `held` so far comes before
the first piece. -/
def joinTitles (titles : Titles) (held : Text) : List Text → List Text
  | [] => []
  | [piece] => [held ++ piece]
  | piece :: next :: pieces =>
    if titles.endsWith (held ++ piece) then joinTitles titles (held ++ piece) (next :: pieces)
    else (held ++ piece) :: joinTitles titles [] (next :: pieces)

def trimmedSpan? (offset : Nat) (piece : Text) : Option Span :=
  let body := Text.trim piece
  let start := offset + Text.byteLength (piece.takeWhile Text.isBlank)
  if body.isEmpty then none else some ⟨start, start + Text.byteLength body⟩

def trimmedSpans (offset : Nat) : List Text → List Span
  | [] => []
  | piece :: pieces =>
    (trimmedSpan? offset piece).toList ++ trimmedSpans (offset + Text.byteLength piece) pieces

namespace Splitter

def split (s : Splitter) (cs : Text) : List Span :=
  trimmedSpans 0 (joinTitles s.rules.titles [] (candidates cs))

def splitLine (s : Splitter) (clean : Text) (l : Line) : List Sentence :=
  (s.split ((l.text? clean).getD [])).map fun r ↦
    let r := r.shift l.clean.start
    ⟨r, RunIndex.sourceSpan l r, l.inTitle⟩

variable {σ : Type}

/-- Hands the sentences of `cs` to `emit` in order, where its candidates go on from byte `offset`.
Those from byte `held` on are not done yet, since they end in a title. -/
def eachFrom (s : Splitter) (cs : Text) (emit : σ → Span → σ) (x : σ) (held : Option Nat)
    (offset : Nat) : List Text → σ
  | [] => x
  | piece :: pieces =>
    let start := held.getD offset
    let stop := offset + Text.byteLength piece
    let joined := (Text.slice? cs ⟨start, stop⟩).getD []
    if !pieces.isEmpty && s.rules.titles.endsWith joined then
      s.eachFrom cs emit x (some start) stop pieces
    else s.eachFrom cs emit ((trimmedSpan? start joined).elim x (emit x)) none stop pieces

def each (s : Splitter) (cs : Text) (emit : σ → Span → σ) (x : σ) : σ :=
  s.eachFrom cs emit x none 0 (candidates cs)

def splitInto (s : Splitter) (spans : Array Span) (cs : Text) : Array Span :=
  s.each cs Array.push spans

def splitLineInto (s : Splitter) (clean : Text) (xs : Array Sentence) (l : Line) :
    Array Sentence :=
  let text := (l.text? clean).getD []
  if Text.allBlank text then xs
  else s.each text (fun xs r ↦
    let r := r.shift l.clean.start
    xs.push ⟨r, RunIndex.sourceSpan l r, l.inTitle⟩) xs

end Splitter

end MarkupText
