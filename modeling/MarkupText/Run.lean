import MarkupText.Text.Basic

namespace MarkupText

/-- A stretch of clean text and the markup it comes from. -/
structure Run where
  source : Span
  clean : Span
  inTitle : Bool
deriving DecidableEq, Repr

/-- The two readings of a clean offset, as the left or the right end of a range. They part where
markup was skipped. -/
inductive Side
  | left
  | right
deriving DecidableEq, Repr

namespace Run

/-- Equal lengths mean that the text was copied as it stands. -/
def isLiteral (r : Run) : Bool := r.clean.length = r.source.length

/-- The markup offset of a clean offset. Inside a decoded character it is the start of the
reference, and past the run its end. -/
def sourceAt (r : Run) (offset : Nat) : Nat :=
  let delta := offset - r.clean.start
  if r.clean.length ≤ delta then r.source.stop
  else if r.isLiteral then r.source.start + delta
  else r.source.start

/-- The run `r` with the run `next` after it as one, when both were copied as they stand and
nothing lies between them. -/
def extend? (r next : Run) : Option Run :=
  if r.isLiteral ∧ next.isLiteral ∧ r.inTitle = next.inTitle ∧
      r.source.stop = next.source.start ∧ r.clean.stop = next.clean.start then
    some { r with
      source := ⟨r.source.start, next.source.stop⟩
      clean := ⟨r.clean.start, next.clean.stop⟩ }
  else none

def reaches (side : Side) (offset : Nat) (r : Run) : Bool :=
  match side with
  | .left => r.clean.start ≤ offset
  | .right => r.clean.start < offset

end Run

class RunStore (σ : Type) where
  last? : σ → Option Run
  /-- Lengthens the last run by a run that continues it. -/
  extendLast? : σ → Run → Option σ
  push : σ → Run → σ
  /-- Ends the block of text that is being filled. -/
  endBlock : σ → σ

class RunIndex (σ : Type) where
  /-- The last run that reaches an offset, or the first run if none does. -/
  runAt? : σ → Side → Nat → Option Run

namespace RunIndex

variable {σ : Type} [RunIndex σ]

def sourceOffset (side : Side) (x : σ) (offset : Nat) : Nat :=
  ((runAt? x side offset).map (·.sourceAt offset)).getD 0

def sourceSpan (x : σ) (clean : Span) : Span :=
  ⟨sourceOffset .left x clean.start, sourceOffset .right x clean.stop⟩

end RunIndex

end MarkupText
