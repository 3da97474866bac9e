import MarkupText.Extraction
import MarkupText.Text.Buffer

namespace MarkupText

/-- Markup on its way into an output, token by token. Its clean text begins at byte `base` of the
output, and its runs count from there. -/
structure Writer (σ : Type) where
  base : Nat
  output : Buffer
  store : σ
  region : Region
  tokenCount : Nat

namespace Writer

variable {σ : Type}

def start (output : Buffer) (store : σ) : Writer σ := ⟨output.length, output, store, {}, 0⟩

def window (w : Writer σ) : Span := ⟨w.base, w.output.length⟩

def text (w : Writer σ) : Text := (Text.slice? w.output.text w.window).getD []

variable [RunStore σ]

def emit (w : Writer σ) (f : Fragment) : Writer σ :=
  if f.text.isEmpty then w
  else
    let start := w.output.length - w.base
    let run : Run := ⟨f.source, ⟨start, start + Text.byteLength f.text⟩, f.inTitle⟩
    { w with output := w.output.append f.text, store := RunStore.accept w.store run }

def endBlock (w : Writer σ) : Writer σ := { w with store := RunStore.endBlock w.store }

def step (w : Writer σ) (t : Token) : Writer σ :=
  let next := match t.event? w.region with
    | some (.content f) => w.emit f
    | some .boundary => w.endBlock
    | none => w
  { next with region := w.region.after t.kind, tokenCount := w.tokenCount + 1 }

def run (output : Buffer) (markup : Text) (store : σ) : Writer σ :=
  (tokens markup).foldl step (start output store)

end Writer

end MarkupText
