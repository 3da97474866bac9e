import MarkupText.Markup.Element
import MarkupText.Markup.Reference
import MarkupText.Run

namespace MarkupText

structure Region where
  inHead : Bool := false
  inTitle : Bool := false
  inNoIndex : Bool := false
deriving DecidableEq, Repr

namespace Region

/-- No text is shown inside a no-index region, nor in the head outside the title. -/
def isHidden (g : Region) : Bool := g.inNoIndex || (g.inHead && !g.inTitle)

/-- The region after a token. Inside a no-index region only its end counts. -/
def after (g : Region) : Kind → Region
  | .noIndex edge => { g with inNoIndex := edge = .opening }
  | .title edge => if g.inNoIndex then g else { g with inTitle := edge = .opening }
  | .head edge => if g.inNoIndex then g else { g with inHead := edge = .opening }
  | _ => g

end Region

inductive Event (α : Type)
  | content (a : α)
  | boundary
deriving DecidableEq, Repr

namespace Event

variable {α : Type}

def content? : Event α → Option α
  | content a => some a
  | boundary => none

end Event

structure Fragment where
  source : Span
  text : Text
  inTitle : Bool
deriving DecidableEq, Repr

namespace Token

def shownText? (t : Token) : Option Text :=
  match t.kind with
  | .text | .blank | .stray => some t.text
  | .reference form => (form.char? t.text).map ([·])
  | _ => none

def isBoundary (t : Token) : Bool :=
  match t.kind with
  | .tag _ => !t.name?.any isInline
  | .title _ | .head _ => true
  | _ => false

def event? (g : Region) (t : Token) : Option (Event Fragment) :=
  if t.isBoundary then if g.inNoIndex then none else some .boundary
  else if g.isHidden then none
  else t.shownText?.map fun text ↦ .content ⟨t.span, text, g.inTitle⟩

end Token

def eventsFrom (g : Region) : List Token → List (Event Fragment)
  | [] => []
  | t :: ts => (t.event? g).toList ++ eventsFrom (g.after t.kind) ts

def events (ts : List Token) : List (Event Fragment) := eventsFrom {} ts

end MarkupText
