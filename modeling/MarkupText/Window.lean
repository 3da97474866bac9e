import MarkupText.Text.Basic

namespace MarkupText

/-- A part of a buffer that several fields of a document may share. -/
structure Window where
  buffer : Text
  span : Span
  text : Text
  slice?_buffer : Text.slice? buffer span = some text

namespace Window

/-- Refused where `span` leaves the buffer, runs backwards or cuts a character. -/
def of? (buffer : Text) (span : Span) : Option Window :=
  match h : Text.slice? buffer span with
  | some text => some ⟨buffer, span, text, h⟩
  | none => none

def whole (buffer : Text) : Window := ⟨buffer, _, buffer, Text.slice?_self buffer⟩

def offset (w : Window) : Nat := w.span.start

def length (w : Window) : Nat := w.span.length

def slice? (w : Window) (span : Span) : Option Window :=
  if span.start ≤ span.stop ∧ span.stop ≤ w.length then of? w.buffer (span.shift w.offset)
  else none

end Window

end MarkupText
