import MarkupText.Text.Basic

namespace MarkupText

inductive ReadError
  | notFound
  /-- The bytes are no UTF-8. -/
  | invalidData
deriving DecidableEq, Repr

/-- Where a text is read from: a stream, by the pieces in which it delivers its bytes, or a file,
by what it holds if it exists. -/
inductive Source
  | stream (chunks : List ByteArray)
  | file (content : Option ByteArray)

namespace Source

def bytes? : Source → Option ByteArray
  | stream chunks => some (chunks.foldl (· ++ ·) .empty)
  | file content => content

def read (s : Source) : Except ReadError Text :=
  match s.bytes? with
  | none => .error .notFound
  | some bytes =>
    match String.fromUTF8? bytes with
    | none => .error .invalidData
    | some text => .ok text.toList

def appendTo (buffer : Text) (s : Source) : Except ReadError (Text × Span) := do
  let text ← s.read
  let start := Text.byteLength buffer
  return (buffer ++ text, ⟨start, start + Text.byteLength text⟩)

end Source

end MarkupText
