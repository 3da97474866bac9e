import MarkupText.Json.Value
import MarkupText.Outline

namespace MarkupText

structure Entry where
  index : Nat
  text : Text
  clean : Span
  source : Span
  inTitle : Bool
deriving DecidableEq, Repr

def Span.toJson (r : Span) : Json.Value :=
  .object [("start", .number r.start), ("end", .number r.stop)]

def Run.toJson (r : Run) : Json.Value :=
  .object [("html_start", .number r.source.start), ("html_end", .number r.source.stop),
    ("clean_start", .number r.clean.start), ("clean_end", .number r.clean.stop),
    ("in_title", .bool r.inTitle)]

namespace Entry

def ofSentence (index : Nat) (text : Text) (s : Sentence) : Entry :=
  ⟨index, text, s.clean, s.source, s.inTitle⟩

def ranges (e : Entry) : Text :=
  let offsets := [e.clean.start, e.clean.stop, e.source.start, e.source.stop]
  ['('] ++ [','].intercalate (offsets.map Text.ofNat) ++ [')']

def fields (e : Entry) : List Text :=
  [Text.ofNat e.index, (if e.inTitle then "title" else "body").toList, e.text, e.ranges]

def toLine (e : Entry) : Text := ['\t'].intercalate e.fields

def toJson (e : Entry) : Json.Value :=
  .object [("index", .number e.index), ("text", .string e.text), ("clean", e.clean.toJson),
    ("html", e.source.toJson), ("in_title", .bool e.inTitle)]

end Entry

namespace Outline

/-- The entries of sentences from the number `index` on. The text of each is made in the buffer that
held the text before it. -/
def entriesFrom (clean : Text) (index : Nat) (buffer : Text) : List Sentence → List Entry
  | [] => []
  | s :: ss =>
    let text := Text.squeezeInto buffer ((Text.slice? clean s.clean).getD [])
    .ofSentence index text s :: entriesFrom clean (index + 1) text ss

def plainFrom (clean : Text) (index : Nat) (buffer : Text) : List Sentence → Text
  | [] => []
  | s :: ss =>
    let text := Text.squeezeInto buffer ((Text.slice? clean s.clean).getD [])
    (Entry.ofSentence index text s).toLine ++ '\n' :: plainFrom clean (index + 1) text ss

def toJson (file : Text) (o : Outline) : Json.Value :=
  .object [("file", .string file), ("clean_len", .number o.window.length),
    ("lines", .number o.lines.size),
    ("sentences", .list ((entriesFrom o.text 0 [] (o.sentences.getD [])).map Entry.toJson))]

def toPlain (o : Outline) : Text := plainFrom o.text 0 [] (o.sentences.getD [])

end Outline

namespace Document

def toJson (file : Text) (d : Document) : Json.Value :=
  .object [("file", .string file), ("clean_text", .string d.text),
    ("runs", .list (d.table.runs.toList.map Run.toJson))]

def toPlain (d : Document) : Text := d.text ++ ['\n']

end Document

def reportJson (v : Json.Value) : Text := v.write .indented 0 ++ ['\n']

end MarkupText
