import MarkupText.Text.Basic

namespace MarkupText

inductive Edge
  | opening
  | closing
deriving DecidableEq, Repr

/-- The ways to write a character by reference: `&#65;`, `&#x41;` and `&amp;`. -/
inductive Reference
  | decimal
  | hexadecimal
  | named
deriving DecidableEq, Repr

inductive Kind
  | text
  | blank
  /-- A `<` or `&` that begins nothing. -/
  | stray
  | reference (form : Reference)
  | tag (edge : Edge)
  | title (edge : Edge)
  | head (edge : Edge)
  /-- A tag `noindex` or a comment that stands for one. -/
  | noIndex (edge : Edge)
  | anchor (edge : Edge)
  | image
  | frame
  | base
  | metadata
  | comment
  /-- `<!DOCTYPE html>`, `<?xml?>` and the like. -/
  | declaration
  /-- What a script or style element holds. -/
  | rawText
deriving DecidableEq, Repr

structure Token where
  kind : Kind
  text : Text
  offset : Nat
deriving DecidableEq, Repr

def isNameChar (c : Char) : Bool := c.isAlphanum || c == '-' || c == '_' || c == ':'

def elementName? (cs : Text) : Option Text :=
  if cs.head?.any Char.isAlpha then some (cs.takeWhile isNameChar) else none

def afterSlash : Text → Text
  | '/' :: cs => cs
  | cs => cs

namespace Token

def length (t : Token) : Nat := Text.byteLength t.text

def stop (t : Token) : Nat := t.offset + t.length

def span (t : Token) : Span := ⟨t.offset, t.stop⟩

def name? (t : Token) : Option Text :=
  match t.text with
  | '<' :: cs => elementName? (afterSlash cs)
  | _ => none

end Token

end MarkupText
