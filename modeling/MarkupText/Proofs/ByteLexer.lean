import MarkupText.Markup.Lexeme

namespace MarkupText

namespace Text

def byteOffset (cs : Text) (pos : Nat) : Nat := byteLength (cs.take pos)

def charAt? (cs : Text) (n : Nat) : Option Char := (dropBytes? n cs).bind List.head?

def byteAt? (cs : Text) (n : Nat) : Option UInt8 := (cs.flatMap String.utf8EncodeChar)[n]?

end Text

/-!
A lexer whose positions count bytes. It has no result where a slice or an index leaves the markup
or a cut splits a character, and none where a token would not move it forward.
-/
namespace ByteLexer

structure Reading where
  kind : Kind
  stop : Nat
  raw : Option Text := none

def stray (start : Nat) : Reading := ⟨.stray, start + 1, none⟩

structure Memory where
  markup : Option Recall := none
  tags : TagSearch := {}

def beginsMarkup (c : Char) : Bool := c == '<' || c == '&'

variable (m : Text)

def renew? (hit : Char → Bool) (known : Option Recall) (start : Nat) : Option Recall :=
  match known.filter (·.covers start) with
  | some r => some r
  | none => (Text.dropBytes? start m).map fun rest ↦
    ⟨start, (rest.findIdx? hit).map fun i ↦ start + Text.byteOffset rest i⟩

def ofText? (known : Option Recall) (start : Nat) : Option (Reading × Recall) := do
  let r ← renew? m beginsMarkup known start
  let segment ← Text.slice? m ⟨start, r.found.getD (Text.byteLength m)⟩
  let blank := segment.head?.any Text.isBlank
  let length := Text.byteLength (segment.takeWhile (Text.isBlank · == blank))
  return (⟨if blank then .blank else .text, start + length, none⟩, r)

def ofDigits? (form : Reference) (isDigit : Char → Bool) (lead start : Nat) :
    Option Reading := do
  let rest ← Text.dropBytes? (start + 1 + lead) m
  match (rest.takeWhile isDigit).length with
  | 0 => return stray start
  | n =>
    let stop := start + 1 + lead + n
    let after ← Text.dropBytes? stop m
    return ⟨.reference form, if after.head? = some ';' then stop + 1 else stop, none⟩

def ofName? (start : Nat) : Option Reading := do
  let rest ← Text.dropBytes? (start + 1) m
  let stop := start + 1 + (rest.takeWhile Char.isAlphanum).length
  let after ← Text.dropBytes? stop m
  return if rest.head?.any Char.isAlpha ∧ after.head? = some ';' then
    ⟨.reference .named, stop + 1, none⟩ else stray start

def ofReference? (start : Nat) : Option Reading := do
  match ← Text.dropBytes? (start + 1) m with
  | '#' :: 'x' :: _ => ofDigits? m .hexadecimal Text.isHexDigit 2 start
  | '#' :: 'X' :: _ => ofDigits? m .hexadecimal Text.isHexDigit 2 start
  | '#' :: _ => ofDigits? m .decimal Char.isDigit 1 start
  | _ => ofName? m start

def ofComment? (start : Nat) : Option Reading := do
  let bodyStart := start + 4
  let rest ← Text.dropBytes? bodyStart m
  let (bodyStop, stop) :=
    if ['>'].isPrefixOf rest then (bodyStart, bodyStart + 1)
    else if ['-', '>'].isPrefixOf rest then (bodyStart, bodyStart + 2)
    else match Lexeme.commentEnd? rest with
      | some i => (bodyStart + Text.byteOffset rest i, bodyStart + Text.byteOffset rest i + 3)
      | none => (Text.byteLength m, Text.byteLength m)
  let body ← Text.slice? m ⟨bodyStart, bodyStop⟩
  return ⟨.ofComment (Text.trim body), stop, none⟩

def ofDeclaration? (s : TagSearch) (start : Nat) : Option (Reading × TagSearch) := do
  let r ← renew? m (· == '>') s.close (start + 1)
  let reading := match r.found with
    | some i => ⟨.declaration, i + 1, none⟩
    | none => stray start
  return (reading, { s with close := some r })

def nextQuote? (s : TagSearch) (quote : Char) (start : Nat) :
    Option (Option Nat × TagSearch) :=
  if quote = '"' then
    (renew? m (· == '"') s.double start).map fun r ↦ (r.found, { s with double := some r })
  else
    (renew? m (· == '\'') s.single start).map fun r ↦ (r.found, { s with single := some r })

def unquotedClose? (s : TagSearch) (pos : Nat) (atValue : Bool) :
    Option (Option Nat × TagSearch) :=
  if pos < Text.byteLength m then do
    let c ← Text.charAt? m pos
    if c = '>' then return (some pos, s)
    else if c = '=' then unquotedClose? s (pos + 1) true
    else if atValue && (c == '"' || c == '\'') then
      match ← nextQuote? m s c (pos + 1) with
      | (some i, s) => if pos < i then unquotedClose? s (i + 1) false else none
      | (none, s) => unquotedClose? s (pos + 1) false
    else unquotedClose? s (pos + c.utf8Size) (atValue && TagSearch.isGap c)
  else return (none, s)
termination_by Text.byteLength m - pos
decreasing_by
  all_goals try have hpos := Char.utf8Size_pos ‹Char›
  all_goals omega

def tagEnd? (s : TagSearch) (start : Nat) : Option (Option Nat × TagSearch) := do
  let r ← renew? m (· == '>') s.close start
  let s := { s with close := some r }
  match r.found with
  | none => return (none, s)
  | some first =>
    if s.isExhausted start then return (some first, s)
    else match ← unquotedClose? m s start false with
      | (some i, s) => return (some i, s)
      | (none, s) => return (some first, { s with exhausted? := some start })

def ofTag? (s : TagSearch) (start : Nat) : Option (Reading × TagSearch) := do
  let rest ← Text.dropBytes? (start + 1) m
  let edge : Edge := if rest.head? = some '/' then .closing else .opening
  let nameStart := start + if edge = .closing then 2 else 1
  let body ← Text.dropBytes? nameStart m
  match elementName? body with
  | none => return (stray start, s)
  | some found =>
    let nameStop := nameStart + found.length
    let name ← Text.slice? m ⟨nameStart, nameStop⟩
    match ← tagEnd? m s nameStop with
    | (none, s) => return (stray start, s)
    | (some close, s) =>
      let last ← Text.byteAt? m (close - 1)
      let isRaw := edge = .opening ∧ last ≠ '/'.toUInt8
      return ({
        kind := .ofTag name edge
        stop := close + 1
        raw := if isRaw then rawElements.find? (Text.sameCaseless name) else none }, s)

def ofMarkup? (s : TagSearch) (start : Nat) : Option (Reading × TagSearch) := do
  let rest ← Text.dropBytes? (start + 1) m
  if ['!', '-', '-'].isPrefixOf rest then return (← ofComment? m start, s)
  else if rest.head?.any fun c ↦ c == '!' || c == '?' then ofDeclaration? m s start
  else ofTag? m s start

def rawLength? (raw : Option Text) (start : Nat) : Option Nat :=
  match raw with
  | none => some 0
  | some name => (Text.dropBytes? start m).map fun rest ↦
    Text.byteOffset rest (Lexeme.rawLength name rest)

def readOutsideRaw? (s : Memory) (start : Nat) : Option (Reading × Memory) := do
  let c ← Text.charAt? m start
  if c = '<' then
    let (x, tags) ← ofMarkup? m s.tags start
    return (x, { s with tags })
  else if c = '&' then return (← ofReference? m start, s)
  else
    let (x, r) ← ofText? m s.markup start
    return (x, { s with markup := some r })

def read? (raw : Option Text) (s : Memory) (start : Nat) : Option (Reading × Memory) := do
  match ← rawLength? m raw start with
  | 0 => readOutsideRaw? m s start
  | n => return (⟨.rawText, start + n, none⟩, s)

def tokensFrom? (raw : Option Text) (s : Memory) (start : Nat) : Option (List Token) :=
  if start < Text.byteLength m then do
    let (x, s) ← read? m raw s start
    let text ← Text.slice? m ⟨start, x.stop⟩
    if start < x.stop then
      return ⟨x.kind, text, start⟩ :: (← tokensFrom? x.raw s x.stop)
    else none
  else if start = Text.byteLength m then some [] else none
termination_by Text.byteLength m - start

def tokens? : Option (List Token) := tokensFrom? m none {} 0

end ByteLexer

end MarkupText
