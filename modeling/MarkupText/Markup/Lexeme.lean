import MarkupText.Markup.Element
import MarkupText.Markup.TagEnd
import MarkupText.Text.Blank

namespace MarkupText

/-- What is read at the start of a token: its kind, how many characters follow the first, and the
element whose raw text comes next. -/
structure Lexeme where
  kind : Kind
  more : Nat
  raw : Option Text := none
deriving DecidableEq, Repr

namespace Lexeme

def stray : Lexeme := ⟨.stray, 0, none⟩

def ofText (c : Char) (cs : Text) : Lexeme :=
  { kind := if Text.isBlank c then .blank else .text
    more := (cs.takeWhile fun d ↦
      d != '<' && d != '&' && Text.isBlank d == Text.isBlank c).length }

def ofDigits (form : Reference) (isDigit : Char → Bool) (lead : Nat) (cs : Text) : Lexeme :=
  match (cs.takeWhile isDigit).length with
  | 0 => stray
  | n => ⟨.reference form, lead + n + if cs[n]? = some ';' then 1 else 0, none⟩

def ofName (cs : Text) : Lexeme :=
  let n := (cs.takeWhile Char.isAlphanum).length
  if cs.head?.any Char.isAlpha ∧ cs[n]? = some ';' then ⟨.reference .named, n + 1, none⟩
  else stray

def ofReference : Text → Lexeme
  | '#' :: 'x' :: cs => ofDigits .hexadecimal Text.isHexDigit 2 cs
  | '#' :: 'X' :: cs => ofDigits .hexadecimal Text.isHexDigit 2 cs
  | '#' :: cs => ofDigits .decimal Char.isDigit 1 cs
  | cs => ofName cs

def commentEnd? : Text → Option Nat
  | [] => none
  | c :: cs =>
    if ['-', '-', '>'].isPrefixOf (c :: cs) then some 0 else (commentEnd? cs).map (· + 1)

/-- What begins with `<!--`. A comment may be empty, `<!-->` or `<!--->`, and may lack its end. -/
def ofComment (cs : Text) : Lexeme :=
  let (body, closing) :=
    if ['>'].isPrefixOf cs then (0, 1)
    else if ['-', '>'].isPrefixOf cs then (0, 2)
    else match commentEnd? cs with
      | some n => (n, 3)
      | none => (cs.length, 0)
  { kind := .ofComment (Text.trim (cs.take body)), more := 3 + body + closing }

def ofDeclaration (s : TagSearch) (pos : Nat) (cs : Text) : Lexeme × TagSearch :=
  let m := Recall.renew (· == '>') s.close (pos + 1) cs
  let lexeme := match m.found with
    | some i => ⟨.declaration, i - pos, none⟩
    | none => stray
  (lexeme, { s with close := some m })

def ofTag (s : TagSearch) (pos : Nat) (cs : Text) : Lexeme × TagSearch :=
  let edge : Edge := if cs.head? = some '/' then .closing else .opening
  let body := afterSlash cs
  match elementName? body with
  | none => (stray, s)
  | some name =>
    let lead := if edge = .closing then 2 else 1
    match s.tagEnd (pos + lead + name.length) (body.drop name.length) with
    | (none, s) => (stray, s)
    | (some i, s) =>
      let isRaw := edge = .opening ∧ cs[i - pos - 2]? ≠ some '/'
      ({ kind := .ofTag name edge
         more := i - pos
         raw := if isRaw then rawElements.find? (Text.sameCaseless name) else none }, s)

def ofMarkup (s : TagSearch) (pos : Nat) (cs : Text) : Lexeme × TagSearch :=
  if ['!', '-', '-'].isPrefixOf cs then (ofComment (cs.drop 3), s)
  else if cs.head?.any fun c ↦ c == '!' || c == '?' then ofDeclaration s pos cs
  else ofTag s pos cs

def closesRaw (name : Text) : Text → Bool
  | '<' :: '/' :: cs =>
    Text.sameCaseless (cs.take name.length) name && !(cs.drop name.length).head?.any isNameChar
  | _ => false

def rawLength (name : Text) : Text → Nat
  | [] => 0
  | c :: cs => if closesRaw name (c :: cs) then 0 else rawLength name cs + 1

def read (raw : Option Text) (s : TagSearch) (pos : Nat) (c : Char) (cs : Text) :
    Lexeme × TagSearch :=
  match raw.map (rawLength · (c :: cs)) with
  | some (n + 1) => (⟨.rawText, n, none⟩, s)
  | _ =>
    if c = '<' then ofMarkup s pos cs
    else if c = '&' then (ofReference cs, s)
    else (ofText c cs, s)

end Lexeme

def tokensFrom (raw : Option Text) (s : TagSearch) (pos offset : Nat) : Text → List Token
  | [] => []
  | c :: cs =>
    let (lexeme, s) := Lexeme.read raw s pos c cs
    let text := c :: cs.take lexeme.more
    ⟨lexeme.kind, text, offset⟩ ::
      tokensFrom lexeme.raw s (pos + text.length) (offset + Text.byteLength text)
        (cs.drop lexeme.more)
termination_by cs => cs.length
decreasing_by simp only [List.length_cons, List.length_drop]; omega

/-- Cuts markup into tokens. Nothing is refused: what begins no markup is a stray character. -/
def tokens (markup : Text) : List Token := tokensFrom none {} 0 0 markup

end MarkupText
