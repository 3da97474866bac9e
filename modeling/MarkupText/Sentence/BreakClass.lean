import MarkupText.Sentence.BreakTables

namespace MarkupText

/-- The values of the Unicode property `Sentence_Break`. -/
inductive BreakClass
  | cr
  | lf
  | separator
  | space
  | extender
  | format
  | upper
  | lower
  | letter
  | numeral
  | aTerm
  | sTerm
  | closing
  | continuer
  | other
deriving DecidableEq, Repr

namespace BreakClass

def ofAscii (c : Char) : BreakClass :=
  if c.isUpper then upper
  else if c.isLower then lower
  else if c.isDigit then numeral
  else match c with
    | '\n' => lf
    | '\r' => cr
    | ' ' | '\t' | '\x0b' | '\x0c' => space
    | '.' => aTerm
    | '!' | '?' => sTerm
    | '"' | '\'' | '(' | ')' | '[' | ']' | '{' | '}' => closing
    | ',' | '-' | ':' | ';' => continuer
    | _ => other

open Tables in
/-- The tables are disjoint, so their order does not matter. -/
def ofTables (c : Char) : BreakClass :=
  if letters.contains c then letter
  else if lowers.contains c then lower
  else if uppers.contains c then upper
  else if extenders.contains c then extender
  else if closings.contains c then closing
  else if numerals.contains c then numeral
  else if sTerms.contains c then sTerm
  else if spaces.contains c then space
  else if continuers.contains c then continuer
  else if aTerms.contains c then aTerm
  else if separators.contains c then separator
  else if formats.contains c then format
  else match upperFirst.place? c, lowerFirst.place? c with
    | some n, _ => if n % 2 = 0 then upper else lower
    | none, some n => if n % 2 = 0 then lower else upper
    | none, none => other

def ofChar (c : Char) : BreakClass := if c.toNat < 0x80 then ofAscii c else ofTables c

def isCased (c : BreakClass) : Bool := c == upper || c == lower

def endsParagraph (c : BreakClass) : Bool := c == separator || c == cr || c == lf

def isTransparent (c : BreakClass) : Bool := c == extender || c == format

def isTerm (c : BreakClass) : Bool := c == aTerm || c == sTerm

end BreakClass

end MarkupText
