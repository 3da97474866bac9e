import MarkupText.Json.Numeral
import MarkupText.Json.Quoted

namespace MarkupText.Json

inductive Symbol
  /-- A bracket, a colon, a comma or what has no place in JSON. -/
  | mark (c : Char)
  | null
  | bool (b : Bool)
  | number (x : Numeral)
  | string (parts : List Part)
  /-- A quoted text that breaks off after some parts. -/
  | brokenString (parts : List Part) (fault : Fault)
  /-- A number or a word that breaks off. -/
  | broken (isNumber : Bool) (fault : Fault)
deriving DecidableEq, Repr

namespace Symbol

def isSpace (c : Char) : Bool := c == ' ' || c == '\n' || c == '\t' || c == '\r'

def wordFault? : (word : Text) → Text → Option Fault
  | [], _ => none
  | _ :: _, [] => some .ended
  | d :: ds, c :: cs => if d = c then wordFault? ds cs else some .malformed

def ofWord (symbol : Symbol) (word cs : Text) : Symbol × Nat :=
  match wordFault? word cs with
  | none => (symbol, word.length)
  | some fault => (.broken false fault, cs.length)

def ofNumber (c : Char) (cs : Text) : Symbol × Nat :=
  match Numeral.read (c :: cs) with
  | .ok (x, rest) => (.number x, cs.length - rest.length)
  | .error fault => (.broken true fault, cs.length)

def ofString (cs : Text) : Symbol × Nat :=
  match Part.scan cs with
  | (parts, .ok length) => (.string parts, length)
  | (parts, .error fault) => (.brokenString parts fault, cs.length)

def read (c : Char) (cs : Text) : Symbol × Nat :=
  if c = '"' then ofString cs
  else if c = '-' || c.isDigit then ofNumber c cs
  else if c = 'n' then ofWord .null "ull".toList cs
  else if c = 't' then ofWord (.bool true) "rue".toList cs
  else if c = 'f' then ofWord (.bool false) "alse".toList cs
  else (.mark c, 0)

def ofText : Text → List Symbol
  | [] => []
  | c :: cs =>
    if isSpace c then ofText cs
    else
      let (symbol, more) := read c cs
      symbol :: ofText (cs.drop more)
termination_by cs => cs.length
decreasing_by all_goals simp only [List.length_cons, List.length_drop]; omega

end Symbol

end MarkupText.Json
