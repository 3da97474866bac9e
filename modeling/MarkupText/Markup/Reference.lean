import MarkupText.Markup.Token

namespace MarkupText.Reference

def maxCode : Nat := 0xFFFF

def substitute : Char := ' '

/-- The number that digits append to `value`, given up at a character that is no digit or once
it passes `maxCode`. A semicolon ends the digits. -/
def number? (radix : Nat) (value : Nat) : Text → Option Nat
  | [] => some value
  | c :: cs =>
    if c = ';' then some value
    else match (Text.digitValue? c).filter (· < radix) with
      | none => none
      | some d =>
        let next := value * radix + d
        if maxCode < next then none else number? radix next cs

/-- The character of a code. The code 0 stands for no digits as well and has none. -/
def charOfCode? (code : Nat) : Option Char :=
  if h : code.isValidChar then
    if code = 0 then none else some (Char.ofNatAux code h)
  else none

def digitsChar (radix : Nat) (digits : Text) : Char :=
  ((number? radix 0 digits).bind charOfCode?).getD substitute

def afterHash : Text → Text
  | '&' :: '#' :: cs => cs
  | cs => cs

def afterX : Text → Text
  | 'x' :: cs => cs
  | 'X' :: cs => cs
  | cs => cs

def decimalChar (cs : Text) : Char := digitsChar 10 (afterHash cs)

def hexadecimalChar (cs : Text) : Char := digitsChar 16 (afterX (afterHash cs))

def latinNames : List String :=
  ["nbsp", "iexcl", "cent", "pound", "curren", "yen", "brvbar", "sect", "uml", "copy", "ordf",
    "laquo", "not", "shy", "reg", "macr", "deg", "plusmn", "sup2", "sup3", "acute", "micro",
    "para", "middot", "cedil", "sup1", "ordm", "raquo", "frac14", "frac12", "frac34", "iquest",
    "Agrave", "Aacute", "Acirc", "Atilde", "Auml", "Aring", "AElig", "Ccedil", "Egrave",
    "Eacute", "Ecirc", "Euml", "Igrave", "Iacute", "Icirc", "Iuml", "ETH", "Ntilde", "Ograve",
    "Oacute", "Ocirc", "Otilde", "Ouml", "times", "Oslash", "Ugrave", "Uacute", "Ucirc", "Uuml",
    "Yacute", "THORN", "szlig", "agrave", "aacute", "acirc", "atilde", "auml", "aring", "aelig",
    "ccedil", "egrave", "eacute", "ecirc", "euml", "igrave", "iacute", "icirc", "iuml", "eth",
    "ntilde", "ograve", "oacute", "ocirc", "otilde", "ouml", "divide", "oslash", "ugrave",
    "uacute", "ucirc", "uuml", "yacute", "thorn", "yuml"]

/-- The names with a meaning of their own; `nbsp` becomes a plain space in clean text. -/
def basicNames : List (String × Char) :=
  [("nbsp", ' '), ("amp", '&'), ("lt", '<'), ("gt", '>'), ("quot", '"'), ("apos", '\'')]

def latinTable : List (String × Char) :=
  latinNames.zipIdx.map fun (name, i) ↦ (name, Char.ofNat (160 + i))

def afterAmpersand : Text → Text
  | '&' :: cs => cs
  | cs => cs

def beforeSemicolon (cs : Text) : Text :=
  if cs.getLast? = some ';' then cs.dropLast else cs

/-- The character of a name, with or without `&` and `;` around it. Case matters. -/
def namedChar? (cs : Text) : Option Char :=
  (basicNames ++ latinTable).lookup (String.ofList (beforeSemicolon (afterAmpersand cs)))

/-- The character that a reference stands for. Only a name may be unknown. -/
def char? : Reference → Text → Option Char
  | .decimal, cs => some (decimalChar cs)
  | .hexadecimal, cs => some (hexadecimalChar cs)
  | .named, cs => namedChar? cs

end MarkupText.Reference
