import MarkupText.Text.Blank

namespace MarkupText

abbrev Titles := List Text

namespace Titles

def isQuote (c : Char) : Bool :=
  c == '"' || c == '\'' || c == '\u201C' || c == '\u201D' || c == '\u2018' || c == '\u2019'

def stripQuotes (cs : Text) : Text := Text.dropEndWhile isQuote (cs.dropWhile isQuote)

/-- The last word of a text, without the quotes around it, is a title. -/
def endsWith (titles : Titles) (cs : Text) : Bool :=
  (Text.words cs).getLast?.any fun word ↦ titles.contains (stripQuotes word)

def ofLanguage (language : Text) : Titles :=
  let titles : List String := match String.ofList (Text.lower language) with
    | "en" => ["Dr.", "Mr.", "Mrs.", "Ms.", "Prof.", "Sr.", "Jr.", "St."]
    | "de" => ["Dr.", "Hr.", "Fr.", "Prof.", "St."]
    | "fr" => ["M.", "Mme.", "Mlle.", "Dr.", "Pr."]
    | "es" => ["Sr.", "Sra.", "Srta.", "Dr.", "Dra."]
    | _ => []
  titles.map String.toList

end Titles

end MarkupText
