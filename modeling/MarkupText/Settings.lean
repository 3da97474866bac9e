import MarkupText.Json.Value
import MarkupText.Sentence.Rules

namespace MarkupText

structure Settings where
  locale : Text := "en".toList
  titles? : Option Titles := none
deriving DecidableEq

def Titles.toJson (ts : Titles) : Json.Value := .list (ts.map .string)

namespace Settings

def rules (s : Settings) : Rules :=
  match s.titles? with
  | some titles => ⟨s.locale, titles⟩
  | none => .ofLocale s.locale

def toJson (s : Settings) : Json.Value :=
  .object [("locale", .string s.locale),
    ("title_abbreviations", (s.titles?.map Titles.toJson).getD .null)]

end Settings

def Rules.toJson (r : Rules) : Json.Value :=
  .object [("locale", .string r.locale), ("title_abbreviations", r.titles.toJson)]

end MarkupText
