import MarkupText.Sentence.Title
import MarkupText.Text.Quoted

namespace MarkupText

structure Rules where
  locale : Text
  titles : Titles
deriving DecidableEq

inductive RulesError
  | locale (tag : Text)
  | title (word : Text)
deriving DecidableEq

def RulesError.message : RulesError → Text
  | .locale tag => "invalid locale tag ".toList ++ Text.quoted tag ++
      ": expected a language subtag such as \"en\"".toList
  | .title word => "invalid title abbreviation ".toList ++ Text.quoted word ++
      ": must be a single non-empty word".toList

def languageOf (tag : Text) : Text := tag.takeWhile fun c ↦ c != '-' && c != '_'

namespace Rules

def ofLocale (tag : Text) : Rules := ⟨tag, .ofLanguage (languageOf tag)⟩

def language (r : Rules) : Text := languageOf r.locale

def isLanguage (cs : Text) : Bool := 2 ≤ cs.length && cs.length ≤ 8 && cs.all Char.isAlpha

def isTitle (word : Text) : Bool := !word.isEmpty && !word.any Text.isBlank

def error? (r : Rules) : Option RulesError :=
  if isLanguage r.language then (r.titles.find? (!isTitle ·)).map .title
  else some (.locale r.locale)

end Rules

structure Splitter where
  rules : Rules
  error?_rules : rules.error? = none

def Splitter.ofRules (r : Rules) : Except RulesError Splitter :=
  match h : r.error? with
  | some e => .error e
  | none => .ok ⟨r, h⟩

end MarkupText
