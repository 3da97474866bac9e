import MarkupText.CommandLine
import MarkupText.Report
import MarkupText.Settings.Reader
import MarkupText.Source

namespace MarkupText

inductive LoadError
  | unread (cause : ReadError)
  | unparsed (fault : Json.Fault)
deriving DecidableEq, Repr

def LoadError.message (name : Text) : LoadError → Text
  | unread _ => "Failed to read analyzer config ".toList ++ name
  | unparsed _ => "Failed to parse analyzer config".toList

def Settings.load (s : Source) : Except LoadError Settings := do
  let text ← s.read.mapError .unread
  (Settings.ofJson text).mapError .unparsed

inductive Failure
  | config (name : Text) (error : LoadError)
  | rules (error : RulesError)
  | markup (name : Text) (error : ReadError)
deriving DecidableEq

def Failure.message : Failure → Text
  | config name error => error.message name
  | rules error => error.message
  | markup name _ => "Failed to read ".toList ++ name

namespace Invocation

/-- The settings that hold, where the command line has the last word on the locale. -/
def settings (i : Invocation) (config : Source) : Except Failure Settings := do
  let s ← match i.config? with
    | some name => (Settings.load config).mapError (.config name)
    | none => pure {}
  return { s with locale := i.locale?.getD s.locale }

def report (i : Invocation) (splitter : Splitter) (markup : Text) : Text :=
  if i.wholeDocument then
    let d := Document.ofMarkup 0 markup
    if i.json then reportJson (d.toJson i.file) else d.toPlain
  else
    let o := splitter.outline 0 markup true
    if i.json then reportJson (o.toJson i.file) else o.toPlain

/-- The report on what the files hold. The settings are looked at before the markup is. -/
def run (i : Invocation) (config markup : Source) : Except Failure Text := do
  let settings ← i.settings config
  let splitter ← (Splitter.ofRules settings.rules).mapError .rules
  let text ← markup.read.mapError (.markup i.file)
  return i.report splitter text

end Invocation

structure Outcome where
  status : Nat
  output : Text
  error? : Option Text
deriving DecidableEq

namespace Stop

def helpText : Text :=
  ("Extract clean text and offset-mapped sentences from a markup document\n\n" ++
    "Usage: htmlseams [OPTIONS] <FILE>\n\n" ++
    "Arguments:\n  <FILE>  Markup document to analyze\n\n" ++
    "Options:\n" ++
    "      --whole-document   Print clean text and the flat offset table instead of sentences\n" ++
    "      --locale <LOCALE>  Locale tag for sentence segmentation (overrides --config)\n" ++
    "      --config <CONFIG>  JSON analyzer config\n" ++
    "      --json             Emit a JSON report instead of tab-separated lines\n" ++
    "  -h, --help             Print help\n" ++
    "  -V, --version          Print version\n").toList

def versionText : Text := "htmlseams 0.1.0\n".toList

def outcome : Stop → Outcome
  | usage => ⟨2, [], none⟩
  | help => ⟨0, helpText, none⟩
  | version => ⟨0, versionText, none⟩

end Stop

namespace Outcome

def ofReport : Except Failure Text → Outcome
  | .ok text => ⟨0, text, none⟩
  | .error failure => ⟨1, [], some failure.message⟩

end Outcome

end MarkupText
