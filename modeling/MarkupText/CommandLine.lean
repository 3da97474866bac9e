import MarkupText.Text.Basic

namespace MarkupText

structure Invocation where
  file : Text
  wholeDocument : Bool
  json : Bool
  locale? : Option Text
  config? : Option Text
deriving DecidableEq, Repr

inductive Stop
  | usage
  | help
  | version
deriving DecidableEq, Repr

namespace CommandLine

inductive Flag
  | wholeDocument
  | json
deriving DecidableEq, Repr

inductive Setting
  | locale
  | config
deriving DecidableEq, Repr

inductive Switch
  | flag (f : Flag)
  | setting (s : Setting)
  | stop (s : Stop)
deriving DecidableEq, Repr

def Switch.ofName (name : Text) : Switch :=
  match String.ofList name with
  | "whole-document" => flag .wholeDocument
  | "json" => flag .json
  | "locale" => setting .locale
  | "config" => setting .config
  | "help" => stop .help
  | "version" => stop .version
  | _ => stop .usage

structure State where
  file? : Option Text := none
  wholeDocument : Bool := false
  json : Bool := false
  locale? : Option Text := none
  config? : Option Text := none
  /-- The setting of which the next argument is the value. -/
  pending : Option Setting := none
  /-- A lone `--` has been read, after which all is file names. -/
  namesOnly : Bool := false
deriving DecidableEq, Repr

namespace State

/-- Nothing may be given twice. -/
def setFlag (s : State) : Flag → Except Stop State
  | .wholeDocument =>
    if s.wholeDocument then .error .usage else .ok { s with wholeDocument := true }
  | .json => if s.json then .error .usage else .ok { s with json := true }

def setValue (s : State) (setting : Setting) (value : Text) : Except Stop State :=
  match setting with
  | .locale =>
    if s.locale?.isSome then .error .usage
    else .ok { s with locale? := some value, pending := none }
  | .config =>
    if s.config?.isSome || value.isEmpty then .error .usage
    else .ok { s with config? := some value, pending := none }

def setFile (s : State) (name : Text) : Except Stop State :=
  if s.file?.isSome || name.isEmpty then .error .usage else .ok { s with file? := some name }

def long (s : State) (cs : Text) : Except Stop State :=
  let name := cs.takeWhile (· != '=')
  match Switch.ofName name, cs.drop name.length with
  | .flag f, [] => s.setFlag f
  | .setting setting, [] => .ok { s with pending := some setting }
  | .setting setting, _ :: value => s.setValue setting value
  | .stop stop, [] => .error stop
  | _, _ => .error .usage

def short : Text → Stop
  | 'h' :: _ => .help
  | 'V' :: _ => .version
  | _ => .usage

def step (s : State) (argument : Text) : Except Stop State :=
  if s.namesOnly then s.setFile argument
  else match s.pending, argument with
    | none, ['-', '-'] => .ok { s with namesOnly := true }
    | none, '-' :: '-' :: cs => s.long cs
    | none, '-' :: c :: cs => .error (short (c :: cs))
    | none, name => s.setFile name
    | some _, '-' :: _ :: _ => .error .usage
    | some setting, value => s.setValue setting value

end State

def parse (arguments : List Text) : Except Stop Invocation := do
  let s ← arguments.foldlM State.step {}
  match s.file?, s.pending with
  | some file, none => return ⟨file, s.wholeDocument, s.json, s.locale?, s.config?⟩
  | _, _ => .error .usage

end CommandLine

end MarkupText
