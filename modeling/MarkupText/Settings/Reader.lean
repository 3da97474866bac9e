import MarkupText.Json.Skip
import MarkupText.Settings

namespace MarkupText

structure Draft where
  locale? : Option Text := none
  /-- The titles may be given as none. -/
  titles? : Option (Option Titles) := none
deriving DecidableEq

namespace Draft

open Json

inductive Field
  | locale
  | titles
deriving DecidableEq, Repr

def Field.ofName? (name : Text) : Option Field :=
  match String.ofList name with
  | "locale" => some .locale
  | "title_abbreviations" => some .titles
  | _ => none

def has (d : Draft) : Field → Bool
  | .locale => d.locale?.isSome
  | .titles => d.titles?.isSome

structure Format where
  needsAll : Bool
  allowsNull : Bool
  skipsUnknown : Bool

def settingsFormat : Format := ⟨false, true, false⟩

def rulesFormat : Format := ⟨true, false, true⟩

/-- Where in a record a reader stands. The record is an object, or a list of the values alone. -/
inductive State
  | start
  | rowLocale
  | rowComma
  | rowTitles
  | rowEnd
  | firstKey
  | key
  | colon (field : Option Field)
  | value (field : Option Field)
  /-- A field has ended. -/
  | next
  | firstTitle (inRow : Bool)
  | title (inRow : Bool) (titles : Titles)
  | nextTitle (inRow : Bool) (titles : Titles)
  | skipping (skip : Skip)
  | done
deriving DecidableEq

def faultOf : Symbol → Fault
  | .mark c => if c = '[' ∨ c = '{' then .mismatched else .malformed
  | .null | .bool _ => .mismatched
  | .number x => if x.fitsDouble then .mismatched else .malformed
  | .string parts =>
    match Part.text .malformed parts with
    | .error fault => fault
    | .ok _ => .mismatched
  | .brokenString parts fault =>
    match Part.text fault parts with
    | .error fault => fault
    | .ok _ => fault
  | .broken _ fault => fault

def textOf : Symbol → Except Fault Text
  | .string parts => Part.text .malformed parts
  | s => .error (faultOf s)

def close (f : Format) (d : Draft) : Except Fault (Draft × State) :=
  if f.needsAll ∧ ¬(d.has .locale ∧ d.has .titles) then .error .mismatched else .ok (d, .done)

def stepKey (f : Format) (d : Draft) : Symbol → Except Fault (Draft × State)
  | .string parts => do
    let name ← Part.text .malformed parts
    match Field.ofName? name with
    | some field => if d.has field then .error .mismatched else return (d, .colon (some field))
    | none => if f.skipsUnknown then return (d, .colon none) else .error .mismatched
  | .brokenString parts fault => .error (faultOf (.brokenString parts fault))
  | _ => .error .malformed

def afterTitles (inRow : Bool) : State := if inRow then .rowEnd else .next

def stepTitles (f : Format) (d : Draft) (inRow : Bool) (s : Symbol) :
    Except Fault (Draft × State) :=
  if s = .mark '[' then .ok (d, .firstTitle inRow)
  else if s = .null ∧ f.allowsNull then .ok ({ d with titles? := some none }, afterTitles inRow)
  else .error (faultOf s)

def stepSkip (d : Draft) (skip : Skip) (s : Symbol) : Except Fault (Draft × State) := do
  match ← skip.step s with
  | none => return (d, .next)
  | some skip => return (d, .skipping skip)

def stepTitle (d : Draft) (inRow : Bool) (titles : Titles) (s : Symbol) :
    Except Fault (Draft × State) := do
  return (d, .nextTitle inRow (titles ++ [← textOf s]))

def endTitles (d : Draft) (inRow : Bool) (titles : Titles) : Draft × State :=
  ({ d with titles? := some (some titles) }, afterTitles inRow)

def step (f : Format) : Draft × State → Symbol → Except Fault (Draft × State)
  | (d, .start), s =>
    if s = .mark '[' then .ok (d, .rowLocale)
    else if s = .mark '{' then .ok (d, .firstKey)
    else .error (faultOf s)
  | (d, .rowLocale), s =>
    if s = .mark ']' then close f d
    else do return ({ d with locale? := some (← textOf s) }, .rowComma)
  | (d, .rowComma), s =>
    if s = .mark ']' then close f d
    else if s = .mark ',' then .ok (d, .rowTitles)
    else .error .malformed
  | (d, .rowTitles), s => stepTitles f d true s
  | (d, .rowEnd), s => if s = .mark ']' then close f d else .error .malformed
  | (d, .firstKey), s => if s = .mark '}' then close f d else stepKey f d s
  | (d, .key), s => stepKey f d s
  | (d, .colon field), s => if s = .mark ':' then .ok (d, .value field) else .error .malformed
  | (d, .value (some .locale)), s => do return ({ d with locale? := some (← textOf s) }, .next)
  | (d, .value (some .titles)), s => stepTitles f d false s
  | (d, .value none), s => stepSkip d (.value []) s
  | (d, .next), s =>
    if s = .mark ',' then .ok (d, .key)
    else if s = .mark '}' then close f d
    else .error .malformed
  | (d, .firstTitle inRow), s =>
    if s = .mark ']' then .ok (endTitles d inRow []) else stepTitle d inRow [] s
  | (d, .title inRow titles), s => stepTitle d inRow titles s
  | (d, .nextTitle inRow titles), s =>
    if s = .mark ',' then .ok (d, .title inRow titles)
    else if s = .mark ']' then .ok (endTitles d inRow titles)
    else .error .malformed
  | (d, .skipping skip), s => stepSkip d skip s
  | (_, .done), _ => .error .malformed

def read (f : Format) (cs : Text) : Except Fault Draft := do
  match ← (Symbol.ofText cs).foldlM (step f) ({}, .start) with
  | (d, .done) => return d
  | _ => .error .ended

end Draft

/-- Settings as a text in JSON. What it leaves out is as it is by default. -/
def Settings.ofJson (cs : Text) : Except Json.Fault Settings := do
  let d ← Draft.read Draft.settingsFormat cs
  let default : Settings := {}
  return ⟨d.locale?.getD default.locale, d.titles?.getD default.titles?⟩

/-- Rules as a text in JSON, which must give both fields. -/
def Rules.ofJson (cs : Text) : Except Json.Fault Rules := do
  let d ← Draft.read Draft.rulesFormat cs
  return ⟨d.locale?.getD [], (d.titles?.getD none).getD []⟩

end MarkupText
