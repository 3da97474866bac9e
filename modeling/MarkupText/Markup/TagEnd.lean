import MarkupText.Recall
import MarkupText.Text.Basic

namespace MarkupText

/-- What earlier tags have shown about the text ahead. Positions count characters. -/
structure TagSearch where
  close : Option Recall := none
  double : Option Recall := none
  single : Option Recall := none
  /-- Where a scan began that has met the end of the text, since quoted values hid each `>`. -/
  exhausted? : Option Nat := none
deriving DecidableEq, Repr

namespace TagSearch

def isGap (c : Char) : Bool :=
  c == ' ' || c == '\t' || c == '\n' || c == '\x0c' || c == '\r'

def nextQuote (s : TagSearch) (quote : Char) (pos : Nat) (rest : Text) :
    Option Nat × TagSearch :=
  if quote = '"' then
    let m := Recall.renew (· == '"') s.double pos rest
    (m.found, { s with double := some m })
  else
    let m := Recall.renew (· == '\'') s.single pos rest
    (m.found, { s with single := some m })

/-- The first `>` outside quoted values. A quote opens a value right after `=` if it is closed
later, and is an ordinary character otherwise. -/
def unquotedClose (s : TagSearch) (pos : Nat) (atValue : Bool) :
    Text → Option Nat × TagSearch
  | [] => (none, s)
  | c :: cs =>
    if c = '>' then (some pos, s)
    else if c = '=' then s.unquotedClose (pos + 1) true cs
    else if atValue && (c == '"' || c == '\'') then
      match s.nextQuote c (pos + 1) cs with
      | (some i, s) => s.unquotedClose (i + 1) false (cs.drop (i - pos))
      | (none, s) => s.unquotedClose (pos + 1) false cs
    else s.unquotedClose (pos + 1) (atValue && isGap c) cs
termination_by cs => cs.length
decreasing_by all_goals simp only [List.length_cons, List.length_drop]; omega

/-- A scan from `pos` would meet the end of the text, as one that began before it has. -/
def isExhausted (s : TagSearch) (pos : Nat) : Bool := s.exhausted?.any (· ≤ pos)

/-- Where a tag ends whose name ends before `pos`: at the first `>` outside quoted values, or at
the first of all when quotes hide every one or have done so before. -/
def tagEnd (s : TagSearch) (pos : Nat) (rest : Text) : Option Nat × TagSearch :=
  let m := Recall.renew (· == '>') s.close pos rest
  let s := { s with close := some m }
  match m.found with
  | none => (none, s)
  | some first =>
    if s.isExhausted pos then (some first, s)
    else match s.unquotedClose pos false rest with
      | (some i, s) => (some i, s)
      | (none, s) => (some first, { s with exhausted? := some pos })

end TagSearch

end MarkupText
