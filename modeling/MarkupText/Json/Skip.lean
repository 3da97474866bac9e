import MarkupText.Json.Symbol

namespace MarkupText.Json

inductive Bracket
  | list
  | object
deriving DecidableEq, Repr

/-- Where in a value that does not matter a reader stands. `outer` holds the brackets that are
open, the innermost first. -/
inductive Skip
  | value (outer : List Bracket)
  /-- A bracket has just been opened. -/
  | first (inner : Bracket) (outer : List Bracket)
  | key (outer : List Bracket)
  | colon (outer : List Bracket)
  /-- An element has ended. -/
  | next (inner : Bracket) (outer : List Bracket)
deriving DecidableEq, Repr

namespace Skip

def closed : List Bracket → Option Skip
  | [] => none
  | b :: outer => some (next b outer)

def stepValue (outer : List Bracket) : Symbol → Except Fault (Option Skip)
  | .mark '[' => .ok (some (first .list outer))
  | .mark '{' => .ok (some (first .object outer))
  | .mark _ => .error .malformed
  | .brokenString _ fault => .error fault
  | .broken isNumber fault => .error (if isNumber then .malformed else fault)
  | _ => .ok (closed outer)

def stepKey (outer : List Bracket) : Symbol → Except Fault (Option Skip)
  | .string _ => .ok (some (colon outer))
  | .brokenString _ fault => .error fault
  | _ => .error .malformed

def step : Skip → Symbol → Except Fault (Option Skip)
  | value outer, s => stepValue outer s
  | first .list outer, s =>
    if s = .mark ']' then .ok (closed outer) else stepValue (.list :: outer) s
  | first .object outer, s => if s = .mark '}' then .ok (closed outer) else stepKey outer s
  | key outer, s => stepKey outer s
  | colon outer, s =>
    if s = .mark ':' then .ok (some (value (.object :: outer))) else .error .malformed
  | next .list outer, s =>
    if s = .mark ',' then .ok (some (value (.list :: outer)))
    else if s = .mark ']' then .ok (closed outer)
    else .error .malformed
  | next .object outer, s =>
    if s = .mark ',' then .ok (some (key outer))
    else if s = .mark '}' then .ok (closed outer)
    else .error .malformed

end Skip

end MarkupText.Json
