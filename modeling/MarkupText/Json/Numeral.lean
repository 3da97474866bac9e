import MarkupText.Json.Value

namespace MarkupText.Json

structure Numeral where
  whole : Text
  fraction : Text := []
  negativeExponent : Bool := false
  exponent : Text := []
deriving DecidableEq, Repr

namespace Numeral

def isExponentMark (c : Char) : Bool := c == 'e' || c == 'E'

def digits (cs : Text) : Except Fault (Text × Text) :=
  match cs.takeWhile Char.isDigit, cs with
  | [], [] => .error .ended
  | [], _ => .error .malformed
  | ds, _ => .ok (ds, cs.dropWhile Char.isDigit)

def wholeDigits (cs : Text) : Except Fault (Text × Text) := do
  let (ds, rest) ← digits cs
  if ds.head? = some '0' ∧ 1 < ds.length then .error .malformed else return (ds, rest)

def fractionDigits : Text → Except Fault (Text × Text)
  | '.' :: cs => digits cs
  | cs => .ok ([], cs)

def signedDigits : Text → Except Fault (Bool × Text × Text)
  | '-' :: cs => do return (true, ← digits cs)
  | '+' :: cs => do return (false, ← digits cs)
  | cs => do return (false, ← digits cs)

def read (cs : Text) : Except Fault (Numeral × Text) := do
  let cs := if cs.head? = some '-' then cs.tail else cs
  let (whole, cs) ← wholeDigits cs
  let (fraction, cs) ← fractionDigits cs
  if cs.head?.any isExponentMark then
    let (negative, exponent, cs) ← signedDigits cs.tail
    return (⟨whole, fraction, negative, exponent⟩, cs)
  else return (⟨whole, fraction, false, []⟩, cs)

def valueOf (ds : Text) : Nat := ds.foldl (fun n d ↦ 10 * n + (d.toNat - '0'.toNat)) 0

/-- The leading digits that fit a word of 64 bits after the number `n`, and how many follow. -/
def fill (n : Nat) : Text → Nat × Nat
  | [] => (n, 0)
  | d :: ds =>
    let next := 10 * n + (d.toNat - '0'.toNat)
    if next < Nat.pow 2 64 then fill next ds else (n, (d :: ds).length)

/-- The nearest number with 53 binary digits, of two the even one. -/
def roundBinary (n : Nat) : Nat :=
  if n < Nat.pow 2 53 then n
  else
    let unit := Nat.pow 2 (n.log2 - 52)
    let (quotient, rest) := (n / unit, n % unit)
    let up := unit < 2 * rest ∨ (unit = 2 * rest ∧ quotient % 2 = 1)
    (if up then quotient + 1 else quotient) * unit

/-- The number is no greater than doubles can be. The digits beyond 64 bits count by their places
only, and the significand and the power of ten are rounded before they are multiplied. -/
def fitsDouble (x : Numeral) : Bool :=
  let (whole, dropped) := fill 0 x.whole
  let (significand, idle) := fill whole x.fraction
  let shift : Int := dropped - (x.fraction.length - idle : Nat)
  let exponent : Int := if x.negativeExponent then -valueOf x.exponent else valueOf x.exponent
  match shift + exponent with
  | .negSucc _ => true
  | .ofNat power =>
    if significand = 0 then true
    else if 308 < power then false
    else roundBinary significand * roundBinary (Nat.pow 10 power) < Nat.pow 2 1024 - Nat.pow 2 970

end Numeral

end MarkupText.Json
