import MarkupText.Json.Value

namespace MarkupText.Json

/-- A piece of a quoted text: a character, or by `\u` a number that may be half of one. -/
inductive Part
  | char (c : Char)
  | unit (n : Nat)
deriving DecidableEq, Repr

namespace Part

def ofEscape? : Char → Option Char
  | '"' => some '"'
  | '\\' => some '\\'
  | '/' => some '/'
  | 'b' => some '\x08'
  | 'f' => some '\x0c'
  | 'n' => some '\n'
  | 'r' => some '\r'
  | 't' => some '\t'
  | _ => none

/-- The number that four hexadecimal digits write. They count as four bytes. -/
def unit? (cs : Text) : Except Fault Nat :=
  if Text.byteLength (cs.take 4) < 4 then .error .ended
  else match (cs.take 4).mapM Text.digitValue? with
    | some ds => .ok (ds.foldl (16 * · + ·) 0)
    | none => .error .malformed

/-- The parts before the closing quote and how many characters they and the quote take, or the
parts before a fault. -/
def scan : Text → List Part × Except Fault Nat
  | [] => ([], .error .ended)
  | ['\\'] => ([], .error .ended)
  | '\\' :: 'u' :: cs =>
    match unit? cs with
    | .error fault => ([], .error fault)
    | .ok n =>
      let (parts, length) := scan (cs.drop 4)
      (unit n :: parts, length.map (· + 6))
  | '\\' :: e :: cs =>
    match ofEscape? e with
    | none => ([], .error .malformed)
    | some c =>
      let (parts, length) := scan cs
      (char c :: parts, length.map (· + 2))
  | c :: cs =>
    if c = '"' then ([], .ok 1)
    else if c.toNat < 0x20 then ([], .error .malformed)
    else
      let (parts, length) := scan cs
      (char c :: parts, length.map (· + 1))
termination_by cs => cs.length
decreasing_by all_goals simp only [List.length_cons, List.length_drop]; omega

def isLeading (n : Nat) : Bool := 0xD800 ≤ n && n < 0xDC00

def isTrailing (n : Nat) : Bool := 0xDC00 ≤ n && n < 0xE000

/-- The text of parts, in which the two halves of a character must stand together. `fault` is what
is wrong with a last half that is left alone. -/
def text (fault : Fault) : List Part → Except Fault Text
  | [] => .ok []
  | char c :: ps => do return c :: (← text fault ps)
  | unit n :: ps =>
    if isLeading n then
      match ps with
      | [] => .error fault
      | unit m :: ps =>
        if isTrailing m then do
          let c := Char.ofNat (0x10000 + (n - 0xD800) * 0x400 + (m - 0xDC00))
          return c :: (← text fault ps)
        else .error .malformed
      | char _ :: _ => .error .malformed
    else if isTrailing n then .error .malformed
    else do return Char.ofNat n :: (← text fault ps)

end Part

end MarkupText.Json
