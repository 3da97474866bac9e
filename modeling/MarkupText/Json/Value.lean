import MarkupText.Text.Basic

namespace MarkupText.Json

inductive Value
  | null
  | bool (b : Bool)
  | number (n : Nat)
  | string (cs : Text)
  | list (vs : List Value)
  | object (fields : List (String × Value))

/-- Why a text is not the value that it should be. A text is read from its start on, so the first
cause decides. -/
inductive Fault
  /-- It ends inside a value. -/
  | ended
  /-- It is no JSON. -/
  | malformed
  /-- It is JSON of another shape. -/
  | mismatched
deriving DecidableEq, Repr

def escape (c : Char) : Text :=
  match c with
  | '"' => ['\\', '"']
  | '\\' => ['\\', '\\']
  | '\x08' => ['\\', 'b']
  | '\x0c' => ['\\', 'f']
  | '\n' => ['\\', 'n']
  | '\r' => ['\\', 'r']
  | '\t' => ['\\', 't']
  | c =>
    if c.toNat < 0x20 then
      ['\\', 'u', '0', '0', Nat.digitChar (c.toNat / 16), Nat.digitChar (c.toNat % 16)]
    else [c]

def quote (cs : Text) : Text := ['"'] ++ cs.flatMap escape ++ ['"']

structure Layout where
  lineStart : Nat → Text
  afterKey : Text

namespace Layout

def compact : Layout := ⟨fun _ ↦ [], [':']⟩

def indented : Layout :=
  ⟨fun depth ↦ '\n' :: List.replicate (2 * depth) ' ', [':', ' ']⟩

def enclose (l : Layout) (depth : Nat) (left right : Char) (elements : List Text) : Text :=
  if elements.isEmpty then [left, right]
  else
    let lines := elements.map (l.lineStart (depth + 1) ++ ·)
    [left] ++ [','].intercalate lines ++ l.lineStart depth ++ [right]

end Layout

namespace Value

mutual

def write (l : Layout) (depth : Nat) : Value → Text
  | null => "null".toList
  | bool true => "true".toList
  | bool false => "false".toList
  | number n => Text.ofNat n
  | string cs => quote cs
  | list vs => l.enclose depth '[' ']' (writeElements l (depth + 1) vs)
  | object fields => l.enclose depth '{' '}' (writeFields l (depth + 1) fields)

def writeElements (l : Layout) (depth : Nat) : List Value → List Text
  | [] => []
  | v :: vs => write l depth v :: writeElements l depth vs

def writeFields (l : Layout) (depth : Nat) : List (String × Value) → List Text
  | [] => []
  | (key, v) :: fields =>
    (quote key.toList ++ l.afterKey ++ write l depth v) :: writeFields l depth fields

end

end Value

end MarkupText.Json
