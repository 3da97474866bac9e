namespace MarkupText

/-- A text as its characters. Offsets into it count UTF-8 bytes. -/
abbrev Text := List Char

structure Span where
  start : Nat
  stop : Nat
deriving DecidableEq, Repr

namespace Span

def length (r : Span) : Nat := r.stop - r.start

def isEmpty (r : Span) : Bool := r.length = 0

def shift (n : Nat) (r : Span) : Span := ⟨n + r.start, n + r.stop⟩

end Span

namespace Text

def byteLength : Text → Nat
  | [] => 0
  | c :: cs => c.utf8Size + byteLength cs

/-- What follows the first `n` bytes, unless they end inside a character or past the text. -/
def dropBytes? : Nat → Text → Option Text
  | 0, cs => some cs
  | _ + 1, [] => none
  | n + 1, c :: cs => if c.utf8Size ≤ n + 1 then dropBytes? (n + 1 - c.utf8Size) cs else none

def takeBytes? : Nat → Text → Option Text
  | 0, _ => some []
  | _ + 1, [] => none
  | n + 1, c :: cs =>
    if c.utf8Size ≤ n + 1 then (takeBytes? (n + 1 - c.utf8Size) cs).map (c :: ·) else none

def slice? (cs : Text) (r : Span) : Option Text :=
  if r.start ≤ r.stop then (dropBytes? r.start cs).bind (takeBytes? r.length) else none

/-- Lower case for the letters of ASCII; all other characters stay. -/
def lower (cs : Text) : Text := cs.map Char.toLower

def sameCaseless (cs ds : Text) : Bool := lower cs == lower ds

def digitValue? (c : Char) : Option Nat :=
  if '0' ≤ c && c ≤ '9' then some (c.toNat - '0'.toNat)
  else if 'a' ≤ c && c ≤ 'f' then some (c.toNat - 'a'.toNat + 10)
  else if 'A' ≤ c && c ≤ 'F' then some (c.toNat - 'A'.toNat + 10)
  else none

def isHexDigit (c : Char) : Bool := (digitValue? c).isSome

def ofNat (n : Nat) : Text := Nat.toDigits 10 n

@[simp] theorem byteLength_nil : byteLength [] = 0 := rfl

@[simp] theorem byteLength_cons (c : Char) (cs : Text) :
    byteLength (c :: cs) = c.utf8Size + byteLength cs := rfl

@[simp] theorem byteLength_append (cs ds : Text) :
    byteLength (cs ++ ds) = byteLength cs + byteLength ds := by
  induction cs with
  | nil => simp
  | cons c cs ih => simp [ih, Nat.add_assoc]

@[simp] theorem dropBytes?_zero (cs : Text) : dropBytes? 0 cs = some cs := by
  cases cs <;> rfl

@[simp] theorem takeBytes?_zero (cs : Text) : takeBytes? 0 cs = some [] := by
  cases cs <;> rfl

@[simp] theorem dropBytes?_append (cs ds : Text) :
    dropBytes? (byteLength cs) (cs ++ ds) = some ds := by
  induction cs with
  | nil => simp
  | cons c cs ih =>
    obtain ⟨n, hn⟩ := Nat.exists_eq_add_of_lt c.utf8Size_pos
    rw [Nat.zero_add] at hn
    have h : byteLength (c :: cs) = n + byteLength cs + 1 := by rw [byteLength_cons, hn]; omega
    rw [h, List.cons_append, dropBytes?, if_pos (by omega)]
    rwa [show n + byteLength cs + 1 - c.utf8Size = byteLength cs by omega]

@[simp] theorem takeBytes?_append (cs ds : Text) :
    takeBytes? (byteLength cs) (cs ++ ds) = some cs := by
  induction cs with
  | nil => simp
  | cons c cs ih =>
    obtain ⟨n, hn⟩ := Nat.exists_eq_add_of_lt c.utf8Size_pos
    rw [Nat.zero_add] at hn
    have h : byteLength (c :: cs) = n + byteLength cs + 1 := by rw [byteLength_cons, hn]; omega
    rw [h, List.cons_append, takeBytes?, if_pos (by omega),
      show n + byteLength cs + 1 - c.utf8Size = byteLength cs by omega, ih]
    rfl

@[simp] theorem slice?_append (cs ds es : Text) :
    slice? (cs ++ (ds ++ es)) ⟨byteLength cs, byteLength cs + byteLength ds⟩ = some ds := by
  simp [slice?, Span.length]

theorem slice?_self (cs : Text) : slice? cs ⟨0, byteLength cs⟩ = some cs := by
  simpa using slice?_append [] cs []

end Text

end MarkupText
