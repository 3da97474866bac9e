import MarkupText.Sentence.BreakClass
import MarkupText.Text.Basic

namespace MarkupText

/-- The classes read so far, the newest first, as far as the sentence rules tell them apart. -/
abbrev Past := List BreakClass

namespace Past

open BreakClass

/-- Closing marks in a row count as one, and so do spaces. -/
def push (past : Past) (c : BreakClass) : Past :=
  if (c = closing ∨ c = space) ∧ past.head? = some c then past else c :: past

def skip (c : BreakClass) : Past → Past
  | [] => []
  | d :: ds => if d = c then ds else d :: ds

def beforeSpace (past : Past) : Option BreakClass := ((past.skip space).skip closing).head?

def beforeClosing (past : Past) : Option BreakClass := (past.skip closing).head?

def endsParagraph (past : Past) : Bool := past.head?.any BreakClass.endsParagraph

/-- The past after one more class. Marks that the rules look through leave it as it is. -/
def after (past : Past) (c : BreakClass) : Past :=
  if c.isTransparent && !past.isEmpty && !past.endsParagraph then past else past.push c

def goesOnLower (ahead : List BreakClass) : Bool :=
  let settles (c : BreakClass) : Bool := c.isCased || c == letter || c.endsParagraph || c.isTerm
  ahead.find? settles == some lower

def breaksBefore (past : Past) (c : BreakClass) (ahead : List BreakClass) : Bool :=
  if past.isEmpty then true
  else if c = lf ∧ past.head? = some cr then false
  else if past.endsParagraph then true
  else if c.isTransparent then false
  else if c = numeral ∧ past.head? = some aTerm then false
  else if c = upper ∧ past.head? = some aTerm ∧ past.tail.head?.any isCased then false
  else if past.beforeSpace = some aTerm ∧ goesOnLower (c :: ahead) then false
  else if (c = continuer ∨ c.isTerm) ∧ past.beforeSpace.any isTerm then false
  else if (c = closing ∨ c = space ∨ c.endsParagraph) ∧ past.beforeClosing.any isTerm then
    false
  else if (c = space ∨ c.endsParagraph) ∧ past.beforeSpace.any isTerm then false
  else past.beforeSpace.any isTerm

def boundaries (past : Past) : List BreakClass → List Bool
  | [] => []
  | c :: cs => past.breaksBefore c cs :: boundaries (past.after c) cs

end Past

/-- Cuts before the characters that are marked; what comes before the first mark is apart. -/
def cutMarked : List (Char × Bool) → Text × List Text
  | [] => ([], [])
  | (c, marked) :: cs =>
    let (piece, pieces) := cutMarked cs
    if marked then ([], (c :: piece) :: pieces) else (c :: piece, pieces)

def candidates (cs : Text) : List Text :=
  (cutMarked (cs.zip (Past.boundaries [] (cs.map BreakClass.ofChar)))).2

end MarkupText
