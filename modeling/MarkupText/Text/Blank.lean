import MarkupText.Text.Basic

namespace MarkupText.Text

/-- The characters with the Unicode property `White_Space`. -/
def isBlank (c : Char) : Bool :=
  let n := c.toNat
  (0x9 ≤ n && n ≤ 0xD) || n == 0x20 || n == 0x85 || n == 0xA0 || n == 0x1680 ||
    (0x2000 ≤ n && n ≤ 0x200A) || n == 0x2028 || n == 0x2029 || n == 0x202F || n == 0x205F ||
    n == 0x3000

def allBlank (cs : Text) : Bool := cs.all isBlank

def dropEndWhile (p : Char → Bool) (cs : Text) : Text := (cs.reverse.dropWhile p).reverse

def trim (cs : Text) : Text := dropEndWhile isBlank (cs.dropWhile isBlank)

def words (cs : Text) : List Text := (cs.splitOnP isBlank).filter (!·.isEmpty)

def addWord (buffer word : Text) : Text :=
  if buffer.isEmpty then buffer ++ word else buffer ++ ' ' :: word

def squeezeInto (buffer cs : Text) : Text := (words cs).foldl addWord (buffer.take 0)

def squeeze (cs : Text) : Text := squeezeInto [] cs

end MarkupText.Text
