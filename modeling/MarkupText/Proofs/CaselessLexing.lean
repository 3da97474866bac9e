import MarkupText.Proofs.Constructs
import MarkupText.Proofs.LetterCase

namespace MarkupText

open Text

def Token.lower (t : Token) : Token := { t with text := Text.lower t.text }

def Token.shape (t : Token) : Kind × Span := (t.kind, t.span)

variable {cs ds name : Text} {c : Char} {s : ScanState}

def isHexMark (c : Char) : Bool := c == 'x' || c == 'X'

theorem caseless_isHexMark : Caseless isHexMark := by
  apply Caseless.of_code (P := fun n ↦ n = 120 ∨ n = 88)
  · intro c
    rw [isHexMark, Bool.or_eq_true, beq_iff_eq, beq_iff_eq, ← Char.toNat_inj, ← Char.toNat_inj]
    rfl
  · intro n
    omega

namespace Kind

theorem ofTag_lower (name : Text) (edge : Edge) : ofTag (lower name) edge = ofTag name edge := by
  simp only [ofTag, sameCaseless_lower]

theorem ofComment_lower (body : Text) : ofComment (lower body) = ofComment body := by
  simp only [ofComment, sameCaseless_lower]

end Kind

theorem elementName?_lower (cs : Text) : elementName? (lower cs) = (elementName? cs).map lower := by
  rw [elementName?, elementName?, head?_any_lower caseless_isAlpha,
    takeWhile_lower caseless_isNameChar]
  split <;> rfl

theorem afterSlash_lower (cs : Text) : afterSlash (lower cs) = lower (afterSlash cs) := by
  have hkeep {ds : Text} (h : ds.head? ≠ some '/') : afterSlash ds = ds := by
    unfold afterSlash
    split
    · exact absurd rfl h
    · rfl
  by_cases hslash : cs.head? = some '/'
  · obtain ⟨ds, rfl⟩ := List.head?_eq_some_iff.mp hslash
    rfl
  · rw [hkeep hslash, hkeep]
    intro hlower
    exact hslash ((head?_lower_eq_iff rfl).mp hlower)

namespace Lexeme

theorem ofText_lower (c : Char) (cs : Text) : ofText c.toLower (lower cs) = ofText c cs := by
  have hrun : Caseless fun d ↦ d != '<' && d != '&' && isBlank d == isBlank c :=
    ((caseless_bne rfl).and (caseless_bne rfl)).and fun d ↦ by rw [caseless_isBlank]
  simp only [ofText, caseless_isBlank c, takeWhile_lower hrun, length_lower]

theorem ofDigits_lower {isDigit : Char → Bool} (hdigit : Caseless isDigit) (form : Reference)
    (lead : Nat) (cs : Text) :
    ofDigits form isDigit lead (lower cs) = ofDigits form isDigit lead cs := by
  simp only [ofDigits, takeWhile_lower hdigit, length_lower,
    getElem?_lower_eq_iff (show (';').isAlpha = false from rfl)]

theorem ofName_lower (cs : Text) : ofName (lower cs) = ofName cs := by
  simp only [ofName, takeWhile_lower caseless_isAlphanum, length_lower,
    head?_any_lower caseless_isAlpha, getElem?_lower_eq_iff (show (';').isAlpha = false from rfl)]

theorem ofReference_hash (cs : Text) : ofReference ('#' :: cs) =
    if cs.head?.any isHexMark then ofDigits .hexadecimal isHexDigit 2 cs.tail
    else ofDigits .decimal Char.isDigit 1 cs := by
  cases cs with
  | nil => rfl
  | cons x cs =>
    by_cases hx : x = 'x' ∨ x = 'X'
    · rw [ofReference_hexadecimal hx, if_pos (by simpa [isHexMark] using hx), List.tail_cons]
    · rw [if_neg (by simpa [isHexMark] using hx)]
      apply ofReference_decimal
      intro ds
      constructor
      · intro h
        exact hx (.inl (List.cons.inj h).1)
      · intro h
        exact hx (.inr (List.cons.inj h).1)

theorem ofReference_lower (cs : Text) : ofReference (lower cs) = ofReference cs := by
  by_cases hhash : cs.head? = some '#'
  · obtain ⟨ds, rfl⟩ := List.head?_eq_some_iff.mp hhash
    change ofReference ('#' :: lower ds) = _
    rw [ofReference_hash, ofReference_hash, head?_any_lower caseless_isHexMark, tail_lower,
      ofDigits_lower caseless_isHexDigit, ofDigits_lower caseless_isDigit]
  · rw [ofReference_named hhash, ofReference_named (mt (head?_lower_eq_iff rfl).mp hhash),
      ofName_lower]

theorem commentEnd?_lower (cs : Text) : commentEnd? (lower cs) = commentEnd? cs := by
  induction cs with
  | nil => rfl
  | cons c cs ih =>
    have hclose : ['-', '-', '>'].isPrefixOf (lower (c :: cs)) =
        ['-', '-', '>'].isPrefixOf (c :: cs) := isPrefixOf_lower rfl
    rw [commentEnd?, ← ih, ← hclose]
    rfl

theorem commentParts_lower (cs : Text) : commentParts (lower cs) = commentParts cs := by
  rw [commentParts, commentParts, isPrefixOf_lower rfl, isPrefixOf_lower rfl,
    commentEnd?_lower, length_lower]

theorem ofComment_lower (cs : Text) : ofComment (lower cs) = ofComment cs := by
  rw [ofComment_eq, ofComment_eq, commentParts_lower, take_lower, trim_lower,
    Kind.ofComment_lower]

theorem closesRaw_eq_false (h : ¬ ['<', '/'].isPrefixOf cs) : closesRaw name cs = false := by
  rw [Bool.eq_false_iff]
  intro hcloses
  obtain ⟨ds, rfl, -⟩ := closesRaw_iff.mp hcloses
  exact h rfl

theorem closesRaw_lower (name cs : Text) : closesRaw name (lower cs) = closesRaw name cs := by
  by_cases hmark : ['<', '/'].isPrefixOf cs
  · obtain ⟨ds, rfl⟩ := List.isPrefixOf_iff_prefix.mp hmark
    change (sameCaseless ((lower ds).take name.length) name &&
      !((lower ds).drop name.length).head?.any isNameChar) = _
    rw [take_lower, drop_lower, sameCaseless_lower, head?_any_lower caseless_isNameChar]
    rfl
  · have hmark' : ¬ ['<', '/'].isPrefixOf (lower cs) := by rwa [isPrefixOf_lower rfl]
    rw [closesRaw_eq_false hmark, closesRaw_eq_false hmark']

theorem rawLength_lower (name cs : Text) : rawLength name (lower cs) = rawLength name cs := by
  induction cs with
  | nil => rfl
  | cons c cs ih =>
    rw [rawLength, ← ih, ← closesRaw_lower]
    rfl

end Lexeme

theorem firstClose_lower (cs : Text) : firstClose (lower cs) = firstClose cs := by
  rw [firstClose, lower, List.findIdx?_map]
  exact congrArg (cs.findIdx? ·) (funext (caseless_beq rfl))

namespace ScanState

def WaitsForMark (s : ScanState) : Prop := ∀ q, s = quoted q → q.isAlpha = false

theorem waitsForMark_outside : WaitsForMark outside := by
  intro q h
  cases h

theorem isQuote_isAlpha (h : isQuote c) : c.isAlpha = false := by
  rw [isQuote, Bool.or_eq_true, beq_iff_eq, beq_iff_eq] at h
  rcases h with rfl | rfl <;> rfl

theorem WaitsForMark.next (hs : s.WaitsForMark) (c : Char) (cs : Text) :
    (s.next c cs).WaitsForMark := by
  intro q h
  cases s with
  | outside =>
    simp only [ScanState.next] at h
    split at h <;> cases h
  | atValue =>
    simp only [ScanState.next] at h
    split at h
    · cases h
    · split at h
      · rename_i hquote
        cases h
        exact isQuote_isAlpha hquote.1
      · split at h <;> cases h
  | quoted quote =>
    simp only [ScanState.next] at h
    split at h
    · cases h
    · exact hs q h

theorem closes_lower (s : ScanState) (c : Char) : s.closes c.toLower = s.closes c := by
  cases s with
  | outside => exact caseless_beq rfl c
  | atValue => exact caseless_beq rfl c
  | quoted quote => rfl

theorem next_lower (hs : s.WaitsForMark) (c : Char) (cs : Text) :
    s.next c.toLower (lower cs) = s.next c cs := by
  have hequals : c.toLower = '=' ↔ c = '=' := toLower_eq_iff rfl
  cases s with
  | outside => simp only [next, hequals]
  | atValue =>
    cases hquote : isQuote c with
    | true =>
      have hsame : c.toLower = c := (toLower_eq_iff (isQuote_isAlpha hquote)).mpr rfl
      simp only [next, hsame, mem_lower_iff (isQuote_isAlpha hquote)]
    | false =>
      have hquote' : isQuote c.toLower = false := (caseless_isQuote c).trans hquote
      simp only [next, hequals, hquote, hquote', caseless_isGap c, Bool.false_eq_true, false_and,
        if_false]
  | quoted quote => simp only [next, toLower_eq_iff (hs quote rfl)]

theorem scan_lower (hs : s.WaitsForMark) (cs : Text) : s.scan (lower cs) = s.scan cs := by
  induction cs generalizing s with
  | nil => rfl
  | cons c cs ih =>
    change s.scan (c.toLower :: lower cs) = _
    rw [scan, scan, closes_lower, next_lower hs, ih (hs.next c cs)]

end ScanState

namespace PlainLexer

variable {givenUp : Bool}

theorem tagClose_lower (givenUp : Bool) (cs : Text) :
    tagClose givenUp (lower cs) = tagClose givenUp cs := by
  cases givenUp with
  | true => exact firstClose_lower cs
  | false =>
    change plainEnd (lower cs) = plainEnd cs
    rw [plainEnd, plainEnd, ScanState.scan_lower ScanState.waitsForMark_outside,
      firstClose_lower]

theorem ofTag_lower (givenUp : Bool) (cs : Text) : ofTag givenUp (lower cs) = ofTag givenUp cs := by
  have hslash (n : Nat) : (lower cs)[n]? = some '/' ↔ cs[n]? = some '/' :=
    getElem?_lower_eq_iff rfl n
  have hhead : (lower cs).head? = some '/' ↔ cs.head? = some '/' := head?_lower_eq_iff rfl
  unfold ofTag
  simp only [afterSlash_lower, elementName?_lower, hhead]
  cases elementName? (afterSlash cs) with
  | none => rfl
  | some name =>
    have hraw : sameCaseless (lower name) = sameCaseless name := funext (sameCaseless_lower name)
    have hscan (ds : Text) : ScanState.outside.scan (lower ds) = ScanState.outside.scan ds :=
      ScanState.scan_lower ScanState.waitsForMark_outside ds
    simp only [Option.map_some, length_lower, drop_lower, tagClose_lower, Kind.ofTag_lower, hslash,
      hraw, hscan, ne_eq]

theorem ofDeclaration_lower (cs : Text) : ofDeclaration (lower cs) = ofDeclaration cs := by
  rw [ofDeclaration, firstClose_lower, ofDeclaration]

theorem ofMarkup_lower (givenUp : Bool) (cs : Text) :
    ofMarkup givenUp (lower cs) = ofMarkup givenUp cs := by
  have hmark : Caseless fun c ↦ c == '!' || c == '?' := (caseless_beq rfl).or (caseless_beq rfl)
  rw [ofMarkup, ofMarkup, isPrefixOf_lower rfl, head?_any_lower hmark, drop_lower,
    Lexeme.ofComment_lower, ofDeclaration_lower, ofTag_lower]

theorem readOutsideRaw_lower (givenUp : Bool) (c : Char) (cs : Text) :
    readOutsideRaw givenUp c.toLower (lower cs) = readOutsideRaw givenUp c cs := by
  simp only [readOutsideRaw, toLower_eq_iff (show ('<').isAlpha = false from rfl),
    toLower_eq_iff (show ('&').isAlpha = false from rfl), ofMarkup_lower, Lexeme.ofReference_lower,
    Lexeme.ofText_lower]

theorem read_lower (raw : Option Text) (givenUp : Bool) (c : Char) (cs : Text) :
    read raw givenUp c.toLower (lower cs) = read raw givenUp c cs := by
  have hraw (name : Text) : Lexeme.rawLength name (c.toLower :: lower cs) =
      Lexeme.rawLength name (c :: cs) := Lexeme.rawLength_lower name (c :: cs)
  simp only [read, hraw, readOutsideRaw_lower]

theorem tokensFrom_lower (raw : Option Text) (givenUp : Bool) (offset : Nat) (cs : Text) :
    tokensFrom raw givenUp offset (lower cs) =
      (tokensFrom raw givenUp offset cs).map Token.lower := by
  fun_induction tokensFrom raw givenUp offset cs with
  | case1 => rw [lower, List.map_nil, tokensFrom, List.map_nil]
  | case2 raw givenUp offset c cs lexeme givenUp' hread text =>
    rename_i ih
    change tokensFrom raw givenUp offset (c.toLower :: lower cs) = _
    have htext : byteLength (c.toLower :: lower (cs.take lexeme.more)) = byteLength text :=
      byteLength_lower text
    rw [tokensFrom_cons, read_lower, hread, Lexeme.token]
    simp only [take_lower, drop_lower, htext, ih]
    rfl

end PlainLexer

theorem Token.shape_lower (t : Token) : t.lower.shape = t.shape := by
  simp only [shape, Token.lower, span, stop, length, byteLength_lower]

/-- Where tokens begin and end and of what kind they are does not depend on the case of letters. -/
theorem shapes_of_sameCaseless {m m' : Text} (h : sameCaseless m m') :
    (tokens m).map Token.shape = (tokens m').map Token.shape := by
  have hshapes (m : Text) : (tokens m).map Token.shape = (tokens (lower m)).map Token.shape := by
    rw [PlainLexer.tokens_eq, PlainLexer.tokens_eq, PlainLexer.tokensFrom_lower, List.map_map]
    exact List.map_congr_left fun t _ ↦ t.shape_lower.symm
  rw [hshapes m, hshapes m', beq_iff_eq.mp h]

theorem shapes_of_sameCaseless_script :
    sameCaseless "<SCRIPT>a</Script>&#X4a;".toList "<script>A</scripT>&#x4A;".toList ∧
      (tokens "<SCRIPT>a</Script>&#X4a;".toList).map Token.shape =
        (tokens "<script>A</scripT>&#x4A;".toList).map Token.shape ∧
      (tokens "<script>A</scripT>&#x4A;".toList).map Token.shape =
        [(.tag .opening, ⟨0, 8⟩), (.rawText, ⟨8, 9⟩), (.tag .closing, ⟨9, 18⟩),
          (.reference .hexadecimal, ⟨18, 24⟩)] :=
  have h : sameCaseless "<SCRIPT>a</Script>&#X4a;".toList "<script>A</scripT>&#x4A;".toList := by
    decide +kernel
  ⟨h, shapes_of_sameCaseless h, by decide +kernel⟩

end MarkupText
