import MarkupText.Proofs.TagEnds

namespace MarkupText

/-!
A lexer that knows of the text before it no more than whether a search for the end of a tag has
given up and which raw element is open. It gives the same tokens.
-/
namespace PlainLexer

def ofTag (givenUp : Bool) (cs : Text) : Lexeme × Bool :=
  let edge : Edge := if cs.head? = some '/' then .closing else .opening
  let body := afterSlash cs
  match elementName? body with
  | none => (.stray, givenUp)
  | some name =>
    let rest := body.drop name.length
    match tagClose givenUp rest with
    | none => (.stray, givenUp)
    | some n =>
      let more := (if edge = .closing then 2 else 1) + name.length + n
      let isRaw := edge = .opening ∧ cs[more - 2]? ≠ some '/'
      ({ kind := .ofTag name edge
         more
         raw := if isRaw then rawElements.find? (Text.sameCaseless name) else none },
        givenUp || (ScanState.outside.scan rest).isNone)

def ofDeclaration (cs : Text) : Lexeme :=
  match firstClose cs with
  | some n => ⟨.declaration, n + 1, none⟩
  | none => .stray

def ofMarkup (givenUp : Bool) (cs : Text) : Lexeme × Bool :=
  if ['!', '-', '-'].isPrefixOf cs then (.ofComment (cs.drop 3), givenUp)
  else if cs.head?.any fun c ↦ c == '!' || c == '?' then (ofDeclaration cs, givenUp)
  else ofTag givenUp cs

def readOutsideRaw (givenUp : Bool) (c : Char) (cs : Text) : Lexeme × Bool :=
  if c = '<' then ofMarkup givenUp cs
  else if c = '&' then (.ofReference cs, givenUp)
  else (.ofText c cs, givenUp)

def read (raw : Option Text) (givenUp : Bool) (c : Char) (cs : Text) : Lexeme × Bool :=
  match (raw.map (Lexeme.rawLength · (c :: cs))).getD 0 with
  | 0 => readOutsideRaw givenUp c cs
  | n + 1 => (⟨.rawText, n, none⟩, givenUp)

def tokensFrom (raw : Option Text) (givenUp : Bool) (offset : Nat) : Text → List Token
  | [] => []
  | c :: cs =>
    let (lexeme, givenUp) := read raw givenUp c cs
    let text := c :: cs.take lexeme.more
    ⟨lexeme.kind, text, offset⟩ ::
      tokensFrom lexeme.raw givenUp (offset + Text.byteLength text) (cs.drop lexeme.more)
termination_by cs => cs.length
decreasing_by simp only [List.length_cons, List.length_drop]; omega

variable {m cs : Text} {s : TagSearch} {pos : Nat} {c : Char}

structure Reads (x : Lexeme × TagSearch) (y : Lexeme × Bool) : Prop where
  lexeme : x.1 = y.1
  givenUp : x.2.givenUp = y.2

theorem reads_ofTag (h : s.Sound m pos) (hcs : '<' :: cs = m.drop pos) :
    Reads (Lexeme.ofTag s pos cs) (ofTag s.givenUp cs) := by
  obtain ⟨slash, hslash, hcase⟩ := exists_slash cs
  unfold Lexeme.ofTag ofTag
  dsimp only
  cases hname : elementName? (afterSlash cs) with
  | none => exact ⟨rfl, rfl⟩
  | some name =>
    dsimp only
    obtain ⟨rest, hrest, -⟩ := elementName?_eq_some_iff.mp hname
    rw [lead_eq hcase, hrest, List.drop_left]
    have hdrop : rest = m.drop (pos + (slash.length + 1) + name.length) := by
      rw [← List.drop_drop, drop_slash hcs.symm hslash, hrest, List.drop_left]
    have hle : pos ≤ pos + (slash.length + 1) + name.length := by omega
    have hspec := h.tagEnd_spec hle
    rw [← hdrop] at hspec
    obtain ⟨hfound, -, -, hgiven⟩ := hspec
    generalize s.tagEnd _ rest = x at hfound hgiven
    obtain ⟨found, s'⟩ := x
    have hsome : (firstClose rest).isSome ↔ (tagClose s.givenUp rest).isSome :=
      ScanState.firstClose_isSome_iff s.givenUp
    cases hclose : tagClose s.givenUp rest with
    | none =>
      rw [hclose, Option.map_none] at hfound
      obtain rfl : found = none := hfound
      refine ⟨rfl, Bool.eq_iff_iff.mpr ?_⟩
      simp [hgiven, hsome, hclose]
    | some n =>
      rw [hclose, Option.map_some] at hfound
      obtain rfl : found = some (pos + (slash.length + 1) + name.length + n) := hfound
      have hmore : pos + (slash.length + 1) + name.length + n - pos =
          slash.length + 1 + name.length + n := by omega
      refine ⟨by simp only [hmore], Bool.eq_iff_iff.mpr ?_⟩
      simp [hgiven, hsome, hclose]

theorem reads_ofDeclaration (h : s.Sound m pos) (hcs : '<' :: cs = m.drop pos) :
    Reads (Lexeme.ofDeclaration s pos cs) (ofDeclaration cs, s.givenUp) := by
  have hdrop : cs = m.drop (pos + 1) := by
    rw [← List.tail_drop, ← hcs, List.tail_cons]
  obtain ⟨hfound, -⟩ := Recall.sound_renew h.close (pos + 1)
  rw [← hdrop] at hfound
  refine ⟨?_, rfl⟩
  simp only [Lexeme.ofDeclaration, ofDeclaration, hfound, Recall.search, firstClose]
  cases cs.findIdx? (· == '>') with
  | none => rfl
  | some n => simp only [Option.map_some, show pos + 1 + n - pos = n + 1 by omega]

theorem reads_readOutsideRaw (h : s.Sound m pos) (hcs : c :: cs = m.drop pos) :
    Reads (Lexeme.read none s pos c cs) (readOutsideRaw s.givenUp c cs) := by
  simp only [Lexeme.read, Option.map_none, readOutsideRaw]
  split
  · rename_i hc
    subst hc
    unfold Lexeme.ofMarkup ofMarkup
    split
    · exact ⟨rfl, rfl⟩
    · split
      · exact reads_ofDeclaration h hcs
      · exact reads_ofTag h hcs
  · split <;> exact ⟨rfl, rfl⟩

theorem reads_read (h : s.Sound m pos) (hcs : c :: cs = m.drop pos) (raw : Option Text) :
    Reads (Lexeme.read raw s pos c cs) (read raw s.givenUp c cs) := by
  have houtside := reads_readOutsideRaw h hcs
  unfold Lexeme.read read
  rcases raw.map (Lexeme.rawLength · (c :: cs)) with _ | _ | n
  · exact houtside
  · exact houtside
  · exact ⟨rfl, rfl⟩

theorem tokensFrom_eq (h : s.Sound m pos) (hcs : cs = m.drop pos) (raw : Option Text) (offset : Nat) :
    MarkupText.tokensFrom raw s pos offset cs = tokensFrom raw s.givenUp offset cs := by
  fun_induction MarkupText.tokensFrom raw s pos offset cs with
  | case1 => rw [tokensFrom]
  | case2 raw s pos offset c cs lexeme s' hread text =>
    rename_i ih
    have hstep := tagStep_read h hcs raw offset
    obtain ⟨hlexeme, hgiven⟩ := reads_read h hcs raw
    rw [hread] at hstep hlexeme hgiven
    have hlexer : read raw s.givenUp c cs = (lexeme, s'.givenUp) :=
      Prod.ext hlexeme.symm hgiven.symm
    rw [tokensFrom, ih hstep.sound (drop_text hcs lexeme.more), hlexer]

theorem tokens_eq (m : Text) : tokens m = tokensFrom none false 0 m :=
  tokensFrom_eq (TagSearch.sound_empty m) (List.drop_zero).symm none 0

end PlainLexer

end MarkupText
