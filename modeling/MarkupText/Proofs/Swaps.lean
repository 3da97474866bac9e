import MarkupText.Proofs.Closings
import MarkupText.Proofs.Derivations

namespace MarkupText

open Text

/-- The text begins no markup, and nothing in it can end or quote what began before. -/
def IsInert (x : Text) : Prop := ∀ c ∈ x, c ≠ '<' ∧ c ≠ '>' ∧ c ≠ '"' ∧ c ≠ '\''

def tagged (name x rest : Text) : Text := '<' :: (name ++ '>' :: (x ++ rest))

variable {x x' p q rest name attributes tail cs cs' text word : Text} {c quote : Char}
  {s : ScanState} {P : Prop} {givenUp : Bool} {k : Nat} {kind : Kind} {raw : Option Text}
  {f : Char → Bool}

theorem IsInert.ne_quote (hx : IsInert x) (hc : c ∈ x) (hquote : ScanState.isQuote quote) :
    c ≠ quote := by
  obtain ⟨-, -, hdouble, hsingle⟩ := hx c hc
  rintro rfl
  simp [ScanState.isQuote, hdouble, hsingle] at hquote

namespace ScanState

def Fair : ScanState → Prop
  | quoted quote => isQuote quote
  | _ => True

theorem fair_outside : outside.Fair := trivial

theorem Fair.next (h : s.Fair) (c : Char) (cs : Text) : (s.next c cs).Fair := by
  cases s with
  | outside =>
    simp only [ScanState.next]
    split <;> trivial
  | atValue =>
    simp only [ScanState.next]
    split
    · trivial
    · split
      · rename_i hquote
        exact hquote.1
      · split <;> trivial
  | quoted quote =>
    simp only [ScanState.next]
    split
    · trivial
    · exact h

theorem next_congr (s : ScanState) (c : Char)
    (h : ∀ quote, isQuote quote → (quote ∈ cs ↔ quote ∈ cs')) : s.next c cs = s.next c cs' := by
  cases s with
  | atValue =>
    have hsame : (isQuote c ∧ c ∈ cs) = (isQuote c ∧ c ∈ cs') :=
      propext (and_congr_right fun hquote ↦ h c hquote)
    simp only [ScanState.next, hsame]
  | _ => rfl

/-- A quoted value lasts through the text. -/
theorem scan_quoted_inert (hx : IsInert x) (hquote : isQuote quote) (cs : Text) :
    (quoted quote).scan (x ++ cs) = ((quoted quote).scan cs).map (x.length + ·) := by
  induction x with
  | nil => simp
  | cons c x ih =>
    have hne := hx.ne_quote List.mem_cons_self hquote
    have hx' : IsInert x := fun d hd ↦ hx d (List.mem_cons_of_mem c hd)
    have hopen : ¬ (quoted quote).closes c := Bool.false_ne_true
    have hnext : (quoted quote).next c (x ++ cs) = quoted quote := if_neg hne
    rw [List.cons_append, scan, if_neg hopen, hnext, ih hx', Option.map_map]
    congr 1
    funext i
    simp only [Function.comp_apply, List.length_cons]
    omega

/-- A scan that comes to the text after a `>` either has ended there or passes it in a value. -/
theorem scan_inert (hx : IsInert x) (hs : s.Fair) (p cs : Text) :
    s.scan (p ++ '>' :: (x ++ cs)) = (s.scan (p ++ '>' :: cs)).map
      fun i ↦ if i ≤ p.length then i else x.length + i := by
  induction p generalizing s with
  | nil =>
    rw [List.nil_append, List.nil_append, scan, scan]
    cases s with
    | quoted quote =>
      have hquote : isQuote quote := hs
      have hne : '>' ≠ quote := by
        rintro rfl
        cases hquote
      have hopen : ¬ (quoted quote).closes '>' := Bool.false_ne_true
      rw [if_neg hopen, if_neg hopen]
      simp only [ScanState.next, if_neg hne]
      rw [scan_quoted_inert hx hquote, Option.map_map, Option.map_map]
      congr 1
    | outside => rfl
    | atValue => rfl
  | cons c p ih =>
    rw [List.cons_append, List.cons_append, scan, scan]
    split
    · rfl
    · have hmem (quote : Char) (hquote : isQuote quote) :
          quote ∈ p ++ '>' :: (x ++ cs) ↔ quote ∈ p ++ '>' :: cs := by
        have hnot : quote ∉ x := fun hq ↦ hx.ne_quote hq hquote rfl
        simp [hnot]
      rw [next_congr s c hmem, ih (hs.next c _), Option.map_map, Option.map_map]
      congr 1
      funext i
      simp only [Function.comp_apply, List.length_cons]
      split <;> split <;> omega

theorem isNone_scan_swap (hx : IsInert x) (hx' : IsInert x') (p cs : Text) :
    (outside.scan (p ++ '>' :: (x ++ cs))).isNone =
      (outside.scan (p ++ '>' :: (x' ++ cs))).isNone := by
  rw [scan_inert hx fair_outside, scan_inert hx' fair_outside, Option.isNone_map, Option.isNone_map]

end ScanState

theorem firstClose_append_close (p cs : Text) :
    firstClose (p ++ '>' :: cs) = firstClose (p ++ ['>']) := by
  rw [firstClose, firstClose, List.findIdx?_append, List.findIdx?_append]
  simp [List.findIdx?_cons]

/-- A tag that ends before the text ends there whatever the text is. -/
theorem tagClose_swap (givenUp : Bool) (hx : IsInert x) (hx' : IsInert x')
    (h : tagClose givenUp (p ++ '>' :: (x ++ cs)) = some k) (hk : k ≤ p.length) :
    tagClose givenUp (p ++ '>' :: (x' ++ cs)) = some k := by
  cases givenUp with
  | true =>
    change firstClose _ = _ at h
    change firstClose _ = _
    rw [firstClose_append_close] at h ⊢
    exact h
  | false =>
    change plainEnd _ = _ at h
    change plainEnd _ = _
    rw [plainEnd, ScanState.scan_inert hx ScanState.fair_outside, firstClose_append_close] at h
    rw [plainEnd, ScanState.scan_inert hx' ScanState.fair_outside, firstClose_append_close]
    cases hscan : ScanState.outside.scan (p ++ '>' :: cs) with
    | none =>
      rw [hscan] at h
      exact h
    | some i =>
      rw [hscan] at h
      have hi : (if i ≤ p.length then i else x.length + i) = k := Option.some.inj h
      split at hi
      · rename_i hle
        rw [Option.map_some, if_pos hle, hi]
        rfl
      · omega


theorem tagged_eq (p name x rest : Text) :
    p ++ tagged name x rest = (p ++ '<' :: name) ++ '>' :: (x ++ rest) := by
  simp [tagged]

theorem append_tagged (attributes p name x rest : Text) :
    attributes ++ '>' :: (p ++ tagged name x rest) =
      (attributes ++ '>' :: p) ++ tagged name x rest := by
  simp

theorem head?_swap (p name x x' rest : Text) :
    (p ++ tagged name x rest).head? = (p ++ tagged name x' rest).head? := by
  cases p <;> rfl

theorem IsRun.swap (h : IsRun f text (p ++ tagged name x rest)) (x' : Text) :
    IsRun f text (p ++ tagged name x' rest) := by
  refine ⟨h.ne_nil, h.all, ?_⟩
  rw [head?_swap p name x' x rest]
  exact h.stops

theorem EndsReference.swap (h : EndsReference text (p ++ tagged name x rest)) (x' : Text) :
    EndsReference text (p ++ tagged name x' rest) := by
  refine h.imp_right fun ⟨hempty, hhead⟩ ↦ ⟨hempty, ?_⟩
  rwa [head?_swap p name x' x rest]

theorem EndsTag.swap (hx : IsInert x) (hx' : IsInert x')
    (h : EndsTag P attributes (p ++ tagged name x rest)) :
    EndsTag P attributes (p ++ tagged name x' rest) := by
  have hle : attributes.length ≤ (attributes ++ '>' :: p ++ '<' :: name).length := by
    rw [List.append_assoc, List.length_append]
    exact Nat.le_add_right _ _
  rw [EndsTag, append_tagged, tagged_eq] at h ⊢
  exact ⟨fun hgiven ↦ tagClose_swap true hx hx' (h.1 hgiven) hle,
    fun hgiven ↦ tagClose_swap false hx hx' (h.2 hgiven) hle⟩

/-- A construct before the tag is one as well where other text follows the tag. -/
theorem Construct.swap (hx : IsInert x) (hx' : IsInert x')
    (h : Construct P (p ++ tagged name x rest) kind text) :
    Construct P (p ++ tagged name x' rest) kind text := by
  cases h with
  | blank hrun => exact .blank (hrun.swap x')
  | text hrun => exact .text (hrun.swap x')
  | @decimal digits semicolon hdigits hends =>
    rw [← List.append_assoc] at hdigits
    have hdigits' := hdigits.swap x'
    rw [List.append_assoc] at hdigits'
    exact .decimal hdigits' (hends.swap x')
  | @hexadecimal c digits semicolon hc hdigits hends =>
    rw [← List.append_assoc] at hdigits
    have hdigits' := hdigits.swap x'
    rw [List.append_assoc] at hdigits'
    exact .hexadecimal hc hdigits' (hends.swap x')
  | named hhead hname => exact .named hhead hname
  | emptyComment hmark => exact .emptyComment hmark
  | comment hbody hfirst hkind => exact .comment hbody hfirst hkind
  | openComment htail => cases p <;> cases htail
  | declaration hmark hbody hcomment => exact .declaration hmark hbody hcomment
  | @tag edge element attributes hhead hname hends =>
    rw [append_tagged] at hname
    refine .tag hhead ?_ (hends.swap hx hx')
    rw [append_tagged]
    exact hname.swap x'

theorem ClosesElement.swap (hname : name.head?.any Char.isAlpha) (hraw : word ∈ rawElements)
    (h : ClosesElement word (p ++ tagged name x rest)) :
    ClosesElement word (p ++ tagged name x' rest) := by
  obtain ⟨ds, es, hcs, hsame, hstop⟩ := h
  obtain ⟨hfree, -⟩ := Lexeme.toLower_ne_of_mem hraw hsame
  cases p with
  | nil =>
    obtain ⟨-, hcs⟩ := List.cons.inj hcs
    cases name with
    | nil => cases hname
    | cons d name =>
      obtain ⟨rfl, -⟩ := List.cons.inj hcs
      cases hname
  | cons c p =>
    obtain ⟨rfl, htail⟩ := List.cons.inj hcs
    have hbegins : '/' :: ds <+: p ++ tagged name x rest := ⟨es, htail.symm⟩
    obtain ⟨q, rfl⟩ := prefix_of_not_mem hbegins (by simp [hfree])
    have hes : q ++ tagged name x rest = es := by simpa using htail
    refine ⟨ds, q ++ tagged name x' rest, by simp, hsame, ?_⟩
    rw [head?_swap q name x' x rest, hes]
    exact hstop

theorem IsRawBody.swap (hname : name.head?.any Char.isAlpha) (hraw : word ∈ rawElements)
    (h : IsRawBody word text (p ++ tagged name x rest)) :
    IsRawBody word text (p ++ tagged name x' rest) := by
  obtain ⟨hne, hclosed, hfirst⟩ := h
  refine ⟨hne, .inr ?_, fun xs ys htext hys hcloses ↦ ?_⟩
  · rcases hclosed with hnil | hcloses
    · cases p <;> cases hnil
    · exact hcloses.swap hname hraw
  · rw [← List.append_assoc] at hcloses
    refine hfirst xs ys htext hys ?_
    rw [← List.append_assoc]
    exact hcloses.swap hname hraw

theorem Token.hides_swap (hx : IsInert x) (hx' : IsInert x') (t : Token) :
    t.hides (p ++ tagged name x rest) = t.hides (p ++ tagged name x' rest) := by
  rw [hides, hides, ← List.append_assoc, ← List.append_assoc, tagged_eq, tagged_eq,
    ScanState.isNone_scan_swap hx hx']

theorem Token.rawElement?_mem (t : Token) : ∀ word ∈ t.rawElement?, word ∈ rawElements := by
  intro word hword
  obtain ⟨element, -, hfind⟩ := Option.bind_eq_some_iff.mp (Option.mem_ite_none_right.mp hword).2
  exact List.mem_of_find?_eq_some hfind

theorem Construct.ne_nil (h : Construct P tail kind text) : text ≠ [] := by
  cases h with
  | blank hrun => exact hrun.ne_nil
  | text hrun => exact hrun.ne_nil
  | _ => exact List.cons_ne_nil _ _

theorem Derives.ne_nil (h : Derives raw P tail kind text) : text ≠ [] := by
  cases h with
  | rawText _ hbody => exact hbody.ne_nil
  | construct _ hconstruct => exact hconstruct.ne_nil
  | stray => exact List.cons_ne_nil _ _

/-- Outside raw elements all constructs are possible. -/
theorem Derives.of_construct (h : Construct P tail kind text) :
    Derives none P tail kind text := by
  refine .construct ?_ h
  intro name hname
  cases hname

namespace PlainLexer

theorem ofTag_ne_stray (hhead : (afterSlash cs).head?.any Char.isAlpha) (h : '>' ∈ cs) :
    (ofTag givenUp cs).1 ≠ .stray := by
  obtain ⟨slash, hslash, hcase⟩ := exists_slash cs
  have hname : elementName? (afterSlash cs) = some ((afterSlash cs).takeWhile isNameChar) :=
    if_pos hhead
  obtain ⟨rest, hrest, -, hchars, -⟩ := elementName?_eq_some_iff.mp hname
  generalize (afterSlash cs).takeWhile isNameChar = name at hname hrest hchars
  rw [hrest] at hslash hname
  cases hclose : tagClose givenUp rest with
  | none =>
    have hmem := tagClose_eq_none_iff.mp hclose
    rw [hslash, List.mem_append, List.mem_append] at h
    rcases h with h | h | h
    · rcases hcase with ⟨rfl, -⟩ | ⟨rfl, -⟩ <;> simp at h
    · exact absurd (hchars _ h) (by decide)
    · exact absurd h hmem
  | some k =>
    rw [ofTag_eq hslash hcase hname hclose]
    intro hstray
    have hcopied := isCopied_ofTag name (if cs.head? = some '/' then .closing else .opening)
    rw [show Kind.ofTag name _ = .stray from congrArg Lexeme.kind hstray] at hcopied
    cases hcopied

/-- A `<` before a `>` stands alone unless what follows looks like a declaration or a tag. -/
theorem ofMarkup_eq_stray_iff (h : '>' ∈ cs) : (ofMarkup givenUp cs).1 = .stray ↔
    ¬ (cs.head?.any fun c ↦ c == '!' || c == '?') ∧ ¬ (afterSlash cs).head?.any Char.isAlpha := by
  constructor
  · intro hstray
    unfold ofMarkup at hstray
    split at hstray
    · have hmore := congrArg Lexeme.more hstray
      simp [Lexeme.ofComment_eq, Lexeme.stray] at hmore
    · split at hstray
      · cases hclose : firstClose cs with
        | none =>
          have hnone : tagClose true cs = none := hclose
          exact absurd h (tagClose_eq_none_iff.mp hnone)
        | some k =>
          simp [ofDeclaration, hclose, Lexeme.stray] at hstray
      · rename_i hmark
        exact ⟨hmark, fun hhead ↦ ofTag_ne_stray hhead h hstray⟩
  · rintro ⟨hmark, hhead⟩
    rw [ofMarkup_tag hmark]
    exact ofTag_eq_stray_of_name (if_neg hhead)

theorem head?_afterSlash_swap (p name x x' rest : Text) :
    (afterSlash (p ++ tagged name x rest)).head? =
      (afterSlash (p ++ tagged name x' rest)).head? := by
  cases p with
  | nil => rfl
  | cons c p =>
    by_cases hc : c = '/'
    · subst hc
      exact head?_swap p name x x' rest
    · have hslash (ds : Text) : afterSlash (c :: ds) = c :: ds := by
        rw [afterSlash]
        simp [hc]
      rw [List.cons_append, List.cons_append, hslash, hslash, List.head?_cons, List.head?_cons]

theorem eq_stray_swap (hx : IsInert x) (hx' : IsInert x')
    (h : (readOutsideRaw givenUp c (p ++ tagged name x rest)).1 = .stray) :
    (readOutsideRaw givenUp c (p ++ tagged name x' rest)).1 = .stray := by
  by_cases hlt : c = '<'
  · subst hlt
    have hmem (y : Text) : '>' ∈ p ++ tagged name y rest := by simp [tagged]
    change (ofMarkup givenUp _).1 = _ at h
    change (ofMarkup givenUp _).1 = _
    rw [ofMarkup_eq_stray_iff (hmem _), head?_swap p name x x' rest,
      head?_afterSlash_swap p name x x' rest] at h
    exact (ofMarkup_eq_stray_iff (hmem _)).mpr h
  · have hnone := (eq_stray_iff Iff.rfl).mp h
    by_cases hand : c = '&'
    · subst hand
      change Lexeme.ofReference _ = _
      by_contra hne
      obtain ⟨kind, text, tail, hcs, hconstruct⟩ := exists_reference (givenUp = true) hne
      have hgives : (read none givenUp '&' (p ++ tagged name x' rest)).1.Gives kind text :=
        gives_of_construct Iff.rfl hconstruct hcs.symm
      have htext := ((gives_iff 0 hcs).mp hgives).2
      have hfree : '<' ∉ text := by
        rw [htext]
        exact List.not_mem_cons_of_ne_of_not_mem (by decide) (Lexeme.not_mem_ofReference _)
      have hbegins : text <+: ('&' :: p) ++ tagged name x' rest := ⟨tail, hcs.symm⟩
      obtain ⟨q, hq⟩ := prefix_of_not_mem hbegins hfree
      have htail : tail = q ++ tagged name x' rest := by
        rw [← List.cons_append, ← hq, List.append_assoc] at hcs
        exact (List.append_cancel_left hcs).symm
      subst htail
      refine hnone kind text (q ++ tagged name x rest) ?_ (hconstruct.swap hx' hx)
      rw [← List.append_assoc, hq]
      rfl
    · obtain ⟨kind, text, tail, hcs, hconstruct⟩ :=
        exists_text (givenUp = true) hlt hand (p ++ tagged name x rest)
      exact absurd hconstruct (hnone kind text tail hcs)

end PlainLexer

/-- A token before the tag is one as well where other text follows the tag. -/
theorem Derives.swap (hname : name.head?.any Char.isAlpha) (hx : IsInert x) (hx' : IsInert x')
    (hraw : ∀ word ∈ raw, word ∈ rawElements)
    (h : Derives raw (givenUp = true) (p ++ tagged name x rest) kind text) :
    Derives raw (givenUp = true) (p ++ tagged name x' rest) kind text := by
  have hcloses (ds : Text)
      (h : ∀ word ∈ raw, ClosesElement word (ds ++ (p ++ tagged name x rest))) :
      ∀ word ∈ raw, ClosesElement word (ds ++ (p ++ tagged name x' rest)) := by
    intro word hword
    have hcloses := h word hword
    rw [← List.append_assoc] at hcloses ⊢
    exact hcloses.swap hname (hraw word hword)
  cases h with
  | rawText hopen hbody => exact .rawText hopen (hbody.swap hname (hraw _ hopen))
  | construct hclosed hconstruct =>
    exact .construct (hcloses text hclosed) (hconstruct.swap hx hx')
  | @stray c hclosed hc hnone =>
    have hstray := (PlainLexer.eq_stray_iff Iff.rfl).mpr hnone
    have hstray' := PlainLexer.eq_stray_swap hx hx' hstray
    exact .stray (hcloses [c] hclosed) hc ((PlainLexer.eq_stray_iff Iff.rfl).mp hstray')

namespace PlainLexer

variable {offset : Nat} {before after : List Token}

/-- The lexer goes on after a token that the grammar derives. -/
theorem tokensFrom_of_derives (h : Derives raw (givenUp = true) tail kind text) (offset : Nat) :
    tokensFrom raw givenUp offset (text ++ tail) = ⟨kind, text, offset⟩ ::
      tokensFrom (Token.rawElement? ⟨kind, text, offset⟩)
        (givenUp || Token.hides ⟨kind, text, offset⟩ tail) (offset + byteLength text) tail := by
  obtain ⟨c, ds, rfl⟩ := List.exists_cons_of_ne_nil h.ne_nil
  have hgives := (derives_iff Iff.rfl rfl).mp h
  obtain ⟨hkind, htext⟩ := (gives_iff offset rfl).mp hgives
  have htoken : (read raw givenUp c (ds ++ tail)).1.token c (ds ++ tail) offset =
      ⟨kind, c :: ds, offset⟩ := by
    rw [hkind, htext]
    rfl
  have hmore : (read raw givenUp c (ds ++ tail)).1.more = ds.length :=
    Nat.succ.inj hgives.length
  rw [List.cons_append, tokensFrom_cons, ← rawElement?_read raw givenUp c _ offset,
    read_givenUp raw givenUp c _ offset, htoken, hmore, List.take_left, List.drop_left]

/-- A token that is shown opens no raw element and hides no end of a tag. -/
theorem tokensFrom_of_shown (h : Derives raw (givenUp = true) tail kind text)
    (hkind : kind.isCopied ∨ ∃ form, kind = .reference form) (offset : Nat) :
    tokensFrom raw givenUp offset (text ++ tail) =
      ⟨kind, text, offset⟩ :: tokensFrom none givenUp (offset + byteLength text) tail := by
  have hhides : Token.hides ⟨kind, text, offset⟩ tail = false := by
    rw [Token.hides, Token.isTag_eq_false_of_shown hkind, Bool.false_and]
  have hraw : Token.rawElement? ⟨kind, text, offset⟩ = none := by
    apply rawElement?_eq_none
    rintro rfl
    rcases hkind with hcopied | ⟨form, hform⟩
    · cases hcopied
    · cases hform
  rw [tokensFrom_of_derives h, hhides, hraw, Bool.or_false]

/-- The tokens before a tag do not depend on the text after it. -/
theorem tokensFrom_swap (hname : name.head?.any Char.isAlpha) (hx : IsInert x)
    (hraw : ∀ word ∈ raw, word ∈ rawElements)
    (h : tokensFrom raw givenUp offset (p ++ tagged name x rest) = before ++ after)
    (hp : before.flatMap Token.text = p) :
    ∃ raw' givenUp', ∀ y, IsInert y → tokensFrom raw givenUp offset (p ++ tagged name y rest) =
      before ++ tokensFrom raw' givenUp' (offset + byteLength p) (tagged name y rest) := by
  induction before generalizing raw givenUp offset p with
  | nil =>
    subst hp
    exact ⟨raw, givenUp, fun _ _ ↦ rfl⟩
  | cons t before ih =>
    obtain ⟨c, cs, hcs, ht, -⟩ := exists_cons_of_tokensFrom h
    subst hp
    rw [List.flatMap_cons, List.append_assoc] at hcs h
    have hgives := (gives_iff offset hcs.symm).mpr ⟨congrArg Token.kind ht, congrArg Token.text ht⟩
    have hderives := (derives_iff Iff.rfl hcs.symm).mpr hgives
    have htoken : (⟨t.kind, t.text, offset⟩ : Token) = t := by
      rw [ht]
      rfl
    rw [tokensFrom_of_derives hderives, htoken] at h
    obtain ⟨raw', givenUp', htokens⟩ := ih t.rawElement?_mem (List.cons.inj h).2 rfl
    refine ⟨raw', givenUp', fun y hy ↦ ?_⟩
    rw [List.flatMap_cons, byteLength_append, ← Nat.add_assoc, List.append_assoc,
      tokensFrom_of_derives (hderives.swap hname hx hy hraw), htoken, ← t.hides_swap hx hy,
      htokens y hy]
    rfl

end PlainLexer

end MarkupText
