import MarkupText.Proofs.Agreement
import MarkupText.Proofs.Cuts
import MarkupText.Proofs.LineSplits
import MarkupText.Proofs.Numerals
import MarkupText.Proofs.Swaps

namespace MarkupText

open Text

/-- The ways to write the character `c` so that clean text has it again. -/
inductive Writes (c : Char) : Text → Prop
  | plain : c ≠ '<' → c ≠ '&' → Writes c [c]
  | decimal {digits : Text} : IsNumeral 10 c.toNat digits → 1 ≤ c.toNat → c.toNat ≤ 0xFFFF →
      Writes c ('&' :: '#' :: (digits ++ [';']))
  | hexadecimal {x : Char} {digits : Text} : x = 'x' ∨ x = 'X' → IsNumeral 16 c.toNat digits →
      1 ≤ c.toNat → c.toNat ≤ 0xFFFF → Writes c ('&' :: '#' :: x :: (digits ++ [';']))
  | named {name : Text} : name.head?.any Char.isAlpha → (∀ d ∈ name, d.isAlphanum) →
      Reference.namedChar? name = some c → Writes c ('&' :: (name ++ [';']))

structure Spelling where
  char : Char
  text : Text
  writes : Writes char text

namespace Spelling

def chars (ws : List Spelling) : Text := ws.map char

def markup (ws : List Spelling) : Text := ws.flatMap text

def cleanSpan (as : List Spelling) (w : Spelling) : Span :=
  ⟨byteLength (chars as), byteLength (chars as) + w.char.utf8Size⟩

def sourceSpan (as : List Spelling) (w : Spelling) : Span :=
  ⟨byteLength (markup as), byteLength (markup as) + byteLength w.text⟩

end Spelling

open Spelling

/-- The tokens `ts` have the text of some spellings: characters that stand for themselves share
tokens, a reference is one of its own. -/
inductive Spells : List Spelling → List Token → Prop
  | nil : Spells [] []
  | copied {us ws : List Spelling} {t : Token} {ts : List Token} : t.kind.isCopied →
      (∀ w ∈ us, w.text = [w.char]) → t.text = chars us → Spells ws ts →
        Spells (us ++ ws) (t :: ts)
  | decoded {w : Spelling} {ws : List Spelling} {t : Token} {ts : List Token} {form : Reference} :
      t.kind = .reference form → form.char? t.text = some w.char → t.text = w.text →
        Spells ws ts → Spells (w :: ws) (t :: ts)

variable {c : Char} {text name tail : Text} {w : Spelling} {us ws vs : List Spelling} {t : Token}
  {ts : List Token} {p : Char → Bool} {kind : Kind} {givenUp : Bool} {g : Region}

namespace Spelling

@[simp] theorem chars_append (us ws : List Spelling) : chars (us ++ ws) = chars us ++ chars ws :=
  List.map_append

@[simp] theorem markup_append (us ws : List Spelling) :
    markup (us ++ ws) = markup us ++ markup ws := List.flatMap_append

theorem markup_cons (w : Spelling) (ws : List Spelling) : markup (w :: ws) = w.text ++ markup ws :=
  List.flatMap_cons

theorem markup_of_plain (hus : ∀ w ∈ us, w.text = [w.char]) : markup us = chars us := by
  induction us with
  | nil => rfl
  | cons w us ih =>
    obtain ⟨hw, hus⟩ := List.forall_mem_cons.mp hus
    rw [markup_cons, hw, ih hus]
    rfl

end Spelling

namespace Reference

theorem namedChar?_of_name (hhead : name.head?.any Char.isAlpha)
    (hname : ∀ d ∈ name, d.isAlphanum) :
    namedChar? ('&' :: (name ++ [';'])) = namedChar? name := by
  have hfront : afterAmpersand name = name := by
    cases name with
    | nil => rfl
    | cons d name =>
      unfold afterAmpersand
      split
      · rename_i heq
        obtain ⟨rfl, -⟩ := List.cons.inj heq
        cases hhead
      · rfl
  have hback : name.getLast? ≠ some ';' := by
    intro hlast
    have hsemicolon := hname ';' (List.mem_of_getLast? hlast)
    cases hsemicolon
  rw [namedChar?, namedChar?, hfront, afterAmpersand, beforeSemicolon, beforeSemicolon,
    List.getLast?_concat, if_pos rfl, if_neg hback, List.dropLast_concat]

end Reference

/-- What is no character by itself is a reference that the lexer reads as one token. -/
theorem Writes.plain_or_reference (h : Writes c text) :
    (c ≠ '<' ∧ c ≠ '&' ∧ text = [c]) ∨
      ∃ form : Reference, form.char? text = some c ∧ text.head? = some '&' ∧
        ∀ P tail, Construct P tail (.reference form) text := by
  cases h with
  | plain hlt hand => exact .inl ⟨hlt, hand, rfl⟩
  | @decimal digits hdigits hpos hle =>
    refine .inr ⟨.decimal, ?_, rfl, fun P tail ↦ .decimal ⟨hdigits.ne_nil, ?_, ?_⟩ (.inl rfl)⟩
    · exact congrArg some (Reference.digitsChar_of_numeral hdigits (by decide) (by decide) hpos hle)
    · intro d hd
      obtain ⟨v, hv, hlt⟩ := hdigits.exists_value (by decide) (by decide) hd
      exact isDigit_of_digitValue? hv hlt
    · exact Bool.false_ne_true
  | @hexadecimal x digits hx hdigits hpos hle =>
    refine .inr ⟨.hexadecimal, ?_, rfl,
      fun P tail ↦ .hexadecimal hx ⟨hdigits.ne_nil, ?_, ?_⟩ (.inl rfl)⟩
    · have hchar := Reference.digitsChar_of_numeral hdigits (by decide) (by decide) hpos hle
      rcases hx with rfl | rfl <;> exact congrArg some hchar
    · intro d hd
      obtain ⟨v, hv, -⟩ := hdigits.exists_value (by decide) (by decide) hd
      rw [isHexDigit, hv]
      rfl
    · exact Bool.false_ne_true
  | @named name hhead hname hchar =>
    refine .inr ⟨.named, ?_, rfl, fun P tail ↦ .named hhead hname⟩
    rw [Reference.char?, Reference.namedChar?_of_name hhead hname, hchar]

/-- A run ends where a reference begins, if not before. -/
theorem exists_run (hp : p '&' = false) (ws : List Spelling) :
    ∃ us vs, ws = us ++ vs ∧ (∀ w ∈ us, w.text = [w.char]) ∧ (∀ w ∈ us, p w.char) ∧
      ¬ (markup vs).head?.any p := by
  induction ws with
  | nil => exact ⟨[], [], rfl, nofun, nofun, Bool.false_ne_true⟩
  | cons w ws ih =>
    obtain ⟨us, vs, rfl, hplain, hus, hvs⟩ := ih
    rcases w.writes.plain_or_reference with ⟨-, -, htext⟩ | ⟨form, -, hhead, -⟩
    · by_cases hw : p w.char
      · exact ⟨w :: us, vs, rfl, List.forall_mem_cons.mpr ⟨htext, hplain⟩,
          List.forall_mem_cons.mpr ⟨hw, hus⟩, hvs⟩
      · refine ⟨[], w :: (us ++ vs), rfl, nofun, nofun, ?_⟩
        rw [markup_cons, htext]
        exact hw
    · refine ⟨[], w :: (us ++ vs), rfl, nofun, nofun, ?_⟩
      obtain ⟨rest, hrest⟩ := List.head?_eq_some_iff.mp hhead
      rw [markup_cons, hrest]
      simp [hp]

/-- A character that stands for itself belongs to a run of text or to one of blanks. -/
theorem exists_class (hlt : c ≠ '<') (hand : c ≠ '&') : ∃ (p : Char → Bool) (kind : Kind),
    kind.isCopied ∧ p c ∧ p '&' = false ∧
      ∀ P cs tail, IsRun p cs tail → Construct P tail kind cs := by
  by_cases hblank : isBlank c
  · exact ⟨isBlank, .blank, rfl, hblank, rfl, fun P cs tail hrun ↦ .blank hrun⟩
  · refine ⟨isTextChar, .text, rfl, ?_, rfl, fun P cs tail hrun ↦ .text hrun⟩
    simp [isTextChar, hblank, hlt, hand]

theorem spells_tokensFrom (ws : List Spelling) (givenUp : Bool) (offset : Nat) :
    Spells ws (PlainLexer.tokensFrom none givenUp offset (markup ws)) := by
  induction hlen : ws.length using Nat.strongRecOn generalizing ws offset with
  | ind n ih =>
    subst hlen
    cases ws with
    | nil =>
      rw [show markup [] = [] from rfl, PlainLexer.tokensFrom]
      exact .nil
    | cons w ws =>
      rcases w.writes.plain_or_reference with ⟨hlt, hand, htext⟩ | ⟨form, hchar, -, hconstruct⟩
      · obtain ⟨p, kind, hkind, hw, hp, hconstruct⟩ := exists_class hlt hand
        obtain ⟨us, vs, hws, hplain, hus, hvs⟩ := exists_run hp (w :: ws)
        have hne : us ≠ [] := by
          rintro rfl
          rw [List.nil_append] at hws
          rw [← hws, markup_cons, htext] at hvs
          exact hvs hw
        have hrun : IsRun p (chars us) (markup vs) := by
          refine ⟨fun hnil ↦ hne (List.map_eq_nil_iff.mp hnil), ?_, hvs⟩
          intro d hd
          obtain ⟨u, hu, rfl⟩ := List.mem_map.mp hd
          exact hus u hu
        have hshorter : vs.length < (w :: ws).length := by
          have hpos := List.length_pos_iff.mpr hne
          rw [hws, List.length_append]
          omega
        have hderives := Derives.of_construct (hconstruct (givenUp = true) _ _ hrun)
        rw [hws, markup_append, markup_of_plain hplain,
          PlainLexer.tokensFrom_of_shown hderives (.inl hkind)]
        exact .copied hkind hplain rfl (ih vs.length hshorter vs _ rfl)
      · have hderives := Derives.of_construct (hconstruct (givenUp = true) (markup ws))
        rw [markup_cons, PlainLexer.tokensFrom_of_shown hderives (.inr ⟨form, rfl⟩)]
        exact .decoded rfl hchar rfl (ih ws.length (Nat.lt_succ_self _) ws _ rfl)

theorem spells_tokens (ws : List Spelling) : Spells ws (tokens (markup ws)) := by
  rw [PlainLexer.tokens_eq]
  exact spells_tokensFrom ws false 0

namespace Spells

theorem shown (h : Spells ws ts) :
    ∀ t ∈ ts, t.kind.isCopied ∨ ∃ form, t.kind = .reference form := by
  induction h with
  | nil => exact nofun
  | copied hcopied _ _ _ ih => exact List.forall_mem_cons.mpr ⟨.inl hcopied, ih⟩
  | decoded hkind _ _ _ ih => exact List.forall_mem_cons.mpr ⟨.inr ⟨_, hkind⟩, ih⟩

theorem flatMap_text (h : Spells ws ts) : ts.flatMap Token.text = markup ws := by
  induction h with
  | nil => rfl
  | copied _ hplain htext _ ih =>
    rw [List.flatMap_cons, htext, ih, markup_append, markup_of_plain hplain]
  | decoded _ _ htext _ ih => rw [List.flatMap_cons, htext, ih, markup_cons]

theorem cleanText_eq (h : Spells ws ts) : cleanText (events ts) = chars ws := by
  have hcons {t : Token} {ts : List Token} {text : Text} (hshown : t.shownText? = some text)
      (hkind : t.kind.isCopied ∨ ∃ form, t.kind = .reference form) :
      cleanText (events (t :: ts)) = text ++ cleanText (events ts) := by
    rw [events, eventsFrom, cleanText_append, t.cleanText_event, Region.after_of_shown hkind,
      hshown]
    rfl
  induction h with
  | nil => rfl
  | copied hcopied _ htext _ ih =>
    rw [hcons (Token.shownText?_of_isCopied hcopied) (.inl hcopied), htext, ih, chars_append]
  | decoded hkind hchar _ _ ih =>
    rw [hcons (Token.shownText?_of_reference hkind hchar) (.inr ⟨_, hkind⟩), ih]
    rfl

theorem regionAfter_eq (h : Spells ws ts) : regionAfter ts = {} := by
  have hshown := h.shown
  clear h
  rw [regionAfter]
  induction ts with
  | nil => rfl
  | cons t ts ih =>
    obtain ⟨ht, hts⟩ := List.forall_mem_cons.mp hshown
    rw [List.foldl_cons, Region.after_of_shown ht, ih hts]

theorem append_eq_append_cons {α : Type} {as bs us vs : List α} {a : α}
    (h : us ++ vs = as ++ a :: bs) :
    (∃ as', as = us ++ as' ∧ vs = as' ++ a :: bs) ∨ ∃ us', us = as ++ a :: us' ∧ bs = us' ++ vs := by
  rcases List.append_eq_append_iff.mp h with h | ⟨us', rfl, hrest⟩
  · exact .inl h
  · cases us' with
    | nil => exact .inl ⟨[], by simp, hrest.symm⟩
    | cons u us' =>
      obtain ⟨rfl, rfl⟩ := List.cons.inj hrest
      exact .inr ⟨us', rfl, rfl⟩

/-- The token that shows a character does so by the markup of its spelling. -/
theorem exists_shows (h : Spells ws ts) {as bs : List Spelling} (hws : ws = as ++ w :: bs) :
    ∃ us before t after xs zs, Spells us before ∧ ts = before ++ t :: after ∧
      t.Shows w.char xs w.text zs ∧ chars as = chars us ++ xs ∧ markup as = markup us ++ xs := by
  induction h generalizing as with
  | nil => simp at hws
  | @copied vs ws t ts hcopied hplain htext hts ih =>
    rcases append_eq_append_cons hws with ⟨as', rfl, hrest⟩ | ⟨vs', rfl, -⟩
    · obtain ⟨us, before, u, after, xs, zs, hus, rfl, hshows, hchars, hmarkup⟩ := ih hrest
      refine ⟨vs ++ us, t :: before, u, after, xs, zs, .copied hcopied hplain htext hus, rfl, hshows,
        ?_, ?_⟩
      · rw [chars_append, chars_append, hchars, List.append_assoc]
      · rw [markup_append, markup_append, hmarkup, List.append_assoc]
    · have has : ∀ v ∈ as, v.text = [v.char] := fun v hv ↦ hplain v (List.mem_append_left _ hv)
      have hw : w.text = [w.char] := hplain w (List.mem_append_right as List.mem_cons_self)
      rw [chars_append] at htext
      refine ⟨[], [], t, ts, chars as, chars vs', .nil, rfl, ?_, rfl, markup_of_plain has⟩
      rw [hw]
      exact .copied hcopied htext
  | @decoded v ws t ts form hkind hchar htext hts ih =>
    cases as with
    | nil =>
      obtain ⟨rfl, rfl⟩ := List.cons.inj hws
      exact ⟨[], [], t, ts, [], [], .nil, rfl, htext ▸ .decoded hkind hchar, rfl, rfl⟩
    | cons a as =>
      obtain ⟨rfl, hrest⟩ := List.cons.inj hws
      obtain ⟨us, before, u, after, xs, zs, hus, rfl, hshows, hchars, hmarkup⟩ := ih hrest
      refine ⟨v :: us, t :: before, u, after, xs, zs, .decoded hkind hchar htext hus, rfl, hshows,
        ?_, ?_⟩
      · exact congrArg (v.char :: ·) hchars
      · rw [markup_cons, markup_cons, hmarkup, List.append_assoc]

end Spells

/-- The character of a spelling comes from the markup of that spelling. -/
theorem comesFrom_spelling (as bs : List Spelling) (w : Spelling) :
    ComesFrom (markup (as ++ w :: bs)) (chars as) w.char (Spelling.sourceSpan as w) := by
  obtain ⟨us, before, t, after, xs, zs, hus, hts, hshows, hchars, hmarkup⟩ :=
    (spells_tokens (as ++ w :: bs)).exists_shows rfl
  have hshown : (regionAfter before).isHidden = false := by
    rw [hus.regionAfter_eq]
    rfl
  have hoffset := (hts ▸ contiguous_tokens (markup (as ++ w :: bs))).offset_eq
  have hfrom := hshows.comesFrom hts hshown
  rw [hus.flatMap_text, Nat.zero_add] at hoffset
  rwa [hus.cleanText_eq, ← hchars, byteLength_append, hoffset, ← Nat.add_assoc, ← byteLength_append,
    ← hmarkup] at hfrom

section

variable {m : Text} (hshown : ∀ t ∈ tokens m, t.kind.isCopied ∨ ∃ form, t.kind = .reference form)
include hshown

theorem not_boundary_of_shown : .boundary ∉ placeFrom 0 (events (tokens m)) := by
  intro hmem
  obtain ⟨es, es', hes⟩ := List.append_of_mem hmem
  obtain ⟨before, t, after, hts, hevent, -⟩ := exists_token_of_boundary_event hes
  have ht := hshown t (hts ▸ List.mem_append_right before List.mem_cons_self)
  rcases ht with hcopied | ⟨form, hform⟩
  · rw [Token.isCopied_of_boundary hevent] at hcopied
    cases hcopied
  · cases ((Token.event?_eq_boundary_iff hts).mp hevent).1 with
    | block hkind => cases hform.symm.trans hkind
    | title hkind => cases hform.symm.trans hkind
    | head hkind => cases hform.symm.trans hkind

theorem inTitle_of_shown : ∀ r ∈ merge (fragmentRuns m), r.inTitle = false := by
  have htitled := titled_placeFrom {} 0 (tokens m)
  have hblocks := blocks_of_not_boundary (not_boundary_of_shown hshown)
  apply forall_merge
  · intro r r' longer hr _ hextend
    obtain ⟨-, rfl⟩ := Run.extend?_eq_some_iff.mp hextend
    exact hr
  · intro r hr
    apply htitled.inTitle_eq.1 false rfl
    rw [← events, hblocks]
    exact hr

/-- Text without tags is one line, outside the title, if there is any. -/
theorem lines_of_shown (s : Splitter) (base : Nat) (want : Bool) :
    ((s.outline base m want).text = [] → (s.outline base m want).lines = #[]) ∧
      ((s.outline base m want).text ≠ [] → ∃ l, (s.outline base m want).lines = #[l] ∧
        l.inTitle = false ∧ l.clean = ⟨0, byteLength (s.outline base m want).text⟩) := by
  have htiling := tiling_lines base m s want
  have hcount := congrArg List.length (LineBuilder.runs_lines (titled_tokens m))
  have hle := length_shownBlocks_le (not_boundary_of_shown hshown)
  rw [List.length_map, List.length_map] at hcount
  rw [← hcount] at hle
  change (s.outline base m want).lines.toList.length ≤ 1 at hle
  constructor
  · intro hnil
    apply Array.toList_eq_nil_iff.mp
    apply List.eq_nil_iff_forall_not_mem.mpr
    intro l hl
    have hlt := Outline.clean_lt htiling hl
    have hstop := Outline.clean_stop_le htiling hl
    rw [hnil] at hstop
    exact Nat.not_lt_zero _ (Nat.lt_of_lt_of_le hlt hstop)
  · intro hne
    have hpos := byteLength_pos hne
    rcases hlines : (s.outline base m want).lines.toList with _ | ⟨l, _ | ⟨k, ls⟩⟩
    · rw [hlines] at htiling
      exact absurd htiling.2 (Nat.ne_of_lt hpos)
    · have hruns := Splitter.lineRuns_outline base m s want
      rw [hlines, lineRuns_cons, lineRuns_nil, List.append_nil] at htiling hruns
      refine ⟨l, Array.toList_inj.mp hlines, ?_, Line.clean_eq htiling⟩
      apply inTitle_of_shown hshown
      rw [← hruns]
      exact l.first_mem
    · simp [hlines] at hle

end

/-- The document and its outline give back the characters of some spellings: as the clean text, in
one line, and each of them at the markup of its spelling. -/
structure Restores (ws : List Spelling) (d : Document) (o : Outline) : Prop where
  text : d.text = chars ws ∧ o.text = chars ws
  no_line : ws = [] → o.lines = #[]
  one_line : ws ≠ [] → ∃ l, o.lines = #[l] ∧ l.inTitle = false
  ranges (as : List Spelling) (w : Spelling) (bs : List Spelling) : ws = as ++ w :: bs →
    RunIndex.sourceSpan d.table (cleanSpan as w) = Spelling.sourceSpan as w ∧
      ∀ l ∈ o.lines.toList, RunIndex.sourceSpan l (cleanSpan as w) = Spelling.sourceSpan as w

/-- Extraction undoes escaping. -/
theorem restores_markup (s : Splitter) (base : Nat) (ws : List Spelling) (want : Bool) :
    Restores ws (Document.ofMarkup base (markup ws)) (s.outline base (markup ws) want) := by
  have hts := spells_tokens ws
  have htext : (s.outline base (markup ws) want).text = chars ws := hts.cleanText_eq
  obtain ⟨hnone, hone⟩ := lines_of_shown hts.shown s base want
  rw [htext] at hnone hone
  refine ⟨⟨hts.cleanText_eq, htext⟩, ?_, ?_, ?_⟩
  · rintro rfl
    exact hnone rfl
  · intro hne
    obtain ⟨l, hl, htitle, -⟩ := hone fun hnil ↦ hne (List.map_eq_nil_iff.mp hnil)
    exact ⟨l, hl, htitle⟩
  · rintro as w bs rfl
    have hsize := w.char.utf8Size_pos
    obtain ⟨hleft, hright⟩ := (comesFrom_spelling as bs w).offsetIn_eq
    constructor
    · have htable := tiling_table base (markup (as ++ w :: bs))
      rw [RunIndex.sourceSpan, RunTable.sourceOffset_eq htable.ascending,
        RunTable.sourceOffset_eq htable.ascending, Document.runs_table]
      exact congrArg₂ Span.mk hleft hright
    · intro l hl
      obtain ⟨l', hlines, -, hclean⟩ := hone (by simp [chars])
      have hsame : l ∈ [l'] := by
        rw [hlines] at hl
        exact hl
      obtain rfl := List.mem_singleton.mp hsame
      have htiling := tiling_lines base (markup (as ++ w :: bs)) s want
      have hwithin : byteLength (chars as) + w.char.utf8Size ≤ l.clean.stop := by
        rw [hclean, chars_append, byteLength_append]
        exact Nat.add_le_add_left (Nat.le_add_right _ _) _
      have hstart : l.clean.start ≤ byteLength (chars as) := by
        rw [hclean]
        exact Nat.zero_le _
      rw [htiling.sourceSpan_line hl ⟨hstart, Nat.lt_add_of_pos_right hsize, hwithin⟩,
        Splitter.lineRuns_outline]
      exact congrArg₂ Span.mk hleft hright

example : (Document.ofMarkup 0 "a&#0098;&#X26;b;".toList).text = "ab&b;".toList := by
  decide +kernel

end MarkupText
