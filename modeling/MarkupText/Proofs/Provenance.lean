import MarkupText.Proofs.Agreement
import MarkupText.Proofs.Tables

namespace MarkupText

def charSource (look : Side → Nat → Nat) (offset : Nat) (c : Char) : Span :=
  ⟨look .left offset, look .right (offset + c.utf8Size)⟩

structure CopiedFrom (m : Text) (look : Side → Nat → Nat) (offset : Nat) (c : Char)
    (t : Token) : Prop where
  copied : t.kind.isCopied
  low : t.offset ≤ (charSource look offset c).start
  high : (charSource look offset c).stop ≤ t.stop
  slice : Text.slice? m (charSource look offset c) = some [c]
  interior (k : Nat) : offset < k → k < offset + c.utf8Size →
    look .left k = (charSource look offset c).start + (k - offset)

structure DecodedFrom (m : Text) (look : Side → Nat → Nat) (offset : Nat) (c : Char)
    (t : Token) : Prop where
  char : ∃ form, t.kind = .reference form ∧ form.char? t.text = some c
  span : charSource look offset c = t.span
  slice : Text.slice? m (charSource look offset c) = some t.text
  interior (k : Nat) : offset < k → k < offset + c.utf8Size →
    look .left k = (charSource look offset c).start

/-- The lookups give the character `c` at clean byte `offset` the markup that it comes from. -/
structure Traced (m : Text) (look : Side → Nat → Nat) (offset : Nat) (c : Char) : Prop where
  lt : (charSource look offset c).start < (charSource look offset c).stop
  le : (charSource look offset c).stop ≤ Text.byteLength m
  origin : ∃ t ∈ tokens m, CopiedFrom m look offset c t ∨ DecodedFrom m look offset c t

variable {m before after : Text} {look look' : Side → Nat → Nat} {offset : Nat} {c : Char}
  {t : Token} {r : Run}

theorem Traced.congr (h : Traced m look offset c)
    (hleft : ∀ k, offset ≤ k → k < offset + c.utf8Size → look' .left k = look .left k)
    (hright : look' .right (offset + c.utf8Size) = look .right (offset + c.utf8Size)) :
    charSource look' offset c = charSource look offset c ∧ Traced m look' offset c := by
  have hpos := c.utf8Size_pos
  have hsource : charSource look' offset c = charSource look offset c := by
    rw [charSource, hleft offset (Nat.le_refl _) (by omega), hright, charSource]
  obtain ⟨hlt, hle, t, ht, horigin⟩ := h
  refine ⟨hsource, hsource ▸ hlt, hsource ▸ hle, t, ht, ?_⟩
  rcases horigin with ⟨hcopied, hlow, hhigh, hslice, hinterior⟩ | ⟨hc, hspan, hslice, hinterior⟩
  · refine .inl ⟨hcopied, hsource ▸ hlow, hsource ▸ hhigh, hsource ▸ hslice, ?_⟩
    intro k hlow hhigh
    rw [hleft k (Nat.le_of_lt hlow) hhigh, hinterior k hlow hhigh, hsource]
  · refine .inr ⟨hc, hsource ▸ hspan, hsource ▸ hslice, ?_⟩
    intro k hlow hhigh
    rw [hleft k (Nat.le_of_lt hlow) hhigh, hinterior k hlow hhigh, hsource]

theorem traced_of_copied {text xs ys : Text} (ht : t ∈ tokens m) (hcopied : t.kind.isCopied)
    (hsource : r.source = t.span) (hclean : Text.slice? text r.clean = some t.text)
    (htext : t.text = xs ++ [c] ++ ys) :
    Traced m (fun _ ↦ r.sourceAt) (r.clean.start + Text.byteLength xs) c := by
  have hpos := c.utf8Size_pos
  have hspan := slice?_span ht
  have hlen := Text.byteLength_slice? hclean
  have hlen' := Text.byteLength_slice? (hsource ▸ hspan)
  have hstop := Text.stop_le_of_slice? hspan
  have hsum := congrArg Text.byteLength htext
  simp only [Text.byteLength_append, Text.byteLength_cons, Text.byteLength_nil] at hsum
  have hat (k : Nat) (hk : r.clean.start ≤ k) (hk' : k ≤ r.clean.stop) :
      r.sourceAt k = t.offset + (k - r.clean.start) := by
    rw [Run.sourceAt_literal (Run.isLiteral_iff.mpr (hlen.symm.trans hlen')) ?_ hk', hsource]
    · rfl
    · simp only [Span.length] at hlen'
      omega
  simp only [Span.length] at hlen
  have hchar : charSource (fun _ ↦ r.sourceAt) (r.clean.start + Text.byteLength xs) c =
      ⟨t.offset + Text.byteLength xs, t.offset + Text.byteLength xs + c.utf8Size⟩ := by
    rw [charSource, hat _ (by omega) (by omega), hat _ (by omega) (by omega)]
    simp only [Span.mk.injEq]
    omega
  simp only [Token.span, Token.stop, Token.length] at hstop
  refine ⟨?_, ?_, t, ht, .inl ⟨hcopied, ?_, ?_, ?_, ?_⟩⟩
  · simp only [hchar]
    omega
  · simp only [hchar]
    omega
  · simp only [hchar]
    omega
  · simp only [hchar, Token.stop, Token.length]
    omega
  · rw [hchar]
    exact Text.slice?_slice (htext ▸ hspan)
  · intro k hlow hhigh
    rw [hchar, hat k (by omega) (by omega)]
    simp only
    omega

theorem traced_of_decoded {text : Text} {form : Reference} (ht : t ∈ tokens m)
    (hkind : t.kind = .reference form) (hchar : form.char? t.text = some c)
    (hsource : r.source = t.span) (hclean : Text.slice? text r.clean = some [c]) :
    Traced m (fun _ ↦ r.sourceAt) r.clean.start c := by
  have hpos := c.utf8Size_pos
  have hspan := slice?_span ht
  have hstop := Text.stop_le_of_slice? hspan
  have hlt := (contiguous_tokens m).offset_lt_stop ht
  have hlit : r.isLiteral = false := Run.Decodes.isLiteral_eq_false
    ⟨t, ht, form, c, hkind, hchar, utf8Size_lt_length ht hkind hchar, hsource, hclean⟩
  have hlen := Text.byteLength_slice? hclean
  simp only [Text.byteLength_cons, Text.byteLength_nil, Span.length] at hlen
  have hat (k : Nat) (hk : r.clean.start ≤ k) (hk' : k < r.clean.stop) :
      r.sourceAt k = t.offset := by
    rw [Run.sourceAt_decoded hlit hk hk', hsource]
    rfl
  have hchar' : charSource (fun _ ↦ r.sourceAt) r.clean.start c = t.span := by
    rw [charSource, hat _ (Nat.le_refl _) (by omega), Run.sourceAt_of_stop_le (by omega), hsource]
    rfl
  refine ⟨hchar' ▸ hlt, hchar' ▸ hstop, t, ht, .inr ⟨⟨form, hkind, hchar⟩, hchar', ?_, ?_⟩⟩
  · rw [hchar', hspan]
  · intro k hlow hhigh
    rw [hchar', hat k (by omega) (by omega)]
    rfl

theorem exists_fragmentRun (h : cleanText (events (tokens m)) = before ++ c :: after) :
    ∃ r ∈ fragmentRuns m, r.clean.start ≤ Text.byteLength before ∧
      Text.byteLength before + c.utf8Size ≤ r.clean.stop ∧
      Traced m (fun _ ↦ r.sourceAt) (Text.byteLength before) c := by
  have hpos := c.utf8Size_pos
  have hlt : Text.byteLength before < Text.byteLength (cleanText (events (tokens m))) := by
    rw [h, Text.byteLength_append, Text.byteLength_cons]
    omega
  obtain ⟨r, hr, hlow, hhigh⟩ := (tiling_fragmentRuns m).exists_mem (Nat.zero_le _) hlt
  obtain ⟨t, ht, text, htext, hsource, hclean⟩ := exists_token_of_fragmentRun hr
  obtain ⟨as, bs, hcut, hstart, hstop⟩ := Text.slice?_eq_some_iff.mp hclean
  obtain ⟨xs, ys, rfl, rfl⟩ := Text.exists_cut (hcut.symm.trans h) (by omega) (by omega)
  rw [Text.byteLength_append, ← hstart] at hlow hhigh ⊢
  simp only [Text.byteLength_append, Text.byteLength_cons] at hstop
  refine ⟨r, hr, hlow, by omega, ?_⟩
  rcases Token.shownText?_eq_some htext with ⟨hcopied, heq⟩ | ⟨form, d, hkind, hd, heq⟩
  · have hparts : t.text = xs ++ [c] ++ ys := by simp [← heq]
    exact traced_of_copied ht hcopied hsource (heq ▸ hclean) hparts
  · obtain ⟨rfl, heq⟩ := List.append_eq_singleton_iff.mp heq |>.resolve_right (by simp)
    obtain ⟨rfl, rfl⟩ := List.cons.inj heq
    exact traced_of_decoded ht hkind hd hsource hclean

theorem traced_offsetIn (h : cleanText (events (tokens m)) = before ++ c :: after) :
    Traced m (offsetIn · · (merge (fragmentRuns m))) (Text.byteLength before) c := by
  have htiling := tiling_fragmentRuns m
  obtain ⟨r, hr, hlow, hhigh, htraced⟩ := exists_fragmentRun h
  have hpos := c.utf8Size_pos
  refine (htraced.congr ?_ ?_).2
  · intro k hk hk'
    have hholds : r.clean.Holds .left k := ⟨by omega, by omega⟩
    rw [offsetIn_merge htiling, htiling.offsetIn_of_mem hr hholds]
  · have hholds : r.clean.Holds .right (Text.byteLength before + c.utf8Size) :=
      ⟨by omega, hhigh⟩
    rw [offsetIn_merge htiling, htiling.offsetIn_of_mem hr hholds]

theorem stop_le_of_merge (hr : r ∈ merge (fragmentRuns m))
    (h : cleanText (events (tokens m)) = before ++ c :: after)
    (hlow : r.clean.start ≤ Text.byteLength before)
    (hhigh : Text.byteLength before < r.clean.stop) :
    Text.byteLength before + c.utf8Size ≤ r.clean.stop := by
  obtain ⟨cs, hcs⟩ := exists_slice_of_merge hr
  obtain ⟨as, bs, hcut, hstart, hstop⟩ := Text.slice?_eq_some_iff.mp hcs
  obtain ⟨xs, ys, rfl, rfl⟩ := Text.exists_cut (hcut.symm.trans h) (by omega) (by omega)
  simp only [Text.byteLength_append, Text.byteLength_cons] at hstop ⊢
  omega

theorem exists_line_of_character (s : Splitter) (base : Nat) (want : Bool)
    (h : (s.outline base m want).text = before ++ c :: after) :
    ∃ l ∈ (s.outline base m want).lines.toList, l.clean.start ≤ Text.byteLength before ∧
      Text.byteLength before + c.utf8Size ≤ l.clean.stop := by
  have hpos := c.utf8Size_pos
  have htiling := tiling_lines base m s want
  have hlt : Text.byteLength before < Text.byteLength (s.outline base m want).text := by
    rw [h, Text.byteLength_append, Text.byteLength_cons]
    omega
  obtain ⟨r, hr, hlow, hhigh⟩ := htiling.exists_mem (Nat.zero_le _) hlt
  obtain ⟨l, hl, hrl⟩ := List.mem_flatMap.mp hr
  obtain ⟨hstart, hstop⟩ := htiling.line_of_mem hl hrl
  rw [Splitter.lineRuns_outline] at hr
  have hend := stop_le_of_merge hr h hlow hhigh
  exact ⟨l, hl, by omega, by omega⟩

/-- Each character of the clean text is traced to its markup, by the table and by the line that
holds it alike, and later characters to later markup. -/
theorem character_traced (s : Splitter) (base : Nat) (want : Bool)
    (h : (Document.ofMarkup base m).text = before ++ c :: after) :
    Traced m (RunIndex.sourceOffset · (Document.ofMarkup base m).table)
      (Text.byteLength before) c ∧
    (∃ l, (s.outline base m want).lineHolding? (Text.byteLength before) = some l ∧
      charSource (RunIndex.sourceOffset · l) (Text.byteLength before) c =
        charSource (RunIndex.sourceOffset · (Document.ofMarkup base m).table)
          (Text.byteLength before) c ∧
      Traced m (RunIndex.sourceOffset · l) (Text.byteLength before) c) ∧
    ∀ mid d rest, after = mid ++ d :: rest →
      (charSource (RunIndex.sourceOffset · (Document.ofMarkup base m).table)
        (Text.byteLength before) c).stop ≤
      (charSource (RunIndex.sourceOffset · (Document.ofMarkup base m).table)
        (Text.byteLength (before ++ c :: mid)) d).start := by
  have htable := tiling_table base m
  have hlines := tiling_lines base m s want
  have hlook : (RunIndex.sourceOffset · (Document.ofMarkup base m).table) =
      (offsetIn · · (merge (fragmentRuns m))) := by
    funext side k
    rw [RunTable.sourceOffset_eq htable.ascending, Document.runs_table]
  rw [hlook]
  have htraced := traced_offsetIn h
  refine ⟨htraced, ?_, ?_⟩
  · obtain ⟨l, hl, hlow, hhigh⟩ := exists_line_of_character s base want h
    have hpos := c.utf8Size_pos
    refine ⟨l, (Outline.lineHolding?_eq_some_iff hlines).mpr ⟨hl, hlow, by omega⟩,
      htraced.congr ?_ ?_⟩
    · intro k hk hk'
      have hholds : l.clean.Holds .left k := ⟨by omega, by omega⟩
      rw [hlines.offsetIn_line hl hholds, Splitter.lineRuns_outline]
    · have hholds : l.clean.Holds .right (Text.byteLength before + c.utf8Size) :=
        ⟨by omega, hhigh⟩
      rw [hlines.offsetIn_line hl hholds, Splitter.lineRuns_outline]
  · rintro mid d rest rfl
    have hmerge := (tiling_fragmentRuns m).merge
    refine Nat.le_trans hmerge.offsetIn_right_le_left (hmerge.offsetIn_mono ?_)
    simp only [Text.byteLength_append, Text.byteLength_cons]
    omega

theorem character_traced_ampersand :
    (Document.ofMarkup 0 "a&amp;b".toList).text = ['a'] ++ '&' :: ['b'] ∧
    Traced "a&amp;b".toList
      (RunIndex.sourceOffset · (Document.ofMarkup 0 "a&amp;b".toList).table)
      (Text.byteLength ['a']) '&' := by
  have h : (Document.ofMarkup 0 "a&amp;b".toList).text = ['a'] ++ '&' :: ['b'] := by
    decide +kernel
  exact ⟨h, (character_traced ⟨⟨"en".toList, []⟩, by decide⟩ 0 false h).1⟩

end MarkupText
