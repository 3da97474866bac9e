import MarkupText.Proofs.Blocks
import MarkupText.Proofs.Closings
import MarkupText.Proofs.Passages
import MarkupText.Proofs.Sentences

namespace MarkupText

open Text

variable {m text cs front back : Text} {d e : Char} {s : Splitter} {base : Nat} {l : Line}
  {x : Sentence} {p : Passage m}

/-- A sentence that goes on without a blank in its line ends after a character that may end one. -/
theorem Splitter.canEnd_of_splitLine (htext : l.text? text = some cs) (hx : x ∈ s.splitLine text l)
    (hcut : text = front ++ d :: e :: back) (hstop : x.clean.stop = byteLength front + d.utf8Size)
    (hlow : l.clean.start ≤ byteLength front)
    (hhigh : byteLength front + d.utf8Size + e.utf8Size ≤ l.clean.stop)
    (he : isBlank e = false) : (BreakClass.ofChar d).canEnd := by
  obtain ⟨us, vs, rfl, hstart, hstop'⟩ := slice?_eq_some_iff.mp htext
  have hsize := e.utf8Size_pos
  obtain ⟨xs, ys, rfl, rfl⟩ := exists_cut hcut (by omega) (by omega)
  simp only [byteLength_append, byteLength_cons] at hstop hstop' hhigh
  have hys : ys ++ vs = e :: back := by simpa using hcut
  cases ys with
  | nil =>
    rw [byteLength_nil] at hstop'
    omega
  | cons y ys =>
    obtain ⟨rfl, -⟩ := List.cons.inj hys
    obtain ⟨r, hr, rfl⟩ := List.mem_map.mp hx
    rw [htext, Option.getD_some] at hr
    refine canEnd_of_split hr rfl ?_ he
    simp only [Span.shift] at hstop
    omega

namespace Passage

theorem clean_stop (p : Passage m) :
    p.clean.stop = byteLength p.front + byteLength p.body + p.final.utf8Size := by
  simp [clean, text, Nat.add_assoc]

/-- No block ends inside a line. -/
theorem not_boundary (hl : l ∈ (s.outline base m true).lines.toList)
    (hlow : l.clean.start ≤ p.clean.start) (hhigh : p.clean.stop ≤ l.clean.stop) :
    .boundary ∉ eventsFrom (regionAfter p.before) p.within := by
  intro hboundary
  obtain ⟨c, text, hfirst⟩ := p.visible
  obtain ⟨us, v, vs, hwithin, hv⟩ := exists_token_of_boundary p.before hboundary
  have hsplit := p.split
  rw [hwithin, List.append_assoc, List.cons_append] at hsplit
  cases us with
  | nil =>
    obtain ⟨rfl, -⟩ := List.cons.inj hsplit
    rw [List.append_nil, event?_of_visible hfirst] at hv
    cases hv
  | cons w us =>
    obtain rfl : p.first.dropFront p.skipped p.kept = w := (List.cons.inj hsplit).1
    obtain ⟨before', v', front', hcut', hv', hregion, hclean⟩ := p.cut.split hsplit
    obtain rfl : front' = [] := by
      refine hcut'.shown.resolve_right fun hshown ↦ ?_
      have hcopied := Token.isCopied_of_boundary hv
      rw [hv', show (v'.dropFront front' v.text).kind = v'.kind from rfl, hshown.1] at hcopied
      cases hcopied
    obtain rfl : v' = v := by
      rw [hv', Token.dropFront, byteLength_nil, Nat.add_zero, show v.text = v'.text from
        hcut'.text_eq.symm]
    rw [← hregion] at hv
    have hline := line_of_boundary hcut'.tokens_eq hv hl
    rw [List.append_nil] at hclean
    rw [hclean, cleanText_of_visible hfirst] at hline
    have hbody : byteLength (cleanText (eventsFrom (regionAfter p.before)
        (p.first.dropFront p.skipped p.kept :: us))) ≤ byteLength p.body := by
      rw [body, hwithin, eventsFrom_append, cleanText_append, byteLength_append, byteLength_append]
      omega
    rw [cleanText_of_visible hfirst] at hbody
    have hsize := c.utf8Size_pos
    have hsize' := p.final.utf8Size_pos
    rw [clean_stop] at hhigh
    simp only [clean, Passage.front, byteLength_append, byteLength_cons] at hline hlow hhigh hbody
    omega

/-- What the last token shows after the final character is in the same line. -/
theorem exists_last (p : Passage m) (hcopied : p.last.kind.isCopied) : ∃ before t,
    MarkupText.tokens m = before ++ t :: p.beyond ∧ t.kind = p.last.kind ∧
      visibleText? before t = some t.text ∧
      byteLength (cleanText (events before)) ≤ byteLength (p.front ++ p.body) ∧
      byteLength (cleanText (events before)) + byteLength t.text =
        byteLength (p.front ++ p.body) + p.final.utf8Size + byteLength p.rest ∧
      cleanText (events (MarkupText.tokens m)) = p.front ++ p.body ++ p.final ::
        (p.rest ++ cleanText (eventsFrom (regionAfter (before ++ [t])) p.beyond)) := by
  obtain ⟨before, t, front, hcut, ht, hregion, hclean⟩ := p.cut.split p.split
  have hkind : t.kind = p.last.kind := by rw [ht]; rfl
  have hvisible := visibleText?_of_isCopied (hregion ▸ p.shown) (hkind ▸ hcopied)
  have htext : t.text = front ++ (p.lead ++ p.final :: p.rest) := by
    rw [hcut.text_eq, p.shows.text_eq, p.shows.mark_eq hcopied]
    rfl
  have hfront : cleanText (events before) ++ (front ++ p.lead) = p.front ++ p.body := by
    rw [← List.append_assoc, hclean, Passage.front, body]
    simp
  refine ⟨before, t, hcut.tokens_eq, hkind, hvisible, ?_, ?_, ?_⟩
  · rw [← hfront, byteLength_append]
    exact Nat.le_add_right _ _
  · rw [← hfront, htext]
    simp only [byteLength_append, byteLength_cons]
    omega
  · rw [hcut.tokens_eq, events_append, cleanText_append, cleanText_of_visible hvisible, htext,
      ← hfront]
    simp

/-- A sentence ends inside no closing tag of a raw element. -/
theorem keepsClosings (hl : l ∈ (s.outline base m true).lines.toList)
    (hx : x ∈ s.splitLine (s.outline base m true).text l) (hclean : x.clean = p.clean) :
    KeepsClosings p.markup (p.rest ++ p.beyond.flatMap Token.text) := by
  obtain ⟨-, hlow, -, hhigh⟩ := mem_splitLine hx
  obtain ⟨cs, hline⟩ := exists_text_of_line hl
  obtain ⟨givenUp, hlexer⟩ := p.cut.exists_lexer p.kind
  have hstop : x.clean.stop = byteLength (p.front ++ p.body) + p.final.utf8Size := by
    rw [hclean, clean_stop, byteLength_append]
  have hsize := p.final.utf8Size_pos
  rw [hstop] at hhigh
  have hstart : x.clean.start ≤ byteLength (p.front ++ p.body) := by
    rw [hclean, byteLength_append]
    exact Nat.le_add_right _ _
  rw [p.split] at hlexer
  rcases p.shows.isCopied with hcopied | ⟨-, hrest, form, hkind⟩
  · obtain ⟨before, t, htokens, hkind, hvisible, hle, hlen, htext⟩ := p.exists_last hcopied
    have hlast : p.last.text = p.lead ++ p.final :: p.rest := by
      rw [p.shows.text_eq, p.shows.mark_eq hcopied]
      rfl
    rw [markup, p.shows.mark_eq hcopied]
    refine PlainLexer.keepsClosings_of_copied (by simp) hlexer hcopied hlast ?_ ?_
    · intro e es hrest he
      have hin := line_of_visible htokens hvisible hl (by omega) (by omega)
      rw [hlen, hrest, byteLength_cons] at hin
      rw [hrest, List.cons_append] at htext
      exact s.canEnd_of_splitLine hline hx htext hstop (by omega) (by omega) he
    · intro v vs e es hrest hbeyond hstray htextual hv he
      have hregion : regionAfter (before ++ [t]) = regionAfter before := by
        rw [regionAfter_concat, hkind, hstray]
        rfl
      have hcopied' : v.kind.isCopied := by rw [htextual]; rfl
      have hvisible' := visibleText?_of_isCopied (hregion ▸ isHidden_of_visible hvisible) hcopied'
      rw [hbeyond] at htokens htext
      have hin := line_of_visible_pair htokens hvisible hvisible' hregion hl (by omega) (by omega)
      rw [hlen, hv, hrest, byteLength_nil, byteLength_cons] at hin
      rw [cleanText_of_visible hvisible', hv, hrest, List.nil_append, List.cons_append] at htext
      exact s.canEnd_of_splitLine hline hx htext hstop (by omega) (by omega) he
  · have hlast := p.last_text
    rw [hrest, List.append_nil] at hlast
    rw [markup, ← hlast]
    exact PlainLexer.keepsClosings_of_reference (by simp) hlexer hkind

end Passage

theorem sentence_alone (base' : Nat)
    (hx : x ∈ s.splitLines (s.outline base m true).text (s.outline base m true).lines) :
    ∃ alone clean, slice? m x.source = some alone ∧
      slice? (s.outline base m true).text x.clean = some clean ∧
      (TagsEndWithin m x.source → (Document.ofMarkup base' alone).text = clean) := by
  have hsource := sourceSpan_of_mem_splitLines hx
  obtain ⟨l, hl, hxl⟩ := List.mem_flatMap.mp hx
  obtain ⟨-, hlow, -, hhigh⟩ := mem_splitLine hxl
  obtain ⟨cs, htext⟩ := exists_text_of_line hl
  obtain ⟨as, body, bs, hcut, hbody, hclean, -⟩ := exists_of_mem_splitLine htext hxl
  obtain ⟨c, rest, hhead, -⟩ := hbody.head
  obtain ⟨front, d, hlast, -⟩ := hbody.last
  obtain ⟨p, rfl, rfl⟩ := exists_passage hcut hhead hlast
  have hclean : x.clean = p.clean := by rw [hclean, Passage.clean, byteLength_append]
  have hsource : x.source = p.source := by rw [hsource, p.source_eq, hclean]
  refine ⟨p.markup, p.text, ?_, ?_, ?_⟩
  · rw [hsource]
    exact p.slice?_source
  · refine slice?_eq_some_iff.mpr ⟨p.front, bs, hcut, ?_, ?_⟩ <;> rw [hclean, Passage.clean]
    rw [byteLength_append]
  · intro hends
    rw [hclean] at hlow hhigh
    rw [hsource] at hends
    have hshown := p.cleanText_tokens (Passage.not_boundary hl hlow hhigh)
    rw [events, ← p.tokens_markup (Passage.keepsClosings hl hxl hclean) hends,
      cleanText_shift] at hshown
    exact hshown

/-- Where no tag has values that hide each `>`, the markup of every sentence has its clean text. -/
theorem sentence_alone_of_not_hidden (base' : Nat)
    (h : ∀ before t after, tokens m = before ++ t :: after → t.isTag →
      ¬ t.Hidden (after.flatMap Token.text))
    (hx : x ∈ s.splitLines (s.outline base m true).text (s.outline base m true).lines) :
    ∃ alone, slice? m x.source = some alone ∧ slice? (s.outline base m true).text x.clean =
      some (Document.ofMarkup base' alone).text := by
  obtain ⟨alone, clean, halone, hclean, htext⟩ := sentence_alone base' hx
  refine ⟨alone, halone, ?_⟩
  rw [hclean, htext (tagsEndWithin_of_not_hidden h x.source)]

/-- The markup of a sentence has its clean text when it is read alone, if its tags end where they
do as seen from there. -/
theorem sentences_alone (s : Splitter) (base base' : Nat) (m : Text) :
    ∃ xs, (s.outline base m true).sentences = some xs ∧ ∀ x ∈ xs, ∃ alone clean,
      slice? m x.source = some alone ∧ slice? (s.outline base m true).text x.clean = some clean ∧
      (TagsEndWithin m x.source → (Document.ofMarkup base' alone).text = clean) :=
  ⟨_, rfl, fun _ hx ↦ sentence_alone base' hx⟩

theorem sentences_alone_quoted :
    TagsEndWithin "x <b a=\">\">y</b>. Z".toList ⟨0, 17⟩ ∧
    ∃ alone, slice? "x <b a=\">\">y</b>. Z".toList ⟨0, 17⟩ = some alone ∧
      (Document.ofMarkup 0 alone).text = "x y.".toList := by
  obtain ⟨xs, hxs, hall⟩ :=
    sentences_alone ⟨⟨"en".toList, []⟩, by decide⟩ 0 0 "x <b a=\">\">y</b>. Z".toList
  have hsentences : (Splitter.outline ⟨⟨"en".toList, []⟩, by decide⟩ 0
      "x <b a=\">\">y</b>. Z".toList true).sentences =
        some [⟨⟨0, 4⟩, ⟨0, 17⟩, false⟩, ⟨⟨5, 6⟩, ⟨18, 19⟩, false⟩] := by decide +kernel
  have hends : TagsEndWithin "x <b a=\">\">y</b>. Z".toList ⟨0, 17⟩ := by decide +kernel
  obtain rfl := Option.some.inj (hxs.symm.trans hsentences)
  obtain ⟨alone, clean, halone, hclean, htext⟩ := hall _ List.mem_cons_self
  have hslice : slice? (Splitter.outline ⟨⟨"en".toList, []⟩, by decide⟩ 0
      "x <b a=\">\">y</b>. Z".toList true).text ⟨0, 4⟩ = some "x y.".toList := by decide +kernel
  obtain rfl := Option.some.inj (hclean.symm.trans hslice)
  exact ⟨hends, alone, halone, htext hends⟩

/-- The value that `a='` opens hides each `>` of the markup, so that the tag ends at the first of
them. The first sentence lacks the closing quote, and alone its tag ends at the second. -/
theorem not_sentences_alone : ∃ (s : Splitter) (m : Text) (xs : List Sentence) (x : Sentence)
    (alone clean : Text), (s.outline 0 m true).sentences = some xs ∧ x ∈ xs ∧
      slice? m x.source = some alone ∧ slice? (s.outline 0 m true).text x.clean = some clean ∧
      (Document.ofMarkup 0 alone).text ≠ clean := by
  refine ⟨⟨⟨"en".toList, []⟩, by decide⟩, "x <b a=' c=\">y\" > w. Z'".toList,
    [⟨⟨0, 9⟩, ⟨0, 20⟩, false⟩, ⟨⟨10, 12⟩, ⟨21, 23⟩, false⟩], ⟨⟨0, 9⟩, ⟨0, 20⟩, false⟩,
    "x <b a=' c=\">y\" > w.".toList, "x y\" > w.".toList, ?_⟩
  decide +kernel

end MarkupText
