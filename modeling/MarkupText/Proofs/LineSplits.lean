import MarkupText.Proofs.Blocks
import MarkupText.Proofs.Coverage
import MarkupText.Proofs.Derivations
import MarkupText.Proofs.LineBlocks

namespace MarkupText

open RunStore Text

/-- The tags of all elements but the inline ones end a line. -/
inductive Token.Splits (t : Token) : Prop
  | block {edge : Edge} {name : Text} : t.kind = .tag edge → t.name? = some name →
      (∀ inline ∈ inlineElements, ¬ sameCaseless name inline) → t.Splits
  | title {edge : Edge} : t.kind = .title edge → t.Splits
  | head {edge : Edge} : t.kind = .head edge → t.Splits

/-- Tokens of these kinds show nothing and stand within a line. -/
def Kind.isSilent : Kind → Bool
  | anchor _ | image | frame | base | metadata | comment | declaration | rawText | noIndex _ => true
  | _ => false

inductive Token.Silent (before : List Token) (t : Token) : Prop
  | kind : t.kind.isSilent → Token.Silent before t
  | unknown : t.kind = .reference .named → Reference.namedChar? t.text = none →
      Token.Silent before t
  | suppressed {text : Text} : t.shownText? = some text → hidesNext before → Token.Silent before t

def Fills (start stop : Nat) : List Span → Prop
  | [] => start = stop
  | r :: rs => r.start = start ∧ r.start < r.stop ∧ Fills r.stop stop rs

def linesAfter (ts : List Token) : LineBuilder :=
  collect ({} : LineBuilder) (placeFrom 0 (events ts))

/-- The lines of a document end where tags end them and nowhere else. -/
structure Outline.SplitsAtBlocks (o : Outline) (m : Text) : Prop where
  lines : o.lines = (linesAfter (tokens m)).lines
  ne_nil : ∀ l ∈ o.lines.toList, l.runs.toList ≠ []
  inTitle : ∀ l ∈ o.lines.toList, ∀ r ∈ l.runs.toList, r.inTitle = l.inTitle
  fills : Fills 0 o.window.length (o.lines.toList.map Line.clean)
  together (r s : Run) : [r, s].Sublist (lineRuns o.lines.toList) →
    ((∃ l ∈ o.lines.toList, r ∈ l.runs.toList ∧ s ∈ l.runs.toList) ↔
      ∀ before t after, tokens m = before ++ t :: after → inNoIndex before = false →
        r.source.stop ≤ t.offset → t.stop ≤ s.source.start → ¬ t.Splits)
  opened : ∀ l ∈ o.lines.toList, ∃ before t after text, tokens m = before ++ t :: after ∧
    visibleText? before t = some text ∧ l.source.start = t.offset ∧
      l.clean.start = byteLength (cleanText (events before))
  silent (before : List Token) (t : Token) (after : List Token) :
    tokens m = before ++ t :: after → t.Silent before →
      linesAfter (before ++ [t]) = linesAfter before

variable {es as bs : List (Event Run)} {title? : Option Bool} {r s : Run}
  {m : Text} {before after past ts : List Token} {t : Token} {source clean : Span} {rs : List Run}
  {l : Line} {n : Nat}

namespace Token

theorem splits_iff_isBoundary (hts : tokens m = before ++ t :: after) :
    t.Splits ↔ t.isBoundary := by
  constructor
  · intro h
    cases h with
    | block hkind hname hblock => simpa [isBoundary, hkind, hname, isInline] using hblock
    | title hkind => simp [isBoundary, hkind]
    | head hkind => simp [isBoundary, hkind]
  · intro h
    cases hkind : t.kind with
    | tag edge =>
      have htag : t.isTag := by simp [isTag, hkind]
      obtain ⟨name, -, hname, -⟩ := tag_of_tokens hts htag
      refine .block hkind hname ?_
      simpa [isBoundary, hkind, hname, isInline] using h
    | title edge => exact .title hkind
    | head edge => exact .head hkind
    | _ => simp [isBoundary, hkind] at h

theorem event?_eq_boundary_iff (hts : tokens m = before ++ t :: after) :
    t.event? (regionAfter before) = some .boundary ↔ t.Splits ∧ inNoIndex before = false := by
  rw [splits_iff_isBoundary hts, regionAfter_eq]
  unfold event?
  by_cases hboundary : t.isBoundary
  · cases inNoIndex before <;> simp [hboundary]
  · simp [hboundary]

theorem Silent.event?_eq_none (h : t.Silent before) : t.event? (regionAfter before) = none := by
  have hnone (hboundary : t.isBoundary = false) (hshown : t.shownText? = none) :
      t.event? (regionAfter before) = none := by
    simp [event?, hboundary, hshown]
  cases h with
  | kind hkind => cases ht : t.kind <;> simp_all [Kind.isSilent, isBoundary, shownText?]
  | unknown hkind hname =>
    have hboundary : t.isBoundary = false := by simp [isBoundary, hkind]
    exact hnone hboundary (by simp [shownText?, hkind, Reference.char?, hname])
  | suppressed hshown hhidden =>
    have hboundary : ¬ t.isBoundary := by
      intro hboundary
      rw [shownText?_of_isBoundary hboundary] at hshown
      cases hshown
    rw [event?, if_neg hboundary, isHidden_regionAfter, if_pos hhidden]

end Token

theorem Titled.of_append_boundary (h : Titled title? (as ++ .boundary :: bs)) :
    Titled title? as ∧ Titled none bs := by
  induction as generalizing title? with
  | nil => exact ⟨trivial, h⟩
  | cons e as ih =>
    cases e with
    | boundary => exact ih h
    | content r => exact ⟨⟨h.1, (ih h.2).1⟩, (ih h.2).2⟩

theorem blocks_of_not_boundary (h : .boundary ∉ es) : blocks es = (contents es, []) := by
  have hrest : (blocks es).2 = [] := by
    induction es with
    | nil => rfl
    | cons e es ih =>
      rw [List.mem_cons, not_or] at h
      obtain ⟨he, hes⟩ := h
      cases e with
      | boundary => exact absurd rfl he
      | content r => exact ih hes
  have hflatten := flatten_blocks es
  rw [hrest, List.flatten_nil, List.append_nil] at hflatten
  exact Prod.ext hflatten hrest

theorem length_shownBlocks_le (h : .boundary ∉ es) : (shownBlocks es).length ≤ 1 := by
  rw [shownBlocks, blocks_of_not_boundary h]
  exact List.length_filter_le _ _

theorem exists_line_of_not_boundary (h : Titled none es) (hes : .boundary ∉ es)
    (hsub : [r, s].Sublist (lineRuns (collect ({} : LineBuilder) es).lines.toList)) :
    ∃ l ∈ (collect ({} : LineBuilder) es).lines.toList, r ∈ l.runs.toList ∧ s ∈ l.runs.toList := by
  have hcount := congrArg List.length (LineBuilder.runs_lines h)
  rw [List.length_map, List.length_map] at hcount
  have hle := hcount ▸ length_shownBlocks_le hes
  rcases hlines : (collect ({} : LineBuilder) es).lines.toList with _ | ⟨l, _ | ⟨k, ls⟩⟩
  · simp [hlines] at hsub
  · rw [hlines, lineRuns_cons, lineRuns_nil, List.append_nil] at hsub
    refine ⟨l, List.mem_cons_self, ?_, ?_⟩
    · exact hsub.subset List.mem_cons_self
    · exact hsub.subset (List.mem_cons_of_mem r List.mem_cons_self)
  · simp [hlines] at hle

/-- Between runs of different lines there is a boundary. -/
theorem exists_boundary_between (h : Titled none es)
    (hsub : [r, s].Sublist (lineRuns (collect ({} : LineBuilder) es).lines.toList))
    (hapart : ¬ ∃ l ∈ (collect ({} : LineBuilder) es).lines.toList,
      r ∈ l.runs.toList ∧ s ∈ l.runs.toList) :
    ∃ as bs, es = as ++ .boundary :: bs ∧
      r ∈ lineRuns (collect ({} : LineBuilder) as).lines.toList ∧
      s ∈ lineRuns (collect ({} : LineBuilder) bs).lines.toList := by
  induction hn : es.length using Nat.strongRecOn generalizing es with
  | ind n ih =>
    by_cases hes : .boundary ∈ es
    · obtain ⟨as, bs, rfl, has⟩ := List.eq_append_cons_of_mem hes
      obtain ⟨htitled, htitled'⟩ := h.of_append_boundary
      rw [LineBuilder.lines_collect_boundary, Array.toList_append] at hsub hapart
      rw [lineRuns_append] at hsub
      obtain ⟨xs, ys, hxs, hfront, hback⟩ := List.sublist_append_iff.mp hsub
      rcases xs with _ | ⟨x, _ | ⟨x', xs⟩⟩
      · obtain rfl : [r, s] = ys := hxs
        have hapart' : ¬ ∃ l ∈ (collect ({} : LineBuilder) bs).lines.toList,
            r ∈ l.runs.toList ∧ s ∈ l.runs.toList := by
          rintro ⟨l, hl, hboth⟩
          exact hapart ⟨l, List.mem_append_right _ hl, hboth⟩
        have hlt : bs.length < n := by
          rw [← hn, List.length_append, List.length_cons]
          omega
        obtain ⟨cs, ds, rfl, hr, hs⟩ := ih bs.length hlt htitled' hback hapart' rfl
        refine ⟨as ++ .boundary :: cs, ds, by simp, ?_, hs⟩
        rw [LineBuilder.lines_collect_boundary, Array.toList_append, lineRuns_append]
        exact List.mem_append_right _ hr
      · obtain ⟨rfl, hys⟩ := List.cons.inj hxs
        obtain rfl : [s] = ys := hys
        exact ⟨as, bs, rfl, List.singleton_sublist.mp hfront, List.singleton_sublist.mp hback⟩
      · obtain ⟨rfl, hxs'⟩ := List.cons.inj hxs
        obtain ⟨rfl, hnil⟩ := List.cons.inj hxs'
        obtain ⟨rfl, -⟩ := List.append_eq_nil_iff.mp hnil.symm
        obtain ⟨l, hl, hboth⟩ := exists_line_of_not_boundary htitled has hfront
        exact absurd ⟨l, List.mem_append_left _ hl, hboth⟩ hapart
    · exact absurd (exists_line_of_not_boundary h hes hsub) hapart

theorem exists_placeFrom_append {x : Event Run} {fs : List (Event Fragment)}
    (h : placeFrom n fs = as ++ x :: bs) : ∃ gs f hs, fs = gs ++ f :: hs ∧ as = placeFrom n gs ∧
      x :: bs = placeFrom (n + byteLength (cleanText gs)) (f :: hs) := by
  induction fs generalizing n as with
  | nil => simp [placeFrom] at h
  | cons f fs ih =>
    cases as with
    | nil => exact ⟨[], f, fs, rfl, rfl, h.symm⟩
    | cons a as =>
      cases f with
      | boundary =>
        obtain ⟨rfl, htail⟩ := List.cons.inj h
        obtain ⟨gs, g, hs, rfl, rfl, hrest⟩ := ih htail
        exact ⟨.boundary :: gs, g, hs, rfl, rfl, hrest⟩
      | content f =>
        obtain ⟨rfl, htail⟩ := List.cons.inj h
        obtain ⟨gs, g, hs, rfl, rfl, hrest⟩ := ih htail
        refine ⟨.content f :: gs, g, hs, rfl, rfl, ?_⟩
        rw [hrest, cleanText_content, byteLength_append, Nat.add_assoc]

theorem exists_eventsFrom_append {gs hs : List (Event Fragment)} {f : Event Fragment}
    (h : eventsFrom (regionAfter past) ts = gs ++ f :: hs) : ∃ before t after,
      ts = before ++ t :: after ∧ gs = eventsFrom (regionAfter past) before ∧
        t.event? (regionAfter (past ++ before)) = some f ∧
        hs = eventsFrom (regionAfter (past ++ before ++ [t])) after := by
  induction ts generalizing past gs with
  | nil => simp [eventsFrom] at h
  | cons t ts ih =>
    rw [eventsFrom, ← regionAfter_concat] at h
    cases he : t.event? (regionAfter past) with
    | none =>
      rw [he, Option.toList_none, List.nil_append] at h
      obtain ⟨before, u, after, rfl, rfl, hu, rfl⟩ := ih h
      refine ⟨t :: before, u, after, rfl, ?_, by simpa using hu, by simp⟩
      rw [eventsFrom, he, Option.toList_none, List.nil_append, regionAfter_concat]
    | some e =>
      rw [he, Option.toList_some, List.singleton_append] at h
      cases gs with
      | nil =>
        obtain ⟨rfl, rfl⟩ := List.cons.inj h
        exact ⟨[], t, ts, rfl, rfl, by simpa using he, by simp⟩
      | cons g gs =>
        obtain ⟨rfl, htail⟩ := List.cons.inj h
        obtain ⟨before, u, after, rfl, rfl, hu, rfl⟩ := ih htail
        refine ⟨t :: before, u, after, rfl, ?_, by simpa using hu, by simp⟩
        rw [eventsFrom, he, Option.toList_some, List.singleton_append, regionAfter_concat]

/-- Each boundary in a document is that of a token. -/
theorem exists_token_of_boundary_event
    (h : placeFrom 0 (events (tokens m)) = as ++ .boundary :: bs) : ∃ before t after,
      tokens m = before ++ t :: after ∧ t.event? (regionAfter before) = some .boundary ∧
        as = placeFrom 0 (events before) ∧
        bs = placeFrom (byteLength (cleanText (events before)))
          (eventsFrom (regionAfter (before ++ [t])) after) := by
  obtain ⟨gs, f, hs, hevents, rfl, hrest⟩ := exists_placeFrom_append h
  have hpast : eventsFrom (regionAfter []) (tokens m) = gs ++ f :: hs := hevents
  obtain ⟨before, t, after, hts, rfl, hf, rfl⟩ := exists_eventsFrom_append hpast
  rw [Nat.zero_add] at hrest
  cases f with
  | content f => cases hrest
  | boundary => exact ⟨before, t, after, hts, hf, rfl, (List.cons.inj hrest).2⟩

theorem exists_token_of_run (hr : r ∈ fragmentRuns m) : ∃ before t after text,
    tokens m = before ++ t :: after ∧ visibleText? before t = some text ∧
      r.source.start = t.offset ∧ r.clean.start = byteLength (cleanText (events before)) := by
  obtain ⟨before, t, after, text, hts, htext, hsource, -⟩ := exists_visible_of_fragmentRun hr
  have ht : t ∈ tokens m := hts ▸ List.mem_append_right before List.mem_cons_self
  have hlt := (contiguous_tokens m).offset_lt_stop ht
  have hstart : r.source.start = t.offset := by rw [hsource]; rfl
  have hstop : r.source.stop = t.stop := by rw [hsource]; rfl
  obtain rfl := (tiling_fragmentRuns m).eq_of_byte hr (mem_fragmentRuns hts htext)
    (Nat.le_of_eq hstart) (hstop ▸ hlt) (Nat.le_refl _) hlt
  exact ⟨before, t, after, text, hts, htext, rfl, rfl⟩

theorem Fills.of_tiling (h : Tiling source clean rs) :
    Fills clean.start clean.stop (rs.map (·.clean)) := by
  induction rs generalizing source clean with
  | nil => exact h.2
  | cons r rs ih => exact ⟨h.2.2.1, h.2.2.2.1, ih h.tail⟩

namespace LineBuilder

theorem run_within (h : Layout source clean es)
    (hr : r ∈ lineRuns (collect ({} : LineBuilder) es).lines.toList) : r.Within source clean :=
  (tiling_lines h).of_mem hr

/-- The runs of a line are those of a block, joined. -/
theorem exists_block_of_line (h : Titled none es)
    (hl : l ∈ (collect ({} : LineBuilder) es).lines.toList) :
    ∃ b ∈ shownBlocks es, l.runs.toList = merge b := by
  have hmem : l.runs.toList ∈ (shownBlocks es).map merge := by
    rw [← runs_lines h]
    exact List.mem_map_of_mem hl
  obtain ⟨b, hb, heq⟩ := List.mem_map.mp hmem
  exact ⟨b, hb, heq.symm⟩

theorem inTitle_of_line (h : Titled none es)
    (hl : l ∈ (collect ({} : LineBuilder) es).lines.toList) (hr : r ∈ l.runs.toList) :
    r.inTitle = l.inTitle := by
  obtain ⟨b, hb, hruns⟩ := exists_block_of_line h hl
  have hfirst := l.first_mem
  rw [hruns] at hr hfirst
  have hsame := h.inTitle_eq.2 b hb
  cases b with
  | nil => cases hr
  | cons x us =>
    have hall : ∀ u ∈ merge (x :: us), u.inTitle = x.inTitle := by
      refine forall_merge ?_ fun u hu ↦ hsame u hu x List.mem_cons_self
      intro u v longer hu _ hlonger
      obtain ⟨-, rfl⟩ := Run.extend?_eq_some_iff.mp hlonger
      exact hu
    exact (hall r hr).trans (hall l.first hfirst).symm

end LineBuilder

theorem opened_line (hl : l ∈ (linesAfter (tokens m)).lines.toList) :
    ∃ before t after text, tokens m = before ++ t :: after ∧ visibleText? before t = some text ∧
      l.source.start = t.offset ∧ l.clean.start = byteLength (cleanText (events before)) := by
  obtain ⟨b, hb, hruns⟩ := LineBuilder.exists_block_of_line (titled_tokens m) hl
  obtain ⟨rs, hrs⟩ := l.exists_cons
  obtain ⟨xs, ys, hblocks⟩ := List.append_of_mem hb
  have hfragments : fragmentRuns m = xs.flatten ++ (b ++ ys.flatten) := by
    rw [fragmentRuns, ← flatten_shownBlocks, hblocks, List.flatten_append, List.flatten_cons]
  obtain ⟨p, a, -, hrest⟩ := Tiling.append_iff.mp (hfragments ▸ tiling_fragmentRuns m)
  obtain ⟨q, c, htiling, -⟩ := Tiling.append_iff.mp hrest
  rw [hrs] at hruns
  cases b with
  | nil => cases hruns
  | cons r us =>
    obtain ⟨u, vs, hmerge, hsource, hclean, -⟩ := mergeAfter_eq_cons htiling
    obtain ⟨rfl, -⟩ := List.cons.inj (hruns.trans hmerge)
    have hr : r ∈ fragmentRuns m := by simp [hfragments]
    obtain ⟨before, t, after, text, hts, htext, hoffset, hplace⟩ := exists_token_of_run hr
    exact ⟨before, t, after, text, hts, htext, hsource.trans hoffset, hclean.trans hplace⟩

theorem layout_of_token (hts : tokens m = before ++ t :: after) : ∃ stop clean clean',
    Layout ⟨0, t.offset⟩ clean (placeFrom 0 (events before)) ∧
      Layout ⟨t.stop, stop⟩ clean' (placeFrom (byteLength (cleanText (events before)))
        (eventsFrom (regionAfter (before ++ [t])) after)) := by
  have hcontiguous := hts ▸ contiguous_tokens m
  have hfront := layout_placeFrom hcontiguous.of_append_left {} 0
  rw [← hcontiguous.offset_eq] at hfront
  exact ⟨_, _, _, hfront, layout_placeFrom hcontiguous.of_append.2.2 _ _⟩

/-- Two runs are in one line if no tag between them ends it. -/
theorem together_iff (hsub : [r, s].Sublist (lineRuns (linesAfter (tokens m)).lines.toList)) :
    (∃ l ∈ (linesAfter (tokens m)).lines.toList, r ∈ l.runs.toList ∧ s ∈ l.runs.toList) ↔
      ∀ before t after, tokens m = before ++ t :: after → inNoIndex before = false →
        r.source.stop ≤ t.offset → t.stop ≤ s.source.start → ¬ t.Splits := by
  constructor
  · rintro ⟨l, hl, hr, hs⟩ before t after hts houtside hlow hhigh hsplits
    have hevent := (Token.event?_eq_boundary_iff hts).mpr ⟨hsplits, houtside⟩
    have ht : t ∈ tokens m := hts ▸ List.mem_append_right before List.mem_cons_self
    have hlt := (contiguous_tokens m).offset_lt_stop ht
    obtain ⟨stop, clean, clean', hfront, hback⟩ := layout_of_token hts
    rw [regionAfter_concat] at hback
    rw [linesAfter, placeFrom_boundary hts hevent, LineBuilder.lines_collect_boundary,
      Array.toList_append, List.mem_append] at hl
    rcases hl with hl | hl
    · have hwithin := LineBuilder.run_within hfront (List.mem_flatMap_of_mem hl hs)
      have hstop := hwithin.source_stop
      have hlt' := hwithin.source_lt
      simp only at hstop
      omega
    · have hwithin := LineBuilder.run_within hback (List.mem_flatMap_of_mem hl hr)
      have hstart := hwithin.source_start
      have hlt' := hwithin.source_lt
      simp only at hstart
      omega
  · intro hnone
    by_contra hapart
    obtain ⟨as, bs, hsplit, hr, hs⟩ := exists_boundary_between (titled_tokens m) hsub hapart
    obtain ⟨before, t, after, hts, hevent, rfl, rfl⟩ := exists_token_of_boundary_event hsplit
    obtain ⟨hsplits, houtside⟩ := (Token.event?_eq_boundary_iff hts).mp hevent
    obtain ⟨stop, clean, clean', hfront, hback⟩ := layout_of_token hts
    have hstop := (LineBuilder.run_within hfront hr).source_stop
    have hstart := (LineBuilder.run_within hback hs).source_start
    exact hnone before t after hts houtside hstop hstart hsplits

/-- Lines end at the tags of block elements, of the title and of the head, and nowhere else. -/
theorem splitsAtBlocks_outline (s : Splitter) (base : Nat) (m : Text) (want : Bool) :
    (s.outline base m want).SplitsAtBlocks m where
  lines := rfl
  ne_nil l hl := by
    obtain ⟨rs, hrs⟩ := l.exists_cons
    rw [hrs]
    exact List.cons_ne_nil _ _
  inTitle l hl r hr := LineBuilder.inTitle_of_line (titled_tokens m) hl hr
  fills := by
    have h := Fills.of_tiling (tiling_lines base m s want).whole
    have hwindow : (s.outline base m want).window.length =
        byteLength (s.outline base m want).text := Nat.add_sub_cancel_left ..
    rw [List.map_map] at h
    rw [hwindow]
    exact h
  together r t hsub := together_iff hsub
  opened l hl := opened_line hl
  silent before t after hts ht := by
    rw [linesAfter, events_append, eventsFrom, ht.event?_eq_none]
    simp [eventsFrom, linesAfter]

end MarkupText
