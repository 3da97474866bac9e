import MarkupText.Proofs.Stores
import MarkupText.Proofs.Visibility

namespace MarkupText

variable {source clean : Span} {r s l : Run} {rs us : List Run} {m : Text} {k : Nat}

namespace Run

structure Contains (l r : Run) : Prop where
  source_start : l.source.start ≤ r.source.start
  source_stop : r.source.stop ≤ l.source.stop
  clean_start : l.clean.start ≤ r.clean.start
  clean_stop : r.clean.stop ≤ l.clean.stop
  inTitle : l.inTitle = r.inTitle

theorem Contains.refl (r : Run) : r.Contains r :=
  ⟨Nat.le_refl _, Nat.le_refl _, Nat.le_refl _, Nat.le_refl _, rfl⟩

theorem Contains.trans (h : l.Contains r) (h' : r.Contains s) : l.Contains s :=
  ⟨Nat.le_trans h.source_start h'.source_start, Nat.le_trans h'.source_stop h.source_stop,
    Nat.le_trans h.clean_start h'.clean_start, Nat.le_trans h'.clean_stop h.clean_stop,
    h.inTitle.trans h'.inTitle⟩

theorem contains_extend (h : Tiling source clean (r :: s :: us)) (hl : r.extend? s = some l) :
    l.Contains r ∧ l.Contains s := by
  obtain ⟨⟨-, -, htitle, hsource, hclean⟩, rfl⟩ := extend?_eq_some_iff.mp hl
  obtain ⟨-, hlt, -, hlt', -, hslt, -, hslt', -⟩ := h
  refine ⟨⟨?_, ?_, ?_, ?_, rfl⟩, ⟨?_, ?_, ?_, ?_, htitle⟩⟩ <;> simp only <;> omega

end Run

theorem exists_mergeAfter_contains (h : Tiling source clean (r :: us)) (hs : s ∈ r :: us) :
    ∃ l ∈ mergeAfter r us, l.Contains s := by
  induction us generalizing r s source clean with
  | nil => exact ⟨r, List.mem_cons_self, List.mem_singleton.mp hs ▸ .refl r⟩
  | cons u us ih =>
    unfold mergeAfter
    split
    · rename_i longer hl
      have hcontains := Run.contains_extend h hl
      obtain ⟨l, hl', hlonger⟩ := ih (h.extend hl) List.mem_cons_self
      rcases List.mem_cons.mp hs with rfl | hs
      · exact ⟨l, hl', hlonger.trans hcontains.1⟩
      · rcases List.mem_cons.mp hs with rfl | hs
        · exact ⟨l, hl', hlonger.trans hcontains.2⟩
        · exact ih (h.extend hl) (List.mem_cons_of_mem longer hs)
    · rcases List.mem_cons.mp hs with rfl | hs
      · exact ⟨s, List.mem_cons_self, .refl s⟩
      · obtain ⟨l, hl, hcontains⟩ := ih h.tail hs
        exact ⟨l, List.mem_cons_of_mem r hl, hcontains⟩

/-- Nothing that a run holds is lost when runs are joined. -/
theorem exists_merge_contains (h : Tiling source clean rs) (hs : s ∈ rs) :
    ∃ l ∈ merge rs, l.Contains s := by
  cases rs with
  | nil => cases hs
  | cons r us => exact exists_mergeAfter_contains h hs

/-- Nothing is added to the markup of runs when they are joined. -/
theorem exists_mem_of_merge (hl : l ∈ merge rs) (hlow : l.source.start ≤ k)
    (hhigh : k < l.source.stop) :
    ∃ r ∈ rs, r.source.start ≤ k ∧ k < r.source.stop ∧ l.inTitle = r.inTitle := by
  refine forall_merge (P := fun l ↦ l.source.start ≤ k → k < l.source.stop →
    ∃ r ∈ rs, r.source.start ≤ k ∧ k < r.source.stop ∧ l.inTitle = r.inTitle)
    ?_ ?_ l hl hlow hhigh
  · intro r s l hr hs hl hlow hhigh
    obtain ⟨⟨-, -, htitle, hmeet, -⟩, rfl⟩ := Run.extend?_eq_some_iff.mp hl
    rcases Nat.lt_or_ge k r.source.stop with hlt | hge
    · exact hr hlow hlt
    · obtain ⟨u, hu, hstart, hstop, heq⟩ := hs (hmeet ▸ hge) hhigh
      exact ⟨u, hu, hstart, hstop, htitle.trans heq⟩
  · intro r hr hlow hhigh
    exact ⟨r, hr, hlow, hhigh, rfl⟩

theorem exists_fragmentRun_of_mem {es : List (Event Fragment)} {f : Fragment} (offset : Nat)
    (hf : f ∈ contents es) : ∃ r ∈ contents (placeFrom offset es),
      r.source = f.source ∧ r.inTitle = f.inTitle := by
  induction es generalizing offset with
  | nil => cases hf
  | cons e es ih =>
    cases e with
    | boundary => exact ih offset hf
    | content f' =>
      rcases List.mem_cons.mp hf with rfl | hf
      · exact ⟨_, List.mem_cons_self, rfl, rfl⟩
      · obtain ⟨r, hr, h⟩ := ih _ hf
        exact ⟨r, List.mem_cons_of_mem _ hr, h⟩

variable {before after before' after' : List Token} {t u : Token} {text : Text}

theorem mem_contents_events_iff {f : Fragment} : f ∈ contents (events (tokens m)) ↔
    ∃ before t after text, tokens m = before ++ t :: after ∧
      visibleText? before t = some text ∧ f = ⟨t.span, text, inTitle before⟩ := by
  rw [events, show contents (eventsFrom {} (tokens m)) = _ from contents_eventsFrom [] (tokens m),
    List.mem_filterMap]
  constructor
  · rintro ⟨⟨before, t⟩, hp, hf⟩
    obtain ⟨front, after, hts, hbefore⟩ := mem_withPast_iff.mp hp
    obtain ⟨text, htext, rfl⟩ := Option.map_eq_some_iff.mp hf
    obtain rfl : before = front := hbefore
    exact ⟨before, t, after, text, hts, htext, rfl⟩
  · rintro ⟨before, t, after, text, hts, htext, rfl⟩
    exact ⟨(before, t), mem_withPast_iff.mpr ⟨before, after, hts, rfl⟩, by simp [htext]⟩

theorem exists_visible_of_fragmentRun (hr : r ∈ fragmentRuns m) :
    ∃ before t after text, tokens m = before ++ t :: after ∧
      visibleText? before t = some text ∧ r.source = t.span ∧ r.inTitle = inTitle before := by
  obtain ⟨f, hf, hsource, htitle, -⟩ := exists_fragment_of_mem [] hr
  obtain ⟨before, t, after, text, hts, htext, rfl⟩ := mem_contents_events_iff.mp hf
  exact ⟨before, t, after, text, hts, htext, hsource, htitle⟩

theorem exists_fragmentRun_of_visible (hts : tokens m = before ++ t :: after)
    (htext : visibleText? before t = some text) :
    ∃ r ∈ fragmentRuns m, r.source = t.span ∧ r.inTitle = inTitle before :=
  exists_fragmentRun_of_mem 0
    (mem_contents_events_iff.mpr ⟨before, t, after, text, hts, htext, rfl⟩)

/-- A byte of markup belongs to one token. -/
theorem Contiguous.eq_of_byte {start : Nat} (h : Contiguous start (before ++ t :: after))
    (heq : before ++ t :: after = before' ++ u :: after') (hlow : t.offset ≤ k)
    (hhigh : k < t.stop) (hlow' : u.offset ≤ k) (hhigh' : k < u.stop) :
    before = before' ∧ t = u := by
  have ht := h.offset_eq
  have hu := (heq ▸ h).offset_eq
  rcases List.append_eq_append_iff.mp heq with ⟨xs, rfl, hxs⟩ | ⟨xs, rfl, hxs⟩
  · cases xs with
    | nil => exact ⟨(List.append_nil _).symm, (List.cons.inj hxs).1⟩
    | cons x xs =>
      obtain ⟨rfl, -⟩ := List.cons.inj hxs
      simp only [List.flatMap_append, List.flatMap_cons, Text.byteLength_append] at hu
      simp only [Token.stop, Token.length] at hhigh
      omega
  · cases xs with
    | nil => exact ⟨List.append_nil _, (List.cons.inj hxs).1.symm⟩
    | cons x xs =>
      obtain ⟨rfl, -⟩ := List.cons.inj hxs
      simp only [List.flatMap_append, List.flatMap_cons, Text.byteLength_append] at ht
      simp only [Token.stop, Token.length] at hhigh'
      omega

/-- The text `text` and the runs `rs` hold the visible tokens of the markup `m` and no others. -/
structure ShowsVisible (m text : Text) (rs : List Run) : Prop where
  text : text = ((withPast [] (tokens m)).filterMap fun p ↦ visibleText? p.1 p.2).flatten
  bytes (k : Nat) : (∃ r ∈ rs, r.source.start ≤ k ∧ k < r.source.stop) ↔
    ∃ before t after, tokens m = before ++ t :: after ∧ (visibleText? before t).isSome ∧
      t.offset ≤ k ∧ k < t.stop
  once {before : List Token} {t : Token} {after : List Token} :
    tokens m = before ++ t :: after → (visibleText? before t).isSome →
      ∃! r, r ∈ rs ∧ r.source.start ≤ t.offset ∧ t.stop ≤ r.source.stop
  hidden {before : List Token} {t : Token} {after : List Token} :
    tokens m = before ++ t :: after → visibleText? before t = none →
      ∀ r ∈ rs, r.source.stop ≤ t.offset ∨ t.stop ≤ r.source.start
  inTitle : ∀ r ∈ rs, ∀ {before : List Token} {t : Token} {after : List Token},
    tokens m = before ++ t :: after → r.source.start ≤ t.offset → t.stop ≤ r.source.stop →
      r.inTitle = inTitle before

theorem exists_visible_of_merge (hl : l ∈ merge (fragmentRuns m)) (hlow : l.source.start ≤ k)
    (hhigh : k < l.source.stop) : ∃ before t after text, tokens m = before ++ t :: after ∧
      visibleText? before t = some text ∧ t.offset ≤ k ∧ k < t.stop ∧
      l.inTitle = inTitle before := by
  obtain ⟨r, hr, hrlow, hrhigh, htitle⟩ := exists_mem_of_merge hl hlow hhigh
  obtain ⟨before, t, after, text, hts, htext, hsource, htitle'⟩ := exists_visible_of_fragmentRun hr
  rw [hsource] at hrlow hrhigh
  exact ⟨before, t, after, text, hts, htext, hrlow, hrhigh, htitle.trans htitle'⟩

theorem exists_merge_of_visible (hts : tokens m = before ++ t :: after)
    (htext : visibleText? before t = some text) :
    ∃ l ∈ merge (fragmentRuns m), l.source.start ≤ t.offset ∧ t.stop ≤ l.source.stop := by
  obtain ⟨r, hr, hsource, -⟩ := exists_fragmentRun_of_visible hts htext
  obtain ⟨l, hl, hcontains⟩ := exists_merge_contains (tiling_fragmentRuns m) hr
  have hstart := hcontains.source_start
  have hstop := hcontains.source_stop
  rw [hsource] at hstart hstop
  exact ⟨l, hl, hstart, hstop⟩

/-- A byte of markup belongs to one run. -/
theorem Tiling.eq_of_byte (h : Tiling source clean rs) (hr : r ∈ rs) (hs : s ∈ rs)
    (hlow : r.source.start ≤ k) (hhigh : k < r.source.stop) (hlow' : s.source.start ≤ k)
    (hhigh' : k < s.source.stop) : r = s := by
  obtain ⟨as, bs, rfl⟩ := List.append_of_mem hr
  obtain ⟨-, hafter, hbefore⟩ := List.pairwise_append.mp h.pairwise
  rcases List.mem_append.mp hs with hs | hs
  · have hle := (hbefore s hs r List.mem_cons_self).1
    omega
  · rcases List.mem_cons.mp hs with rfl | hs
    · rfl
    · have hle := ((List.pairwise_cons.mp hafter).1 s hs).1
      omega

theorem showsVisible_merge (m : Text) :
    ShowsVisible m (cleanText (events (tokens m))) (merge (fragmentRuns m)) := by
  have htiling := (tiling_fragmentRuns m).merge
  have hcontiguous (before : List Token) (t : Token) (after : List Token)
      (hts : tokens m = before ++ t :: after) : t.offset < t.stop :=
    (contiguous_tokens m).offset_lt_stop (hts ▸ List.mem_append_right before List.mem_cons_self)
  refine ⟨?_, ?_, ?_, ?_, ?_⟩
  · exact cleanText_eventsFrom [] (tokens m)
  · intro k
    constructor
    · rintro ⟨l, hl, hlow, hhigh⟩
      obtain ⟨before, t, after, text, hts, htext, hlow, hhigh, -⟩ :=
        exists_visible_of_merge hl hlow hhigh
      exact ⟨before, t, after, hts, Option.isSome_of_eq_some htext, hlow, hhigh⟩
    · rintro ⟨before, t, after, hts, hvisible, hlow, hhigh⟩
      obtain ⟨text, htext⟩ := Option.isSome_iff_exists.mp hvisible
      obtain ⟨l, hl, hstart, hstop⟩ := exists_merge_of_visible hts htext
      exact ⟨l, hl, Nat.le_trans hstart hlow, Nat.lt_of_lt_of_le hhigh hstop⟩
  · intro before t after hts hvisible
    obtain ⟨text, htext⟩ := Option.isSome_iff_exists.mp hvisible
    obtain ⟨l, hl, hstart, hstop⟩ := exists_merge_of_visible hts htext
    have hlt := hcontiguous before t after hts
    refine ⟨l, ⟨hl, hstart, hstop⟩, ?_⟩
    rintro r ⟨hr, hstart', hstop'⟩
    exact htiling.eq_of_byte hr hl hstart' (Nat.lt_of_lt_of_le hlt hstop') hstart
      (Nat.lt_of_lt_of_le hlt hstop)
  · intro before t after hts hnone l hl
    by_contra hmeet
    have hlt := hcontiguous before t after hts
    have hlt' := (htiling.of_mem hl).source_lt
    obtain ⟨before', u, after', text, hts', htext, hlow, hhigh, -⟩ :=
      exists_visible_of_merge (k := max l.source.start t.offset) hl (by omega) (by omega)
    obtain ⟨rfl, rfl⟩ := (hts ▸ contiguous_tokens m).eq_of_byte (hts.symm.trans hts')
      (by omega) (by omega) hlow hhigh
    rw [hnone] at htext
    cases htext
  · intro l hl before t after hts hstart hstop
    have hlt := hcontiguous before t after hts
    obtain ⟨before', u, after', text, hts', -, hlow, hhigh, htitle⟩ :=
      exists_visible_of_merge hl hstart (Nat.lt_of_lt_of_le hlt hstop)
    obtain ⟨rfl, rfl⟩ := (hts ▸ contiguous_tokens m).eq_of_byte (hts.symm.trans hts')
      (Nat.le_refl _) hlt hlow hhigh
    exact htitle

/-- The table of a document and its lines show just the visible tokens. -/
theorem showsVisible_runs (s : Splitter) (base : Nat) (m : Text) (want : Bool) :
    ShowsVisible m (Document.ofMarkup base m).text (Document.ofMarkup base m).table.runs.toList ∧
    ShowsVisible m (s.outline base m want).text
      (lineRuns (s.outline base m want).lines.toList) := by
  rw [Document.runs_table, Splitter.lineRuns_outline]
  exact ⟨showsVisible_merge m, showsVisible_merge m⟩

end MarkupText
