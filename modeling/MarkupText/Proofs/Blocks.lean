import MarkupText.Proofs.Origins
import MarkupText.Proofs.Outlines
import MarkupText.Proofs.Stores

namespace MarkupText

open Text

theorem RunStore.collect_append {σ : Type} [RunStore σ] (s : σ) (as bs : List (Event Run)) :
    collect s (as ++ bs) = collect (collect s as) bs := by
  induction as generalizing s with
  | nil => rfl
  | cons e as ih => cases e <;> exact ih _

namespace LineBuilder

open RunStore

def prepend (ls : Array Line) (b : LineBuilder) : LineBuilder := ⟨ls ++ b.done, b.pending⟩

variable (ls : Array Line) (b : LineBuilder)

theorem endBlock_prepend : (b.prepend ls).endBlock = b.endBlock.prepend ls := by
  obtain ⟨done, pending⟩ := b
  cases pending <;> simp [endBlock, prepend]

theorem accept_prepend (r : Run) : accept (b.prepend ls) r = (accept b r).prepend ls := by
  obtain ⟨done, pending⟩ := b
  cases pending with
  | none => rfl
  | some line =>
    simp only [accept, RunStore.extendLast?, LineBuilder.extendLast?, prepend, bind, Option.bind]
    cases line.extendLast? r with
    | some longer => rfl
    | none =>
      simp only [RunStore.push, LineBuilder.push]
      split <;> simp

theorem collect_prepend (es : List (Event Run)) :
    collect (b.prepend ls) es = (collect b es).prepend ls := by
  induction es generalizing b with
  | nil => rfl
  | cons e es ih =>
    cases e with
    | content r => rw [collect, accept_prepend, ih, collect]
    | boundary =>
      change collect (b.prepend ls).endBlock es = (collect b.endBlock es).prepend ls
      rw [endBlock_prepend, ih]

theorem endBlock_eq : b.endBlock = prepend b.lines {} := by
  obtain ⟨done, pending⟩ := b
  cases pending <;> simp [lines, endBlock, prepend]

/-- The lines on one side of a boundary know nothing of those on the other. -/
theorem lines_collect_boundary (as bs : List (Event Run)) :
    (collect ({} : LineBuilder) (as ++ .boundary :: bs)).lines =
      (collect ({} : LineBuilder) as).lines ++ (collect ({} : LineBuilder) bs).lines := by
  rw [collect_append]
  change (collect (collect ({} : LineBuilder) as).endBlock bs).lines = _
  rw [endBlock_eq, collect_prepend, lines, endBlock_prepend]
  rfl

theorem tiling_lines {source clean : Span} {es : List (Event Run)} (h : Layout source clean es) :
    Tiling source clean (lineRuns (collect ({} : LineBuilder) es).lines.toList) := by
  rw [runs_collect h]
  exact h.tiling.merge

theorem line_within {source clean : Span} {es : List (Event Run)} {l : Line}
    (h : Layout source clean es) (hl : l ∈ (collect ({} : LineBuilder) es).lines.toList) :
    clean.start ≤ l.clean.start ∧ l.clean.stop ≤ clean.stop := by
  have htiling := tiling_lines h
  have hwithin := htiling.whole.of_mem (List.mem_map_of_mem hl)
  exact ⟨hwithin.clean_start, hwithin.clean_stop⟩

end LineBuilder

variable {m text : Text} {before after : List Token} {t : Token} {l : Line} {s : Splitter}
  {base : Nat}

theorem placeFrom_boundary (hts : tokens m = before ++ t :: after)
    (ht : t.event? (regionAfter before) = some .boundary) :
    placeFrom 0 (events (tokens m)) = placeFrom 0 (events before) ++
      .boundary :: placeFrom (byteLength (cleanText (events before)))
        (eventsFrom ((regionAfter before).after t.kind) after) := by
  rw [hts, events_append, eventsFrom, ht, placeFrom_append, Nat.zero_add]
  rfl

/-- No line runs across the end of a block. -/
theorem line_of_boundary (hts : tokens m = before ++ t :: after)
    (ht : t.event? (regionAfter before) = some .boundary)
    (hl : l ∈ (s.outline base m true).lines.toList) :
    l.clean.stop ≤ byteLength (cleanText (events before)) ∨
      byteLength (cleanText (events before)) ≤ l.clean.start := by
  have hcontiguous := hts ▸ contiguous_tokens m
  have hfront := layout_placeFrom hcontiguous.of_append_left {} 0
  have hback := layout_placeFrom hcontiguous.of_append.2.2 ((regionAfter before).after t.kind)
    (byteLength (cleanText (events before)))
  have hevents := placeFrom_boundary hts ht
  have hlines : (s.outline base m true).lines =
      (RunStore.collect ({} : LineBuilder) (placeFrom 0 (events (tokens m)))).lines := rfl
  rw [hlines, hevents, LineBuilder.lines_collect_boundary, Array.toList_append,
    List.mem_append] at hl
  rcases hl with hl | hl
  · refine .inl ?_
    have hstop := (LineBuilder.line_within hfront hl).2
    rwa [Nat.zero_add] at hstop
  · exact .inr (LineBuilder.line_within hback hl).1

/-- A line has all of a run of the table or nothing. -/
theorem line_of_merge {r : Run} (hr : r ∈ merge (fragmentRuns m))
    (hl : l ∈ (s.outline base m true).lines.toList) (hlow : l.clean.start < r.clean.stop)
    (hhigh : r.clean.start < l.clean.stop) :
    l.clean.start ≤ r.clean.start ∧ r.clean.stop ≤ l.clean.stop := by
  have htiling := tiling_lines base m s true
  have hlt := Outline.clean_lt htiling hl
  rw [← Splitter.lineRuns_outline base m s true] at hr
  have hlt' := (htiling.of_mem hr).clean_lt
  obtain ⟨k, hk, hrk⟩ := List.mem_flatMap.mp hr
  obtain ⟨hstart, hstop⟩ := htiling.line_of_mem hk hrk
  have hheld : (s.outline base m true).lineHolding? (max l.clean.start r.clean.start) = some l :=
    (Outline.lineHolding?_eq_some_iff htiling).mpr ⟨hl, by omega, by omega⟩
  have hheld' : (s.outline base m true).lineHolding? (max l.clean.start r.clean.start) = some k :=
    (Outline.lineHolding?_eq_some_iff htiling).mpr ⟨hk, by omega, by omega⟩
  obtain rfl := Option.some.inj (hheld.symm.trans hheld')
  exact ⟨hstart, hstop⟩

/-- A line has all that a token shows or nothing of it. -/
theorem line_of_visible (hts : tokens m = before ++ t :: after)
    (htext : visibleText? before t = some text)
    (hl : l ∈ (s.outline base m true).lines.toList)
    (hlow : l.clean.start < byteLength (cleanText (events before)) + byteLength text)
    (hhigh : byteLength (cleanText (events before)) < l.clean.stop) :
    byteLength (cleanText (events before)) + byteLength text ≤ l.clean.stop := by
  obtain ⟨r, hr, hstart, hstop⟩ :=
    exists_mem_merge (tiling_fragmentRuns m) (mem_fragmentRuns hts htext)
  simp only at hstart hstop
  have hbounds := line_of_merge hr hl (by omega) (by omega)
  omega

/-- A line has the text of both of two tokens that are shown as they stand, or of neither. -/
theorem line_of_visible_pair {u : Token} (hts : tokens m = before ++ t :: u :: after)
    (htext : visibleText? before t = some t.text)
    (hutext : visibleText? (before ++ [t]) u = some u.text)
    (hregion : regionAfter (before ++ [t]) = regionAfter before)
    (hl : l ∈ (s.outline base m true).lines.toList)
    (hlow : l.clean.start < byteLength (cleanText (events before)) + byteLength t.text)
    (hhigh : byteLength (cleanText (events before)) < l.clean.stop) :
    byteLength (cleanText (events before)) + byteLength t.text + byteLength u.text ≤
      l.clean.stop := by
  have htitle : inTitle (before ++ [t]) = inTitle before := by
    rw [← inTitle_regionAfter, hregion, inTitle_regionAfter]
  have hevents : eventsFrom (regionAfter before) (t :: u :: after) =
      .content ⟨t.span, t.text, inTitle before⟩ :: .content ⟨u.span, u.text, inTitle before⟩ ::
        eventsFrom ((regionAfter (before ++ [t])).after u.kind) after := by
    rw [eventsFrom, event?_of_visible htext, eventsFrom, ← regionAfter_concat,
      event?_of_visible hutext, htitle]
    rfl
  have hruns := fragmentRuns_append hts
  rw [hevents] at hruns
  have htiling := tiling_fragmentRuns m
  rw [hruns] at htiling
  have hmeet : t.stop = u.offset := by
    have hcontiguous := (hts ▸ contiguous_tokens m).of_append
    exact hcontiguous.2.2.1.symm
  have hliteral (v : Token) (n : Nat) (inTitle : Bool) :
      Run.isLiteral ⟨v.span, ⟨n, n + byteLength v.text⟩, inTitle⟩ := by
    rw [Run.isLiteral_iff]
    simp only [Span.length, Token.span, Token.stop, Token.length]
    omega
  obtain ⟨r, hr, hstart, hstop⟩ := exists_mem_merge_of_extend htiling
    (Run.extend?_eq_some_iff.mpr ⟨⟨hliteral .., hliteral .., rfl, hmeet, rfl⟩, rfl⟩)
  simp only at hstart hstop
  have hbounds := line_of_merge (hruns ▸ hr) hl (by omega) (by omega)
  omega

end MarkupText
