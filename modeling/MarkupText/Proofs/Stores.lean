import MarkupText.Outline
import MarkupText.Proofs.Placement

namespace MarkupText

open RunStore

variable {clean : Span}

namespace RunTable

theorem collect_push (rs : Array Run) (last : Run) (es : List (Event Run)) :
    (collect (⟨rs.push last⟩ : RunTable) es).runs.toList =
      rs.toList ++ mergeAfter last (contents es) := by
  induction es generalizing rs last with
  | nil => simp [collect, mergeAfter]
  | cons e es ih =>
    cases e with
    | boundary => exact ih rs last
    | content r =>
      rw [collect, contents_content, mergeAfter]
      simp only [accept, RunStore.extendLast?, RunTable.extendLast?, Array.back?_push,
        Array.pop_push, bind, Option.bind]
      cases last.extend? r with
      | some longer => exact ih rs longer
      | none =>
        have h := ih (rs.push last) r
        rw [Array.toList_push, List.append_assoc] at h
        exact h

/-- The table of a document joins its runs where it can. -/
theorem runs_collect (es : List (Event Run)) :
    (collect ({} : RunTable) es).runs.toList = merge (contents es) := by
  induction es with
  | nil => rfl
  | cons e es ih =>
    cases e with
    | boundary => exact ih
    | content r => exact collect_push #[] r es

end RunTable

theorem mergeAfter_of_layout {r : Run} {es : List (Event Run)} {p stop : Nat}
    (h : Layout ⟨p, stop⟩ clean es) (hp : r.source.stop < p) :
    mergeAfter r (contents es) = r :: merge (contents es) := by
  have ht := h.tiling
  cases hes : contents es with
  | nil => rfl
  | cons s us =>
    rw [hes] at ht
    have hlt : r.source.stop < s.source.start := Nat.lt_of_lt_of_le hp ht.1
    simp only [mergeAfter, Run.extend?_eq_none_of_lt hlt, merge]

namespace LineBuilder

theorem accept_of_extend (done : Array Line) {line : Line} {r longer : Run}
    (h : line.last.extend? r = some longer) :
    ∃ line', accept (⟨done, some line⟩ : LineBuilder) r = ⟨done, some line'⟩ ∧
      line'.last = longer ∧ line'.front = line.front := by
  obtain ⟨line', hline', hlast, hfront⟩ := Line.extendLast?_eq_some h
  refine ⟨line', ?_, hlast, hfront⟩
  simp [accept, RunStore.extendLast?, LineBuilder.extendLast?, hline']

theorem accept_of_not_extend (done : Array Line) {line : Line} {r : Run}
    (h : line.last.extend? r = none) :
    accept (⟨done, some line⟩ : LineBuilder) r =
      if line.inTitle = r.inTitle then ⟨done, some (line.push r)⟩
      else ⟨done.push line, some (.single r)⟩ := by
  simp [accept, RunStore.extendLast?, LineBuilder.extendLast?, Line.extendLast?_eq_none h,
    RunStore.push, LineBuilder.push]

/-- What the lines hold after the run `r` is what they would hold if they were one. -/
theorem accept_pending (done : Array Line) (line : Line) (r : Run) :
    ∃ done' line', accept (⟨done, some line⟩ : LineBuilder) r = ⟨done', some line'⟩ ∧
      line'.last.source.stop = r.source.stop ∧
      ∀ us, lineRuns done'.toList ++ line'.front ++ mergeAfter line'.last us =
        lineRuns done.toList ++ line.front ++ mergeAfter line.last (r :: us) := by
  cases hl : line.last.extend? r with
  | some longer =>
    obtain ⟨line', haccept, hlast, hfront⟩ := accept_of_extend done hl
    obtain ⟨-, hlonger⟩ := Run.extend?_eq_some_iff.mp hl
    refine ⟨done, line', haccept, ?_, ?_⟩
    · rw [hlast, hlonger]
    · intro us
      rw [hlast, hfront, mergeAfter, hl]
  | none =>
    have haccept := accept_of_not_extend done hl
    by_cases htitle : line.inTitle = r.inTitle
    · have hlast : (line.push r).last = r := Line.last_of_push rfl
      have hfront : (line.push r).front = line.runs.toList := Line.front_of_push rfl
      rw [if_pos htitle] at haccept
      refine ⟨done, line.push r, haccept, by rw [hlast], ?_⟩
      intro us
      rw [hlast, hfront, mergeAfter, hl, line.toList_runs]
      simp only [List.append_assoc, List.cons_append, List.nil_append]
    · rw [if_neg htitle] at haccept
      refine ⟨done.push line, .single r, haccept, rfl, ?_⟩
      intro us
      rw [Line.last_single, Line.front_single, mergeAfter, hl]
      simp [line.toList_runs]

/-- Lines join no fewer runs than a table, as a line ends only where markup is skipped. -/
theorem runs_collect_from (es : List (Event Run)) (done : Array Line) {stop : Nat} :
    (∀ p, Layout ⟨p, stop⟩ clean es →
      lineRuns (collect (⟨done, none⟩ : LineBuilder) es).lines.toList =
        lineRuns done.toList ++ merge (contents es)) ∧
    (∀ line : Line, Layout ⟨line.last.source.stop, stop⟩ clean es →
      lineRuns (collect (⟨done, some line⟩ : LineBuilder) es).lines.toList =
        lineRuns done.toList ++ line.front ++ mergeAfter line.last (contents es)) := by
  induction es generalizing done clean with
  | nil =>
    refine ⟨fun _ _ ↦ ?_, fun line _ ↦ ?_⟩
    · simp [collect, lines, endBlock, merge]
    · simp [collect, lines, endBlock, mergeAfter, line.toList_runs]
  | cons e es ih =>
    cases e with
    | boundary =>
      refine ⟨fun p h ↦ (ih done).1 (p + 1) h, fun line h ↦ ?_⟩
      have htail : Layout ⟨line.last.source.stop + 1, stop⟩ clean es := h
      have hih := (ih (done.push line)).1 _ htail
      change lineRuns (collect (⟨done.push line, none⟩ : LineBuilder) es).lines.toList = _
      rw [hih, contents_boundary, mergeAfter_of_layout htail (Nat.lt_succ_self _)]
      simp [line.toList_runs]
    | content r =>
      refine ⟨fun p h ↦ ?_, fun line h ↦ ?_⟩
      · have hih := (ih done).2 (.single r) h.2.2.2.2
        change lineRuns (collect (⟨done, some (.single r)⟩ : LineBuilder) es).lines.toList = _
        rw [hih, Line.last_single, Line.front_single, List.append_nil, contents_content, merge]
      · obtain ⟨done', line', haccept, hstop, hruns⟩ := accept_pending done line r
        have hih := (ih done').2 line' (by rw [hstop]; exact h.2.2.2.2)
        rw [collect, haccept, hih, contents_content, hruns]

theorem runs_collect {source : Span} {es : List (Event Run)} (h : Layout source clean es) :
    lineRuns (collect ({} : LineBuilder) es).lines.toList = merge (contents es) :=
  (runs_collect_from es #[]).1 _ h

end LineBuilder

variable (base : Nat) (m : Text)

theorem Document.runs_table :
    (Document.ofMarkup base m).table.runs.toList = merge (fragmentRuns m) :=
  RunTable.runs_collect (placeFrom 0 (events (tokens m)))

theorem Splitter.lineRuns_outline (s : Splitter) (want : Bool) :
    lineRuns (s.outline base m want).lines.toList = merge (fragmentRuns m) :=
  LineBuilder.runs_collect (layout_tokens m)

theorem tiling_table : Tiling ⟨0, Text.byteLength m⟩
    ⟨0, Text.byteLength (Document.ofMarkup base m).text⟩
    (Document.ofMarkup base m).table.runs.toList := by
  rw [Document.runs_table]
  exact (tiling_fragmentRuns m).merge

theorem tiling_lines (s : Splitter) (want : Bool) : Tiling ⟨0, Text.byteLength m⟩
    ⟨0, Text.byteLength (s.outline base m want).text⟩
    (lineRuns (s.outline base m want).lines.toList) := by
  rw [Splitter.lineRuns_outline]
  exact (tiling_fragmentRuns m).merge

end MarkupText
