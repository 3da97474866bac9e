import MarkupText.Proofs.Copies
import MarkupText.Proofs.Stores

namespace MarkupText

/-- What holds of the runs of a document with markup `m` and clean text `text`: they tile the
text, come from ever later markup, are literal just where markup was copied, and cannot be
joined any further. -/
structure IsTable (m text : Text) (rs : List Run) : Prop where
  tiling : Tiling ⟨0, Text.byteLength m⟩ ⟨0, Text.byteLength text⟩ rs
  nonempty : ∀ r ∈ rs, r.clean.start < r.clean.stop ∧ r.source.start < r.source.stop
  sum : (rs.map (·.clean.length)).sum = Text.byteLength text
  source : rs.Pairwise fun r s ↦ r.source.stop ≤ s.source.start
  inside : ∀ r ∈ rs, r.source.stop ≤ Text.byteLength m
  literal : ∀ r ∈ rs, r.isLiteral ↔ r.Copies m text
  copied : ∀ r ∈ rs, r.isLiteral →
    ∃ cs, Text.slice? m r.source = some cs ∧ Text.slice? text r.clean = some cs
  decoded : ∀ r ∈ rs, r.isLiteral = false → r.Decodes m text
  settled : rs.IsChain fun r s ↦ r.extend? s = none

def FillsInOrder (es : List (Event Run)) : Prop :=
  ∀ front r back last, es = front ++ .content r :: back →
    RunStore.last? (RunStore.collect ({} : RunTable) front) = some last →
      last.clean.stop = r.clean.start

variable {m : Text} {r : Run}

theorem copies_or_decodes_of_fragmentRun (hr : r ∈ fragmentRuns m) :
    r.Copies m (cleanText (events (tokens m))) ∨
      r.Decodes m (cleanText (events (tokens m))) := by
  obtain ⟨t, ht, text, htext, hsource, hclean⟩ := exists_token_of_fragmentRun hr
  rcases Token.shownText?_eq_some htext with ⟨hcopied, rfl⟩ | ⟨form, c, hkind, hc, rfl⟩
  · obtain ⟨before, after, hts⟩ := List.append_of_mem ht
    refine .inl ⟨before, [t], after, ?_, List.cons_ne_nil t [], ?_, ?_, ?_⟩
    · rw [hts, List.append_assoc, List.singleton_append]
    · exact List.forall_mem_singleton.mpr hcopied
    · rw [hsource, span_eq_rowSpan hts]
    · rw [hclean, List.flatMap_singleton]
  · exact .inr ⟨t, ht, form, c, hkind, hc, utf8Size_lt_length ht hkind hc, hsource, hclean⟩

theorem copies_or_decodes_of_merge (hr : r ∈ merge (fragmentRuns m)) :
    r.Copies m (cleanText (events (tokens m))) ∨
      r.Decodes m (cleanText (events (tokens m))) := by
  refine forall_merge ?_ (fun r hr ↦ copies_or_decodes_of_fragmentRun hr) r hr
  intro r s l hr hs hl
  obtain ⟨⟨hrlit, hslit, -⟩, -⟩ := Run.extend?_eq_some_iff.mp hl
  rcases hr with hr | hr
  · rcases hs with hs | hs
    · exact .inl (hr.extend hs hl)
    · simp [hs.isLiteral_eq_false] at hslit
  · simp [hr.isLiteral_eq_false] at hrlit

theorem exists_slice_of_merge (hr : r ∈ merge (fragmentRuns m)) :
    ∃ cs, Text.slice? (cleanText (events (tokens m))) r.clean = some cs := by
  rcases copies_or_decodes_of_merge hr with ⟨-, ts, -, -, -, -, -, hclean⟩ | hdecodes
  · exact ⟨_, hclean⟩
  · obtain ⟨-, -, -, d, -, -, -, -, hclean⟩ := hdecodes
    exact ⟨_, hclean⟩

theorem isTable_merge (m : Text) :
    IsTable m (cleanText (events (tokens m))) (merge (fragmentRuns m)) := by
  have h := (tiling_fragmentRuns m).merge
  have hlit (r : Run) (hr : r ∈ merge (fragmentRuns m)) :
      r.isLiteral ↔ r.Copies m (cleanText (events (tokens m))) := by
    refine ⟨fun hlit ↦ ?_, Run.Copies.isLiteral⟩
    rcases copies_or_decodes_of_merge hr with hr | hr
    · exact hr
    · simp [hr.isLiteral_eq_false] at hlit
  refine ⟨h, ?_, h.sum_length, h.pairwise.imp And.left, ?_, hlit, ?_, ?_,
    isChain_merge (tiling_fragmentRuns m)⟩
  · intro r hr
    exact ⟨(h.of_mem hr).clean_lt, (h.of_mem hr).source_lt⟩
  · intro r hr
    exact (h.of_mem hr).source_stop
  · intro r hr hr'
    exact ((hlit r hr).mp hr').slice?
  · intro r hr hr'
    rcases copies_or_decodes_of_merge hr with hr | hr
    · simp [hr.isLiteral] at hr'
    · exact hr

theorem foldl_length (rs : List Run) (n : Nat) :
    rs.foldl (fun n r ↦ n + r.clean.length) n = n + (rs.map (·.clean.length)).sum := by
  induction rs generalizing n with
  | nil => rfl
  | cons r rs ih => rw [List.foldl_cons, ih, List.map_cons, List.sum_cons, Nat.add_assoc]

theorem RunTable.cleanLength_eq (t : RunTable) :
    t.cleanLength = (t.runs.toList.map (·.clean.length)).sum := by
  rw [cleanLength, ← Array.foldl_toList, foldl_length, Nat.zero_add]

theorem fillsInOrder_of_layout {source clean : Span} {es : List (Event Run)}
    (h : Layout source clean es) : FillsInOrder es := by
  rintro front r back last rfl hlast
  have ht := h.tiling
  rw [contents_append, contents_content] at ht
  obtain ⟨p, a, hfront, -, -, hstart, -⟩ := Tiling.append_iff.mp ht
  obtain ⟨rs, hrs⟩ := Array.back?_eq_some_iff.mp hlast
  have hmerge := hfront.merge
  rw [← RunTable.runs_collect, hrs, Array.toList_push] at hmerge
  rw [hmerge.last_stop, hstart]

/-- The table of a document and its lines, whatever the output holds before them. -/
theorem isTable_runs (s : Splitter) (base : Nat) (m : Text) (want : Bool) :
    IsTable m (Document.ofMarkup base m).text (Document.ofMarkup base m).table.runs.toList ∧
    IsTable m (s.outline base m want).text (lineRuns (s.outline base m want).lines.toList) ∧
    (Document.ofMarkup base m).window.length =
      Text.byteLength (Document.ofMarkup base m).text ∧
    (s.outline base m want).window.length = Text.byteLength (s.outline base m want).text ∧
    (Document.ofMarkup base m).table.cleanLength = (Document.ofMarkup base m).window.length ∧
    FillsInOrder (placeFrom 0 (events (tokens m))) := by
  have htable : IsTable m (Document.ofMarkup base m).text
      (Document.ofMarkup base m).table.runs.toList := by
    rw [Document.runs_table]
    exact isTable_merge m
  refine ⟨htable, ?_, ?_, ?_, ?_, ?_⟩
  · rw [Splitter.lineRuns_outline]
    exact isTable_merge m
  · exact Nat.add_sub_cancel_left ..
  · exact Nat.add_sub_cancel_left ..
  · rw [RunTable.cleanLength_eq, htable.sum]
    exact (Nat.add_sub_cancel_left ..).symm
  · exact fillsInOrder_of_layout (layout_tokens m)

end MarkupText
