import MarkupText.Outline
import MarkupText.Proofs.Lookups

namespace MarkupText

variable {source clean : Span} {side : Side} {offset i : Nat} {before after ls : List Line}
  {l : Line}

namespace Line

def whole (l : Line) : Run := ⟨l.source, l.clean, l.inTitle⟩

theorem first_mem (l : Line) : l.first ∈ l.runs.toList := by
  obtain ⟨rs, hrs⟩ := l.exists_cons
  rw [hrs]
  exact List.mem_cons_self

theorem last_mem (l : Line) : l.last ∈ l.runs.toList := by
  rw [l.toList_runs]
  exact List.mem_append_right l.front List.mem_cons_self

theorem first_start_le_last (h : Tiling source clean l.runs.toList) :
    l.first.source.start ≤ l.last.source.start := by
  have hlast := l.last_mem
  obtain ⟨rs, hrs⟩ := l.exists_cons
  rw [hrs] at h hlast
  rcases List.mem_cons.mp hlast with heq | hmem
  · exact Nat.le_of_eq (congrArg (·.source.start) heq.symm)
  · exact Nat.le_trans (Nat.le_of_lt h.2.1) (h.tail.of_mem hmem).source_start

theorem clean_eq (h : Tiling source clean l.runs.toList) : l.clean = clean := by
  have hstop := (l.toList_runs ▸ h).last_stop
  obtain ⟨rs, hrs⟩ := l.exists_cons
  rw [hrs] at h
  have hstart := h.2.2.1
  simp only [Line.clean, hstart, hstop]

end Line

namespace Tiling

theorem whole (h : Tiling source clean (lineRuns ls)) :
    Tiling source clean (ls.map Line.whole) := by
  induction ls generalizing source clean with
  | nil => exact h
  | cons l ls ih =>
    obtain ⟨p, a, hl, hls⟩ := append_iff.mp h
    have hfirst := hl.of_mem l.first_mem
    have hlast := hl.of_mem l.last_mem
    have hle := l.first_start_le_last hl
    have hclean := l.clean_eq hl
    refine ⟨hfirst.source_start, ?_, ?_, ?_, ?_⟩
    · exact Nat.lt_of_le_of_lt hle hlast.source_lt
    · simp only [Line.whole, hclean]
    · simp only [Line.whole, hclean]
      exact Nat.lt_of_lt_of_le (Nat.lt_of_le_of_lt hlast.clean_start hlast.clean_lt)
        hlast.clean_stop
    · simp only [Line.whole, hclean]
      exact (ih hls).source_mono hlast.source_stop

theorem line (h : Tiling source clean (lineRuns (before ++ l :: after))) :
    ∃ p q, Tiling ⟨p, q⟩ l.clean l.runs.toList ∧
      Tiling ⟨q, source.stop⟩ ⟨l.clean.stop, clean.stop⟩ (lineRuns after) := by
  rw [lineRuns_append, lineRuns_cons] at h
  obtain ⟨p, a, -, h⟩ := append_iff.mp h
  obtain ⟨q, b, hl, h⟩ := append_iff.mp h
  rw [l.clean_eq hl]
  exact ⟨p, q, hl, h⟩

theorem line_of_mem (h : Tiling source clean (lineRuns ls)) (hl : l ∈ ls) {r : Run}
    (hr : r ∈ l.runs.toList) :
    l.clean.start ≤ r.clean.start ∧ r.clean.stop ≤ l.clean.stop := by
  obtain ⟨before, after, rfl⟩ := List.append_of_mem hl
  obtain ⟨p, q, hline, -⟩ := h.line
  exact ⟨(hline.of_mem hr).clean_start, (hline.of_mem hr).clean_stop⟩

theorem stop_le_of_after (h : Tiling source clean (lineRuns (before ++ l :: after)))
    {r : Run} (hr : r ∈ lineRuns after) : l.clean.stop ≤ r.clean.start := by
  obtain ⟨p, q, -, hafter⟩ := h.line
  exact (hafter.of_mem hr).clean_start

theorem offsetIn_line (h : Tiling source clean (lineRuns ls)) (hl : l ∈ ls)
    (hoffset : l.clean.Holds side offset) :
    RunIndex.sourceOffset side l offset = offsetIn side offset (lineRuns ls) := by
  obtain ⟨before, after, rfl⟩ := List.append_of_mem hl
  obtain ⟨p, q, hline, -⟩ := h.line
  have hfirst : l.first.reaches side offset := by
    cases side with
    | left => exact decide_eq_true hoffset.1
    | right => exact decide_eq_true hoffset.1
  have hafter : ∀ r ∈ lineRuns after, r.reaches side offset = false := by
    intro r hr
    exact Run.not_reaches_of_holds hoffset (h.stop_le_of_after hr)
  rw [Line.sourceOffset_eq hline.ascending]
  obtain ⟨rs, hrs⟩ := l.exists_cons
  rw [lineRuns_append, lineRuns_cons, hrs, ← List.append_assoc] at h ⊢
  exact (offsetIn_append_cons h.ascending hfirst hafter).symm

theorem offsetIn_of_stop_le {rs : List Run} {r : Run} (h : Tiling source clean (rs ++ [r]))
    (hoffset : clean.stop ≤ offset) : offsetIn side offset (rs ++ [r]) = r.source.stop := by
  have hmem := h.of_mem (List.mem_append_right rs List.mem_cons_self)
  have hreach : r.reaches side offset := by
    have hlt := hmem.clean_lt
    have hstop := hmem.clean_stop
    cases side <;> simp only [Run.reaches, decide_eq_true_eq] <;> omega
  have hnone : ∀ b ∈ ([] : List Run), b.reaches side offset = false := by
    intro b hb
    cases hb
  have hlast := offsetIn_append_cons (by simpa using h.ascending) hreach hnone
  rw [List.append_nil] at hlast
  rw [hlast]
  exact Run.sourceAt_of_stop_le (Nat.le_trans hmem.clean_stop hoffset)

theorem offsetIn_last_line {side' : Side} (h : Tiling source clean (lineRuns (ls ++ [l])))
    (hoffset : clean.stop ≤ offset) :
    RunIndex.sourceOffset side l offset = offsetIn side' offset (lineRuns (ls ++ [l])) := by
  obtain ⟨p, q, hline, -⟩ := h.line
  have hl : l.whole ∈ (ls ++ [l]).map Line.whole :=
    List.mem_map_of_mem (List.mem_append_right ls List.mem_cons_self)
  have hstop := (h.whole.of_mem hl).clean_stop
  rw [Line.sourceOffset_eq hline.ascending]
  simp only [lineRuns_append, lineRuns_cons, lineRuns_nil, List.append_nil, l.toList_runs,
    ← List.append_assoc] at h hline ⊢
  rw [h.offsetIn_of_stop_le hoffset, hline.offsetIn_of_stop_le (Nat.le_trans hstop hoffset)]

end Tiling

namespace Outline

variable {o : Outline}

theorem pairwise_lines (h : Tiling source clean (lineRuns o.lines.toList)) :
    o.lines.toList.Pairwise fun k l ↦ k.clean.stop ≤ l.clean.start :=
  List.pairwise_map.mp (h.whole.pairwise.imp And.right)

theorem clean_lt (h : Tiling source clean (lineRuns o.lines.toList))
    (hl : l ∈ o.lines.toList) : l.clean.start < l.clean.stop :=
  (h.whole.of_mem (List.mem_map_of_mem hl)).clean_lt

theorem clean_stop_le (h : Tiling source clean (lineRuns o.lines.toList))
    (hl : l ∈ o.lines.toList) : l.clean.stop ≤ clean.stop :=
  (h.whole.of_mem (List.mem_map_of_mem hl)).clean_stop

theorem le_start_of_lt {j : Nat} {k l : Line} (h : Tiling source clean (lineRuns o.lines.toList))
    (hk : o.lines[i]? = some k) (hl : o.lines[j]? = some l) (hij : i < j) :
    k.clean.stop ≤ l.clean.start := by
  obtain ⟨hi, rfl⟩ := Array.getElem?_eq_some_iff.mp hk
  obtain ⟨hj, rfl⟩ := Array.getElem?_eq_some_iff.mp hl
  exact List.pairwise_iff_getElem.mp (pairwise_lines h) i j hi hj hij

theorem lt_countLeading_start (h : Tiling source clean (lineRuns o.lines.toList))
    (offset i : Nat) :
    i < countLeading (·.clean.start ≤ offset) o.lines ↔
      o.lines[i]?.any (·.clean.start ≤ offset) := by
  refine lt_countLeading_iff (Leads.of_pairwise ?_) i
  refine (pairwise_lines h).imp_of_mem fun hk hl hkl hstart ↦ ?_
  have hlt := clean_lt h hk
  simp only [decide_eq_true_eq] at hstart ⊢
  omega

theorem lt_countLeading_stop (h : Tiling source clean (lineRuns o.lines.toList))
    (offset i : Nat) :
    i < countLeading (·.clean.stop ≤ offset) o.lines ↔
      o.lines[i]?.any (·.clean.stop ≤ offset) := by
  refine lt_countLeading_iff (Leads.of_pairwise ?_) i
  refine (pairwise_lines h).imp_of_mem fun hk hl hkl hstop ↦ ?_
  have hlt := clean_lt h hl
  simp only [decide_eq_true_eq] at hstop ⊢
  omega

theorem lineIndex?_eq_some_iff (h : Tiling source clean (lineRuns o.lines.toList)) :
    o.lineIndex? offset = some i ↔
      ∃ l, o.lines[i]? = some l ∧ l.clean.start ≤ offset ∧ offset < l.clean.stop := by
  have hcount := lt_countLeading_start h offset
  unfold lineIndex?
  constructor
  · intro hi
    split at hi
    · cases hi
    · rename_i k hk
      split at hi
      · rename_i hany
        cases hi
        obtain ⟨l, hl, hstop⟩ := (Option.any_eq_true _ _).mp hany
        have hstart := (hcount i).mp (by omega)
        rw [hl, Option.any_some, decide_eq_true_eq] at hstart
        exact ⟨l, hl, hstart, by simpa using hstop⟩
      · cases hi
  · rintro ⟨l, hl, hstart, hstop⟩
    have hlow := (hcount i).mpr (by simpa [hl] using hstart)
    have hhigh : ¬ i + 1 < countLeading (·.clean.start ≤ offset) o.lines := by
      intro hlt
      obtain ⟨k, hk, hkstart⟩ := (Option.any_eq_true _ _).mp ((hcount (i + 1)).mp hlt)
      have hkl := le_start_of_lt h hl hk (Nat.lt_succ_self i)
      rw [decide_eq_true_eq] at hkstart
      omega
    rw [show countLeading (·.clean.start ≤ offset) o.lines = i + 1 by omega]
    simp [hl, hstop]

theorem lineHolding?_eq_some_iff (h : Tiling source clean (lineRuns o.lines.toList)) :
    o.lineHolding? offset = some l ↔
      l ∈ o.lines.toList ∧ l.clean.start ≤ offset ∧ offset < l.clean.stop := by
  unfold lineHolding?
  rw [Option.bind_eq_bind, Option.bind_eq_some_iff]
  constructor
  · rintro ⟨i, hi, hl⟩
    obtain ⟨k, hk, hoffset⟩ := (lineIndex?_eq_some_iff h).mp hi
    obtain rfl := Option.some.inj (hl.symm.trans hk)
    exact ⟨Array.mem_toList_iff.mpr (Array.mem_of_getElem? hl), hoffset⟩
  · rintro ⟨hl, hoffset⟩
    obtain ⟨i, hi⟩ := List.mem_iff_getElem?.mp hl
    rw [Array.getElem?_toList] at hi
    exact ⟨i, (lineIndex?_eq_some_iff h).mpr ⟨l, hi, hoffset⟩, hi⟩

theorem exists_lineHolding (h : Tiling source clean (lineRuns o.lines.toList))
    (hlow : clean.start ≤ offset) (hhigh : offset < clean.stop) :
    ∃ l, o.lineHolding? offset = some l := by
  obtain ⟨r, hr, hoffset⟩ := h.whole.exists_mem hlow hhigh
  obtain ⟨l, hl, rfl⟩ := List.mem_map.mp hr
  exact ⟨l, (lineHolding?_eq_some_iff h).mpr ⟨hl, hoffset⟩⟩

theorem lineHolding?_eq_none (h : Tiling source clean (lineRuns o.lines.toList))
    (hoffset : clean.stop ≤ offset) : o.lineHolding? offset = none := by
  refine Option.eq_none_iff_forall_ne_some.mpr ?_
  intro l hl
  obtain ⟨hmem, -, hlt⟩ := (lineHolding?_eq_some_iff h).mp hl
  have hstop := clean_stop_le h hmem
  omega

theorem getElem?_countLeading_stop (h : Tiling source clean (lineRuns o.lines.toList))
    (hoffset : clean.stop ≤ offset) :
    o.lines[countLeading (·.clean.stop ≤ offset) o.lines]? = none := by
  refine Option.eq_none_iff_forall_ne_some.mpr ?_
  intro l hl
  have hstop := clean_stop_le h (Array.mem_toList_iff.mpr (Array.mem_of_getElem? hl))
  refine Nat.lt_irrefl _ ((lt_countLeading_stop h offset _).mpr ?_)
  simp only [hl, Option.any_some, decide_eq_true_eq]
  omega

theorem sourceOffset_of_stop_le (h : Tiling source clean (lineRuns o.lines.toList))
    (hoffset : clean.stop ≤ offset) :
    o.sourceOffset offset = offsetIn .left offset (lineRuns o.lines.toList) := by
  simp only [sourceOffset, lineHolding?_eq_none h hoffset, getElem?_countLeading_stop h hoffset]
  cases hback : o.lines.back? with
  | none =>
    have hempty : o.lines = #[] := by simpa using hback
    simp [hempty, offsetIn]
  | some l =>
    obtain ⟨ls, hls⟩ := Array.back?_eq_some_iff.mp hback
    rw [hls, Array.toList_push] at h ⊢
    exact h.offsetIn_last_line hoffset

/-- Looking an offset up in its line is looking it up among all runs. -/
theorem sourceOffset_eq (h : Tiling source clean (lineRuns o.lines.toList))
    (hoffset : clean.start ≤ offset) :
    o.sourceOffset offset = offsetIn .left offset (lineRuns o.lines.toList) := by
  rcases Nat.lt_or_ge offset clean.stop with hlt | hge
  · obtain ⟨l, hl⟩ := exists_lineHolding h hoffset hlt
    obtain ⟨hmem, hstart, hstop⟩ := (lineHolding?_eq_some_iff h).mp hl
    simp only [sourceOffset, hl]
    exact h.offsetIn_line hmem ⟨hstart, hstop⟩
  · exact sourceOffset_of_stop_le h hge

end Outline

end MarkupText
