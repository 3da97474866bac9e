import Mathlib.Data.List.Forall2
import MarkupText.Proofs.LineBlocks
import MarkupText.Proofs.Outlines

namespace MarkupText

open RunStore

def tableApart (m : Text) : RunTable :=
  collectApart ({} : RunTable) (placeFrom 0 (events (tokens m)))

def linesApart (m : Text) : Array Line :=
  (collectApart ({} : LineBuilder) (placeFrom 0 (events (tokens m)))).lines

def SameLookups {σ τ : Type} [RunIndex σ] [RunIndex τ] (x : σ) (y : τ) : Prop :=
  ∀ side offset, RunIndex.sourceOffset side x offset = RunIndex.sourceOffset side y offset

variable {source clean : Span} {ls : List Line} {l u : Line}

theorem runs_tableApart (m : Text) : (tableApart m).runs.toList = fragmentRuns m :=
  RunTable.runs_collectApart {} (placeFrom 0 (events (tokens m)))

theorem runs_lines_outline (s : Splitter) (base : Nat) (m : Text) (want : Bool) :
    (s.outline base m want).lines.toList.map (·.runs.toList) =
      (linesApart m).toList.map (merge ·.runs.toList) := by
  have hlines := LineBuilder.runs_lines (titled_tokens m)
  have hapart := LineBuilder.runs_linesApart (titled_tokens m)
  calc (s.outline base m want).lines.toList.map (·.runs.toList)
      = (shownBlocks (placeFrom 0 (events (tokens m)))).map merge := hlines
    _ = ((linesApart m).toList.map (·.runs.toList)).map merge := by rw [← hapart, linesApart]
    _ = (linesApart m).toList.map (merge ·.runs.toList) := List.map_map

theorem lineRuns_linesApart (m : Text) : lineRuns (linesApart m).toList = fragmentRuns m := by
  have hapart := LineBuilder.runs_linesApart (titled_tokens m)
  rw [lineRuns, List.flatMap_def, linesApart, hapart, flatten_shownBlocks, fragmentRuns]

theorem Tiling.exists_line (h : Tiling source clean (lineRuns ls)) (hl : l ∈ ls) :
    ∃ p q, Tiling ⟨p, q⟩ l.clean l.runs.toList := by
  obtain ⟨before, after, rfl⟩ := List.append_of_mem hl
  obtain ⟨p, q, hline, -⟩ := h.line
  exact ⟨p, q, hline⟩

namespace Line

theorem clean_of_merge (hu : Tiling source u.clean u.runs.toList)
    (hl : l.runs.toList = merge u.runs.toList) : l.clean = u.clean :=
  l.clean_eq (hl ▸ hu.merge)

theorem sameLookups_of_merge (hu : Tiling source u.clean u.runs.toList)
    (hl : l.runs.toList = merge u.runs.toList) : SameLookups l u := by
  intro side offset
  have hascending : Ascending l.runs.toList := hl ▸ hu.merge.ascending
  rw [Line.sourceOffset_eq hascending, Line.sourceOffset_eq hu.ascending, hl, offsetIn_merge hu]

end Line

/-- That runs are joined where they continue each other cannot be seen in any lookup, be it by the
table, by a line or by all lines. -/
theorem sameLookups_apart (s : Splitter) (base : Nat) (m : Text) (want : Bool) :
    ((tableApart m).runs.toList = fragmentRuns m ∧
      SameLookups (Document.ofMarkup base m).table (tableApart m)) ∧
    (lineRuns (linesApart m).toList = fragmentRuns m ∧
      List.Forall₂ (fun l u ↦ l.clean = u.clean ∧ SameLookups l u)
        (s.outline base m want).lines.toList (linesApart m).toList) ∧
    ∀ offset, (s.outline base m want).sourceOffset offset =
      { s.outline base m want with lines := linesApart m }.sourceOffset offset := by
  have hfragments := tiling_fragmentRuns m
  have happart := lineRuns_linesApart m ▸ hfragments
  refine ⟨⟨runs_tableApart m, ?_⟩, ⟨lineRuns_linesApart m, ?_⟩, ?_⟩
  · intro side offset
    have hascending := (tiling_table base m).ascending
    have hascending' := hfragments.ascending
    rw [← runs_tableApart] at hascending'
    rw [RunTable.sourceOffset_eq hascending, RunTable.sourceOffset_eq hascending',
      Document.runs_table, runs_tableApart, offsetIn_merge hfragments]
  · have hruns : List.Forall₂ (fun l u : Line ↦ l.runs.toList = merge u.runs.toList)
        (s.outline base m want).lines.toList (linesApart m).toList := by
      have heq := List.forall₂_eq_eq_eq ▸ runs_lines_outline s base m want
      exact List.forall₂_map_right_iff.mp (List.forall₂_map_left_iff.mp heq)
    obtain ⟨hlength, hpairs⟩ := List.forall₂_iff_zip.mp hruns
    refine List.forall₂_iff_zip.mpr ⟨hlength, fun {l u} hmem ↦ ?_⟩
    obtain ⟨p, q, hu⟩ := happart.exists_line (List.of_mem_zip hmem).2
    have hl := hpairs hmem
    exact ⟨Line.clean_of_merge hu hl, Line.sameLookups_of_merge hu hl⟩
  · intro offset
    rw [Outline.sourceOffset_eq (tiling_lines base m s want) (Nat.zero_le offset),
      Outline.sourceOffset_eq happart (Nat.zero_le offset), Splitter.lineRuns_outline,
      lineRuns_linesApart, offsetIn_merge hfragments]

end MarkupText
