import MarkupText.Proofs.Outlines
import MarkupText.Proofs.Pieces
import MarkupText.Proofs.Stores

namespace MarkupText

/-- An outline and a table describe one document: what either says of a clean offset, the other
says too. -/
structure Outline.Agrees (o : Outline) (d : Document) : Prop where
  text : o.text = d.text
  window : o.window = d.window
  tokenCount : o.tokenCount = d.tokenCount
  runs : d.table.runs.toList = lineRuns o.lines.toList
  sourceOffset (offset : Nat) :
    o.sourceOffset offset = RunIndex.sourceOffset .left d.table offset
  lineHolding (offset : Nat) : offset < o.window.length → ∃ i l,
    o.lineIndex? offset = some i ∧ o.lineHolding? offset = some l ∧
    ∀ j k, o.lines[j]? = some k →
      (k.clean.start ≤ offset ∧ offset < k.clean.stop ↔ j = i ∧ k = l)
  lineHolding_past (offset : Nat) : o.window.length ≤ offset → o.lineHolding? offset = none
  sentences : ∀ xs ∈ o.sentences, ∀ x ∈ xs, x.source = RunIndex.sourceSpan d.table x.clean

variable {source clean : Span} {ls : List Line} {l : Line}

theorem Tiling.sourceSpan_line (h : Tiling source clean (lineRuns ls)) (hl : l ∈ ls) {r : Span}
    (hr : l.clean.start ≤ r.start ∧ r.start < r.stop ∧ r.stop ≤ l.clean.stop) :
    RunIndex.sourceSpan l r =
      ⟨offsetIn .left r.start (lineRuns ls), offsetIn .right r.stop (lineRuns ls)⟩ := by
  have hleft : l.clean.Holds .left r.start := ⟨hr.1, by omega⟩
  have hright : l.clean.Holds .right r.stop := ⟨by omega, hr.2.2⟩
  rw [RunIndex.sourceSpan, h.offsetIn_line hl hleft, h.offsetIn_line hl hright]

theorem mem_splitLine {s : Splitter} {text : Text} {x : Sentence}
    (hx : x ∈ s.splitLine text l) : x.source = RunIndex.sourceSpan l x.clean ∧
      l.clean.start ≤ x.clean.start ∧ x.clean.start < x.clean.stop ∧
      x.clean.stop ≤ l.clean.stop := by
  obtain ⟨r, hr, rfl⟩ := List.mem_map.mp hx
  obtain ⟨hlt, hstop⟩ := split_bounds hr
  refine ⟨rfl, ?_⟩
  cases htext : l.text? text with
  | none =>
    simp only [htext, Option.getD_none, Text.byteLength_nil] at hstop
    omega
  | some cs =>
    have hlen := Text.byteLength_slice? htext
    simp only [htext, Option.getD_some] at hstop
    simp only [Span.length, Span.shift] at hlen ⊢
    omega

theorem Outline.exists_unique_line {o : Outline} {offset : Nat}
    (h : Tiling source clean (lineRuns o.lines.toList)) (hlow : clean.start ≤ offset)
    (hhigh : offset < clean.stop) : ∃ i l,
      o.lineIndex? offset = some i ∧ o.lineHolding? offset = some l ∧
      ∀ j k, o.lines[j]? = some k →
        (k.clean.start ≤ offset ∧ offset < k.clean.stop ↔ j = i ∧ k = l) := by
  obtain ⟨l, hl⟩ := exists_lineHolding h hlow hhigh
  obtain ⟨i, hi, hil⟩ := Option.bind_eq_some_iff.mp hl
  refine ⟨i, l, hi, hl, ?_⟩
  intro j k hk
  constructor
  · intro hoffset
    have hj := (lineIndex?_eq_some_iff h).mpr ⟨k, hk, hoffset⟩
    obtain rfl := Option.some.inj (hj.symm.trans hi)
    exact ⟨rfl, Option.some.inj (hk.symm.trans hil)⟩
  · rintro ⟨-, rfl⟩
    exact ((lineHolding?_eq_some_iff h).mp hl).2

/-- The two ways to process a document give the same text, runs, offsets and ranges. -/
theorem outline_agrees (s : Splitter) (base : Nat) (m : Text) (want : Bool) :
    (s.outline base m want).Agrees (Document.ofMarkup base m) := by
  have htable := tiling_table base m
  have hlines := tiling_lines base m s want
  have hruns : (Document.ofMarkup base m).table.runs.toList =
      lineRuns (s.outline base m want).lines.toList := by
    rw [Document.runs_table, Splitter.lineRuns_outline]
  have hlength : (s.outline base m want).window.length =
      Text.byteLength (s.outline base m want).text := Nat.add_sub_cancel_left ..
  refine ⟨rfl, rfl, rfl, hruns, ?_, ?_, ?_, ?_⟩
  · intro offset
    rw [Outline.sourceOffset_eq hlines (Nat.zero_le offset),
      RunTable.sourceOffset_eq htable.ascending, hruns]
  · intro offset hoffset
    rw [hlength] at hoffset
    exact Outline.exists_unique_line hlines (Nat.zero_le offset) hoffset
  · intro offset hoffset
    rw [hlength] at hoffset
    exact Outline.lineHolding?_eq_none hlines hoffset
  · intro xs hxs x hx
    have hmem : x ∈ s.splitLines (s.outline base m want).text (s.outline base m want).lines := by
      cases want with
      | false => cases hxs
      | true => exact Option.some.inj hxs ▸ hx
    obtain ⟨l, hl, hxl⟩ := List.mem_flatMap.mp hmem
    obtain ⟨hsource, hbounds⟩ := mem_splitLine hxl
    rw [hsource, hlines.sourceSpan_line hl hbounds, RunIndex.sourceSpan,
      RunTable.sourceOffset_eq htable.ascending, RunTable.sourceOffset_eq htable.ascending, hruns]

end MarkupText
