import MarkupText.Proofs.Tables
import MarkupText.Proofs.Unmerged

namespace MarkupText

open RunIndex

/-- Two of the runs meet at the clean offset `n`, and markup was skipped between them. -/
def SkipsAt (n : Nat) (rs : List Run) : Prop :=
  ∃ r s, [r, s] <:+: rs ∧ r.clean.stop = n ∧ s.clean.start = n ∧ r.source.stop < s.source.start

/-- How the two readings of all clean offsets lie to each other, by an index with the runs `rs` that
cover the range `clean` of `text`, which comes from the markup `m`. -/
structure Interleaves {σ : Type} [RunIndex σ] (x : σ) (rs : List Run) (clean : Span)
    (m text : Text) : Prop where
  mono (side : Side) (a b : Nat) : a ≤ b → sourceOffset side x a ≤ sourceOffset side x b
  right_le_left (n : Nat) : sourceOffset .right x n ≤ sourceOffset .left x n
  le_length (side : Side) (n : Nat) : sourceOffset side x n ≤ Text.byteLength m
  left_le_right (a b : Nat) : a < b → sourceOffset .left x a ≤ sourceOffset .right x b
  span_le (r : Span) : r.start < r.stop → (sourceSpan x r).start ≤ (sourceSpan x r).stop
  /-- Not so where a range ends inside a character that was decoded. -/
  span_lt (r : Span) : clean.start ≤ r.start → r.start < r.stop → r.stop ≤ clean.stop →
    text.IsCharBoundary r.stop → (sourceSpan x r).start < (sourceSpan x r).stop
  seam (n : Nat) : sourceOffset .right x n ≠ sourceOffset .left x n ↔ SkipsAt n rs

variable {source clean : Span} {side : Side} {m text : Text} {r s : Run} {rs us : List Run}
  {a b n stop : Nat}

namespace Run

theorem sourceAt_start (h : r.clean.start < r.clean.stop) :
    r.sourceAt r.clean.start = r.source.start := by
  have hlength : ¬r.clean.length ≤ r.clean.start - r.clean.start := by
    simp only [Span.length]
    omega
  simp only [sourceAt, if_neg hlength]
  simp

theorem sourceAt_lt_stop (h : r.Within source clean) (hlow : r.clean.start ≤ n)
    (hhigh : n < r.clean.stop) : r.sourceAt n < r.source.stop := by
  have hlt := h.source_lt
  cases hr : r.isLiteral with
  | true =>
    have hlength := isLiteral_iff.mp hr
    rw [sourceAt_literal hr (Nat.le_of_lt hlt) (Nat.le_of_lt hhigh)]
    simp only [Span.length] at hlength
    omega
  | false =>
    rw [sourceAt_decoded hr hlow hhigh]
    exact hlt

theorem Decodes.not_inside (h : r.Decodes m text) (hn : text.IsCharBoundary n) :
    n ≤ r.clean.start ∨ r.clean.stop ≤ n := by
  obtain ⟨-, -, -, c, -, -, -, -, hclean⟩ := h
  obtain ⟨as, bs, htext, hstart, hstop⟩ := Text.slice?_eq_some_iff.mp hclean
  obtain ⟨front, back, hcut, hfront⟩ := hn
  rcases List.append_eq_append_iff.mp (hcut.symm.trans htext) with ⟨xs, has, -⟩ | ⟨xs, has, hxs⟩
  · left
    rw [has, Text.byteLength_append] at hstart
    omega
  · rw [has, Text.byteLength_append] at hfront
    cases xs with
    | nil =>
      left
      simp only [Text.byteLength_nil] at hfront
      omega
    | cons x xs =>
      right
      obtain ⟨rfl, -⟩ := List.cons.inj hxs
      simp only [Text.byteLength_cons, Text.byteLength_nil] at hfront hstop
      omega

end Run

theorem seek_mem : seek side n r rs ∈ r :: rs := by
  induction rs generalizing r with
  | nil => exact List.mem_cons_self
  | cons s rs ih =>
    simp only [seek]
    split
    · exact List.mem_cons_of_mem r ih
    · exact List.mem_cons_self

theorem offsetIn_le (hrs : ∀ r ∈ rs, r.source.start ≤ r.source.stop ∧ r.source.stop ≤ stop) :
    offsetIn side n rs ≤ stop := by
  cases rs with
  | nil => exact Nat.zero_le stop
  | cons r rs =>
    obtain ⟨hle, hstop⟩ := hrs _ (@seek_mem side r rs n)
    exact Nat.le_trans (Run.sourceAt_le_stop hle) hstop

namespace Tiling

theorem offsetIn_left_le_right (h : Tiling source clean rs) (hab : a < b) :
    offsetIn .left a rs ≤ offsetIn .right b rs := by
  refine h.offsetIn_le_offsetIn (Nat.le_of_lt hab) fun r hr ↦ ?_
  simp only [Run.reaches, decide_eq_true_eq] at hr ⊢
  omega

theorem offsetIn_left_lt_right (h : Tiling source clean rs)
    (hrs : ∀ r ∈ rs, r.isLiteral = false → r.Decodes m text) (hlow : clean.start ≤ a)
    (hab : a < b) (hhigh : b ≤ clean.stop) (hb : text.IsCharBoundary b) :
    offsetIn .left a rs < offsetIn .right b rs := by
  obtain ⟨r, hr, hstart, hstop⟩ := h.exists_mem hlow (Nat.lt_of_lt_of_le hab hhigh)
  have hwithin := h.of_mem hr
  have hle := Nat.le_of_lt hwithin.source_lt
  have hleft : r.clean.Holds .left a := ⟨hstart, hstop⟩
  rw [h.offsetIn_of_mem hr hleft]
  rcases Nat.lt_or_ge b r.clean.stop with hlt | hge
  · have hlit : r.isLiteral := by
      by_contra hlit
      have hinside := (hrs r hr (by simpa using hlit)).not_inside hb
      omega
    have hright : r.clean.Holds .right b := ⟨Nat.lt_of_le_of_lt hstart hab, Nat.le_of_lt hlt⟩
    rw [h.offsetIn_of_mem hr hright, Run.sourceAt_literal hlit hle (Nat.le_of_lt hstop),
      Run.sourceAt_literal hlit hle (Nat.le_of_lt hlt)]
    omega
  · have hright : r.clean.Holds .right r.clean.stop := ⟨hwithin.clean_lt, Nat.le_refl _⟩
    calc r.sourceAt a < r.source.stop := Run.sourceAt_lt_stop hwithin hstart hstop
      _ = r.sourceAt r.clean.stop := (Run.sourceAt_of_stop_le (Nat.le_refl _)).symm
      _ = offsetIn .right r.clean.stop rs := (h.offsetIn_of_mem hr hright).symm
      _ ≤ offsetIn .right b rs := h.offsetIn_mono hge

theorem offsetIn_of_seam (h : Tiling source clean rs) (hpair : [r, s] <:+: rs)
    (hr : r.clean.stop = n) (hs : s.clean.start = n) :
    offsetIn .right n rs = r.source.stop ∧ offsetIn .left n rs = s.source.start := by
  have hmem : r ∈ rs := hpair.subset List.mem_cons_self
  have hmem' : s ∈ rs := hpair.subset (List.mem_cons_of_mem r List.mem_cons_self)
  have hlt := (h.of_mem hmem).clean_lt
  have hlt' := (h.of_mem hmem').clean_lt
  have hright : r.clean.Holds .right n := ⟨hr ▸ hlt, Nat.le_of_eq hr.symm⟩
  have hleft : s.clean.Holds .left n := ⟨Nat.le_of_eq hs, hs ▸ hlt'⟩
  constructor
  · rw [h.offsetIn_of_mem hmem hright, Run.sourceAt_of_stop_le (Nat.le_of_eq hr)]
  · rw [h.offsetIn_of_mem hmem' hleft, ← hs, Run.sourceAt_start hlt']

/-- Where the readings from the two sides part, they are answered by two runs that meet there. -/
theorem exists_seam (h : Tiling source clean rs)
    (hne : offsetIn .right n rs ≠ offsetIn .left n rs) :
    ∃ r s, [r, s] <:+: rs ∧ r.clean.stop = n ∧ s.clean.start = n := by
  cases rs with
  | nil => exact absurd rfl hne
  | cons r rs =>
    simp only [offsetIn] at hne
    induction rs generalizing r source clean with
    | nil => exact absurd rfl hne
    | cons s rs ih =>
      have hmeet := h.tail.2.2.1
      simp only [seek] at hne
      by_cases hright : s.reaches .right n
      · have hleft : s.reaches .left n := by
          simp only [Run.reaches, decide_eq_true_eq] at hright ⊢
          omega
        rw [if_pos hright, if_pos hleft] at hne
        obtain ⟨u, v, hpair, hseam⟩ := ih s h.tail hne
        exact ⟨u, v, List.infix_cons hpair, hseam⟩
      · by_cases hleft : s.reaches .left n
        · refine ⟨r, s, ⟨[], rs, rfl⟩, ?_⟩
          simp only [Run.reaches, decide_eq_true_eq] at hright hleft hmeet
          omega
        · rw [if_neg hright, if_neg hleft] at hne
          exact absurd rfl hne

theorem offsetIn_ne_iff (h : Tiling source clean rs) :
    offsetIn .right n rs ≠ offsetIn .left n rs ↔ SkipsAt n rs := by
  constructor
  · intro hne
    obtain ⟨r, s, hpair, hr, hs⟩ := h.exists_seam hne
    obtain ⟨hright, hleft⟩ := h.offsetIn_of_seam hpair hr hs
    have hle := @offsetIn_right_le_left n rs source clean h
    exact ⟨r, s, hpair, hr, hs, by omega⟩
  · intro hskips
    obtain ⟨r, s, hpair, hr, hs, hlt⟩ := hskips
    obtain ⟨hright, hleft⟩ := h.offsetIn_of_seam hpair hr hs
    omega

end Tiling

/-- An index over some of the runs of a table, which answers by a walk along them. -/
theorem IsTable.interleaves {σ : Type} [RunIndex σ] {x : σ} (htable : IsTable m text us)
    (hsub : rs ⊆ us) (h : Tiling source clean rs)
    (hx : ∀ side n, sourceOffset side x n = offsetIn side n rs) :
    Interleaves x rs clean m text := by
  have hright_le (a b : Nat) (hab : a < b) :
      sourceOffset .left x a ≤ sourceOffset .right x b := by
    rw [hx, hx]
    exact h.offsetIn_left_le_right hab
  refine ⟨?_, ?_, ?_, hright_le, fun r hr ↦ hright_le r.start r.stop hr, ?_, ?_⟩
  · intro side a b hab
    rw [hx, hx]
    exact h.offsetIn_mono hab
  · intro n
    rw [hx, hx]
    exact h.offsetIn_right_le_left
  · intro side n
    rw [hx]
    apply offsetIn_le
    intro r hr
    exact ⟨Nat.le_of_lt (h.of_mem hr).source_lt, htable.inside r (hsub hr)⟩
  · intro r hlow hlt hhigh hstop
    simp only [sourceSpan, hx]
    exact h.offsetIn_left_lt_right (fun r hr ↦ htable.decoded r (hsub hr)) hlow hlt hhigh hstop
  · intro n
    rw [hx, hx]
    exact h.offsetIn_ne_iff

/-- The markup offsets of clean offsets are in order by the table of a document and by each of its
lines, and the two readings of one offset differ only where markup was skipped. -/
theorem lookups_interleave (s : Splitter) (base : Nat) (m : Text) (want : Bool) :
    Interleaves (Document.ofMarkup base m).table (Document.ofMarkup base m).table.runs.toList
      ⟨0, Text.byteLength (Document.ofMarkup base m).text⟩ m (Document.ofMarkup base m).text ∧
    ∀ l ∈ (s.outline base m want).lines.toList,
      Interleaves l l.runs.toList l.clean m (s.outline base m want).text := by
  have hmerge := isTable_merge m
  constructor
  · have htable := tiling_table base m
    apply hmerge.interleaves ?_ htable
    · intro side n
      exact RunTable.sourceOffset_eq htable.ascending
    · rw [Document.runs_table]
      exact List.Subset.refl _
  · intro l hl
    obtain ⟨p, q, hline⟩ := (tiling_lines base m s want).exists_line hl
    apply hmerge.interleaves ?_ hline
    · intro side n
      exact Line.sourceOffset_eq hline.ascending
    · intro r hr
      rw [← Splitter.lineRuns_outline base m s want]
      exact List.mem_flatMap.mpr ⟨l, hl, hr⟩

end MarkupText
