import Mathlib.Algebra.GroupWithZero.Nat
import MarkupText.Run

namespace MarkupText

/-- Runs that fill the clean bytes of `clean` without a gap and come from ever later markup
within `source`. -/
def Tiling (source clean : Span) : List Run → Prop
  | [] => source.start ≤ source.stop ∧ clean.start = clean.stop
  | r :: rs => source.start ≤ r.source.start ∧ r.source.start < r.source.stop ∧
      r.clean.start = clean.start ∧ r.clean.start < r.clean.stop ∧
      Tiling ⟨r.source.stop, source.stop⟩ ⟨r.clean.stop, clean.stop⟩ rs

structure Run.Within (source clean : Span) (r : Run) : Prop where
  source_start : source.start ≤ r.source.start
  source_lt : r.source.start < r.source.stop
  source_stop : r.source.stop ≤ source.stop
  clean_start : clean.start ≤ r.clean.start
  clean_lt : r.clean.start < r.clean.stop
  clean_stop : r.clean.stop ≤ clean.stop

namespace Tiling

variable {source clean : Span} {as rs : List Run} {r s : Run}

theorem source_le (h : Tiling source clean rs) : source.start ≤ source.stop := by
  induction rs generalizing source clean with
  | nil => exact h.1
  | cons r rs ih =>
    obtain ⟨hstart, hlt, -, -, h⟩ := h
    have hle := ih h
    simp only at hle
    omega

theorem clean_le (h : Tiling source clean rs) : clean.start ≤ clean.stop := by
  induction rs generalizing source clean with
  | nil => exact Nat.le_of_eq h.2
  | cons r rs ih =>
    obtain ⟨-, -, hstart, hlt, h⟩ := h
    have hle := ih h
    simp only at hle
    omega

theorem source_mono {p q stop : Nat} (h : Tiling ⟨q, stop⟩ clean rs) (hpq : p ≤ q) :
    Tiling ⟨p, stop⟩ clean rs := by
  cases rs with
  | nil => exact ⟨Nat.le_trans hpq h.1, h.2⟩
  | cons r rs =>
    obtain ⟨hsource, h⟩ := h
    exact ⟨Nat.le_trans hpq hsource, h⟩

theorem append_iff : Tiling source clean (as ++ rs) ↔
    ∃ p a, Tiling ⟨source.start, p⟩ ⟨clean.start, a⟩ as ∧
      Tiling ⟨p, source.stop⟩ ⟨a, clean.stop⟩ rs := by
  induction as generalizing source clean with
  | nil =>
    constructor
    · intro h
      exact ⟨source.start, clean.start, ⟨Nat.le_refl _, rfl⟩, h⟩
    · rintro ⟨p, a, ⟨hp, ha⟩, h⟩
      simp only at hp ha
      subst a
      exact h.source_mono hp
  | cons s as ih =>
    simp only [List.cons_append, Tiling, ih, and_assoc, exists_and_left]

theorem of_mem (h : Tiling source clean rs) (hr : r ∈ rs) : r.Within source clean := by
  obtain ⟨as, bs, rfl⟩ := List.append_of_mem hr
  obtain ⟨p, a, has, hsource, hlt, hclean, hlt', h⟩ := append_iff.mp h
  have hp := has.source_le
  have ha := has.clean_le
  have hq := h.source_le
  have hb := h.clean_le
  simp only at hsource hclean hp ha hq hb
  constructor <;> omega

theorem tail (h : Tiling source clean (r :: rs)) :
    Tiling ⟨r.source.stop, source.stop⟩ ⟨r.clean.stop, clean.stop⟩ rs := h.2.2.2.2

theorem last_stop (h : Tiling source clean (rs ++ [r])) : r.clean.stop = clean.stop := by
  obtain ⟨p, a, -, -, -, -, -, -, hstop⟩ := append_iff.mp h
  exact hstop

/-- Each run comes from markup before that of the runs after it, and so in the clean text. -/
theorem pairwise (h : Tiling source clean rs) :
    rs.Pairwise fun r s ↦ r.source.stop ≤ s.source.start ∧ r.clean.stop ≤ s.clean.start := by
  induction rs generalizing source clean with
  | nil => exact .nil
  | cons r rs ih =>
    refine List.pairwise_cons.mpr ⟨fun s hs ↦ ?_, ih h.tail⟩
    have hmem := h.tail.of_mem hs
    exact ⟨hmem.source_start, hmem.clean_start⟩

theorem sum_length (h : Tiling source clean rs) :
    (rs.map (·.clean.length)).sum = clean.length := by
  induction rs generalizing source clean with
  | nil => simp [Span.length, h.2]
  | cons r rs ih =>
    obtain ⟨-, -, hstart, hlt, h⟩ := h
    have hle := h.clean_le
    rw [List.map_cons, List.sum_cons, ih h]
    simp only [Span.length] at hle ⊢
    omega

theorem exists_mem {offset : Nat} (h : Tiling source clean rs) (hlow : clean.start ≤ offset)
    (hhigh : offset < clean.stop) : ∃ r ∈ rs, r.clean.start ≤ offset ∧ offset < r.clean.stop := by
  induction rs generalizing source clean with
  | nil =>
    have heq := h.2
    omega
  | cons r rs ih =>
    rcases Nat.lt_or_ge offset r.clean.stop with hlt | hge
    · exact ⟨r, List.mem_cons_self, by rw [h.2.2.1]; exact hlow, hlt⟩
    · obtain ⟨s, hs, hoffset⟩ := ih h.tail hge hhigh
      exact ⟨s, List.mem_cons_of_mem r hs, hoffset⟩

end Tiling

end MarkupText
