import Mathlib.Data.List.Chain
import MarkupText.Extraction
import MarkupText.Proofs.Lookups

namespace MarkupText

variable {source clean : Span} {r s l : Run} {rs us : List Run} {side : Side} {offset : Nat}

theorem Run.extend?_eq_some_iff : r.extend? s = some l ↔
    (r.isLiteral ∧ s.isLiteral ∧ r.inTitle = s.inTitle ∧ r.source.stop = s.source.start ∧
      r.clean.stop = s.clean.start) ∧
    l = ⟨⟨r.source.start, s.source.stop⟩, ⟨r.clean.start, s.clean.stop⟩, r.inTitle⟩ := by
  unfold Run.extend?
  split
  · rename_i h
    simp only [h, and_self, true_and, Option.some.injEq, eq_comm]
  · rename_i h
    simp only [h, false_and, reduceCtorEq]

theorem Run.extend?_eq_none_of_lt (h : r.source.stop < s.source.start) : r.extend? s = none := by
  refine Option.eq_none_iff_forall_ne_some.mpr fun l hl ↦ ?_
  have hstop := (Run.extend?_eq_some_iff.mp hl).1.2.2.2.1
  omega

def mergeAfter (r : Run) : List Run → List Run
  | [] => [r]
  | s :: us =>
    match r.extend? s with
    | some longer => mergeAfter longer us
    | none => r :: mergeAfter s us

def merge : List Run → List Run
  | [] => []
  | r :: us => mergeAfter r us

theorem forall_mergeAfter {P : Run → Prop}
    (hP : ∀ r s l, P r → P s → r.extend? s = some l → P l) (hr : P r) (hus : ∀ u ∈ us, P u) :
    ∀ l ∈ mergeAfter r us, P l := by
  induction us generalizing r with
  | nil => simpa only [mergeAfter, List.mem_singleton, forall_eq] using hr
  | cons s us ih =>
    obtain ⟨hs, hus⟩ := List.forall_mem_cons.mp hus
    unfold mergeAfter
    split
    · rename_i l hl
      exact ih (hP r s l hr hs hl) hus
    · exact List.forall_mem_cons.mpr ⟨hr, ih hs hus⟩

/-- What runs have in common they still have when joined, if joining two of them keeps it. -/
theorem forall_merge {P : Run → Prop}
    (hP : ∀ r s l, P r → P s → r.extend? s = some l → P l) (hrs : ∀ r ∈ rs, P r) :
    ∀ l ∈ merge rs, P l := by
  cases rs with
  | nil => exact hrs
  | cons r us =>
    obtain ⟨hr, hus⟩ := List.forall_mem_cons.mp hrs
    exact forall_mergeAfter hP hr hus

namespace Tiling

theorem extend (h : Tiling source clean (r :: s :: us)) (hl : r.extend? s = some l) :
    Tiling source clean (l :: us) := by
  obtain ⟨⟨-, -, -, hsource, hclean⟩, rfl⟩ := Run.extend?_eq_some_iff.mp hl
  obtain ⟨hr, hlt, hstart, hlt', hs, hslt, hsstart, hslt', hus⟩ := h
  refine ⟨hr, ?_, hstart, ?_, hus⟩ <;> simp only at * <;> omega

theorem mergeAfter (h : Tiling source clean (r :: us)) :
    Tiling source clean (mergeAfter r us) := by
  induction us generalizing r source clean with
  | nil => exact h
  | cons s us ih =>
    unfold MarkupText.mergeAfter
    split
    · rename_i l hl
      exact ih (h.extend hl)
    · obtain ⟨hr, hlt, hstart, hlt', htail⟩ := h
      exact ⟨hr, hlt, hstart, hlt', ih htail⟩

theorem merge (h : Tiling source clean rs) : Tiling source clean (merge rs) := by
  cases rs with
  | nil => exact h
  | cons r us => exact h.mergeAfter

end Tiling

theorem Run.isLiteral_extend (h : Tiling source clean (r :: s :: us))
    (hl : r.extend? s = some l) : l.isLiteral := by
  obtain ⟨⟨hr, hs, -, hsource, hclean⟩, rfl⟩ := Run.extend?_eq_some_iff.mp hl
  obtain ⟨-, hlt, -, hlt', -, hslt, -, hslt', -⟩ := h
  rw [Run.isLiteral_iff] at hr hs ⊢
  simp only [Span.length] at *
  omega

theorem mergeAfter_eq_cons (h : Tiling source clean (r :: us)) :
    ∃ t ts, mergeAfter r us = t :: ts ∧ t.source.start = r.source.start ∧
      t.clean.start = r.clean.start ∧ t.inTitle = r.inTitle ∧ t.isLiteral = r.isLiteral := by
  induction us generalizing r source clean with
  | nil => exact ⟨r, [], rfl, rfl, rfl, rfl, rfl⟩
  | cons s us ih =>
    unfold mergeAfter
    split
    · rename_i l hl
      obtain ⟨t, ts, ht, hsource, hclean, htitle, hlit⟩ := ih (h.extend hl)
      have hl' := Run.isLiteral_extend h hl
      obtain ⟨⟨hr, -⟩, rfl⟩ := Run.extend?_eq_some_iff.mp hl
      exact ⟨t, ts, ht, hsource, hclean, htitle, by rw [hlit, hl', hr]⟩
    · exact ⟨r, _, rfl, rfl, rfl, rfl, rfl⟩

theorem isChain_mergeAfter (h : Tiling source clean (r :: us)) :
    (mergeAfter r us).IsChain fun r s ↦ r.extend? s = none := by
  induction us generalizing r source clean with
  | nil => exact .singleton r
  | cons s us ih =>
    unfold mergeAfter
    split
    · rename_i l hl
      exact ih (h.extend hl)
    · rename_i hnone
      have htail := ih h.tail
      obtain ⟨t, ts, ht, hsource, hclean, htitle, hlit⟩ := mergeAfter_eq_cons h.tail
      rw [ht] at htail ⊢
      refine .cons_cons ?_ htail
      simpa only [Run.extend?, hsource, hclean, htitle, hlit, ite_eq_right_iff, reduceCtorEq,
        imp_false] using hnone

theorem isChain_merge (h : Tiling source clean rs) :
    (merge rs).IsChain fun r s ↦ r.extend? s = none := by
  cases rs with
  | nil => exact .nil
  | cons r us => exact isChain_mergeAfter h

theorem sourceAt_extend (h : Tiling source clean (r :: s :: us)) (hl : r.extend? s = some l) :
    l.sourceAt offset =
      if s.reaches side offset then s.sourceAt offset else r.sourceAt offset := by
  have hlit := Run.isLiteral_extend h hl
  obtain ⟨⟨hr, hs, -, hsource, hclean⟩, rfl⟩ := Run.extend?_eq_some_iff.mp hl
  obtain ⟨-, hlt, -, hlt', -, hslt, -, hslt', -⟩ := h
  have hrlen := Run.isLiteral_iff.mp hr
  simp only [Span.length] at hrlen
  have hreach : s.reaches side offset → s.clean.start ≤ offset := by
    cases side <;> simp only [Run.reaches, decide_eq_true_eq] <;> omega
  have hnreach : ¬ s.reaches side offset → offset ≤ s.clean.start := by
    cases side <;> simp only [Run.reaches, decide_eq_true_eq] <;> omega
  split
  · rename_i hs'
    have hle := hreach hs'
    rcases Nat.lt_or_ge s.clean.stop offset with hpast | hin
    · rw [Run.sourceAt_of_stop_le (r := s) (Nat.le_of_lt hpast)]
      exact Run.sourceAt_of_stop_le (Nat.le_of_lt hpast)
    · rw [Run.sourceAt_literal hs (Nat.le_of_lt hslt) hin,
        Run.sourceAt_literal hlit (by dsimp only; omega) hin]
      dsimp only
      omega
  · rename_i hs'
    have hle := hnreach hs'
    rw [Run.sourceAt_literal hr (Nat.le_of_lt hlt) (by omega),
      Run.sourceAt_literal hlit (by dsimp only; omega) (by dsimp only; omega)]

theorem seek_extend (h : Tiling source clean (r :: s :: us)) (hl : r.extend? s = some l) :
    (seek side offset l us).sourceAt offset =
      (seek side offset r (s :: us)).sourceAt offset := by
  have hboth : l.sourceAt offset =
      (if s.reaches side offset then s else r).sourceAt offset :=
    (sourceAt_extend h hl).trans (apply_ite (Run.sourceAt · offset) _ _ _).symm
  cases us with
  | nil => exact hboth
  | cons u us =>
    simp only [seek]
    by_cases hu : u.reaches side offset
    · have hle := h.tail.pairwise
      have hs : s.reaches side offset :=
        Run.reaches_of_le (List.rel_of_pairwise_cons h.tail.ascending List.mem_cons_self) hu
      simp only [hu, hs, if_true]
    · simpa only [hu, Bool.false_eq_true, if_false] using hboth

/-- Joining runs cannot be seen in any lookup. -/
theorem offsetIn_mergeAfter (h : Tiling source clean (r :: us)) :
    offsetIn side offset (mergeAfter r us) = offsetIn side offset (r :: us) := by
  induction us generalizing r source clean with
  | nil => rfl
  | cons s us ih =>
    unfold mergeAfter
    split
    · rename_i l hl
      rw [ih (h.extend hl)]
      exact seek_extend h hl
    · obtain ⟨t, ts, ht, -, hclean, -⟩ := mergeAfter_eq_cons h.tail
      have hih := ih h.tail
      have hreach : t.reaches side offset = s.reaches side offset := by
        simp only [Run.reaches, hclean]
      rw [ht] at hih ⊢
      simp only [offsetIn] at hih
      simp only [offsetIn, seek, hreach]
      split
      · exact hih
      · rfl

theorem offsetIn_merge (h : Tiling source clean rs) :
    offsetIn side offset (merge rs) = offsetIn side offset rs := by
  cases rs with
  | nil => rfl
  | cons r us => exact offsetIn_mergeAfter h

/-- Joining two runs beforehand does not matter. -/
theorem mergeAfter_join {x y z : Run} {vs : List Run}
    (h : Tiling source clean (r :: (us ++ x :: y :: vs))) (hz : x.extend? y = some z) :
    mergeAfter r (us ++ x :: y :: vs) = mergeAfter r (us ++ z :: vs) := by
  induction us generalizing r source clean with
  | nil =>
    obtain ⟨⟨hx, hy, htitle, hsource, hclean⟩, rfl⟩ := Run.extend?_eq_some_iff.mp hz
    have hzlit := Run.isLiteral_extend h.tail hz
    rw [List.nil_append, List.nil_append, mergeAfter, mergeAfter]
    cases hl : r.extend? x with
    | some l =>
      have hllit := Run.isLiteral_extend h hl
      obtain ⟨⟨hr, -, hrtitle, hrsource, hrclean⟩, rfl⟩ := Run.extend?_eq_some_iff.mp hl
      have hjoin := Run.extend?_eq_some_iff.mpr
        ⟨⟨hllit, hy, hrtitle.trans htitle, hsource, hclean⟩, rfl⟩
      have hjoin' := Run.extend?_eq_some_iff.mpr ⟨⟨hr, hzlit, hrtitle, hrsource, hrclean⟩, rfl⟩
      simp only [mergeAfter, hjoin, hjoin']
    | none =>
      have hnone : r.extend? ⟨⟨x.source.start, y.source.stop⟩, ⟨x.clean.start, y.clean.stop⟩,
          x.inTitle⟩ = none := by
        simpa only [Run.extend?, hx, hzlit, ite_eq_right_iff, reduceCtorEq, imp_false] using hl
      simp only [mergeAfter, hz, hnone]
  | cons s us ih =>
    rw [List.cons_append, List.cons_append, mergeAfter, mergeAfter]
    cases hl : r.extend? s with
    | some l => exact ih (h.extend hl)
    | none => exact congrArg (r :: ·) (ih h.tail)

theorem exists_mem_mergeAfter {x : Run} (h : Tiling source clean (r :: us)) (hx : x ∈ r :: us) :
    ∃ l ∈ mergeAfter r us, l.clean.start ≤ x.clean.start ∧ x.clean.stop ≤ l.clean.stop := by
  induction us generalizing r x source clean with
  | nil =>
    obtain rfl := List.mem_singleton.mp hx
    exact ⟨x, List.mem_cons_self, Nat.le_refl _, Nat.le_refl _⟩
  | cons s us ih =>
    rw [mergeAfter]
    cases hl : r.extend? s with
    | some l =>
      have hlong := h.extend hl
      obtain ⟨⟨-, -, -, -, hclean⟩, rfl⟩ := Run.extend?_eq_some_iff.mp hl
      obtain ⟨-, -, -, hr, -, -, -, hs, -⟩ := h
      rcases List.mem_cons.mp hx with rfl | hx
      · obtain ⟨l, hl, hstart, hstop⟩ := ih hlong List.mem_cons_self
        exact ⟨l, hl, hstart, by simp only at hstop; omega⟩
      · rcases List.mem_cons.mp hx with rfl | hx
        · obtain ⟨l, hl, hstart, hstop⟩ := ih hlong List.mem_cons_self
          exact ⟨l, hl, by simp only at hstart; omega, hstop⟩
        · exact ih hlong (List.mem_cons_of_mem _ hx)
    | none =>
      rcases List.mem_cons.mp hx with rfl | hx
      · exact ⟨x, List.mem_cons_self, Nat.le_refl _, Nat.le_refl _⟩
      · obtain ⟨l, hl, hbounds⟩ := ih h.tail hx
        exact ⟨l, List.mem_cons_of_mem r hl, hbounds⟩

/-- Each run is a part of a joined one. -/
theorem exists_mem_merge {x : Run} (h : Tiling source clean rs) (hx : x ∈ rs) :
    ∃ l ∈ merge rs, l.clean.start ≤ x.clean.start ∧ x.clean.stop ≤ l.clean.stop := by
  cases rs with
  | nil => cases hx
  | cons r us => exact exists_mem_mergeAfter h hx

theorem Tiling.join {as bs : List Run} {x y z : Run} (h : Tiling source clean (as ++ x :: y :: bs))
    (hz : x.extend? y = some z) : Tiling source clean (as ++ z :: bs) := by
  obtain ⟨p, a, has, hrest⟩ := Tiling.append_iff.mp h
  exact Tiling.append_iff.mpr ⟨p, a, has, hrest.extend hz⟩

/-- Two runs that can be joined are parts of one. -/
theorem exists_mem_merge_of_extend {as bs : List Run} {x y z : Run}
    (h : Tiling source clean (as ++ x :: y :: bs)) (hz : x.extend? y = some z) :
    ∃ l ∈ merge (as ++ x :: y :: bs),
      l.clean.start ≤ x.clean.start ∧ y.clean.stop ≤ l.clean.stop := by
  have hjoin : merge (as ++ x :: y :: bs) = merge (as ++ z :: bs) := by
    cases as with
    | nil =>
      simp only [List.nil_append, merge, mergeAfter, hz]
    | cons r as => exact mergeAfter_join h hz
  have hz' : z ∈ as ++ z :: bs := List.mem_append_right as List.mem_cons_self
  obtain ⟨l, hl, hbounds⟩ := exists_mem_merge (h.join hz) hz'
  obtain ⟨-, rfl⟩ := Run.extend?_eq_some_iff.mp hz
  exact ⟨l, hjoin ▸ hl, hbounds⟩

end MarkupText
