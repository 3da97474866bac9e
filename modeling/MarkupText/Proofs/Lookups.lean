import MarkupText.RunTable
import MarkupText.Proofs.Bisection
import MarkupText.Proofs.Lines
import MarkupText.Proofs.Tilings

namespace MarkupText

def Span.Holds (side : Side) (offset : Nat) (r : Span) : Prop :=
  match side with
  | .left => r.start ≤ offset ∧ offset < r.stop
  | .right => r.start < offset ∧ offset ≤ r.stop

namespace Run

variable {r s : Run} {side : Side} {offset a b : Nat}

theorem reaches_of_holds (h : r.clean.Holds side offset) : r.reaches side offset := by
  cases side with
  | left => exact decide_eq_true h.1
  | right => exact decide_eq_true h.1

theorem not_reaches_of_holds {clean : Span} (h : clean.Holds side offset)
    (hle : clean.stop ≤ s.clean.start) : s.reaches side offset = false := by
  cases side with
  | left => exact decide_eq_false (Nat.not_le_of_lt (Nat.lt_of_lt_of_le h.2 hle))
  | right => exact decide_eq_false (Nat.not_lt_of_le (Nat.le_trans h.2 hle))

theorem reaches_of_le (h : r.clean.start ≤ s.clean.start) (hs : s.reaches side offset) :
    r.reaches side offset := by
  cases side <;> simp only [reaches, decide_eq_true_eq] at hs ⊢ <;> omega

theorem isLiteral_iff : r.isLiteral ↔ r.clean.length = r.source.length := by
  simp [isLiteral]

theorem sourceAt_of_stop_le (h : r.clean.stop ≤ offset) : r.sourceAt offset = r.source.stop := by
  refine if_pos ?_
  simp only [Span.length]
  omega

theorem sourceAt_literal (hr : r.isLiteral) (hsource : r.source.start ≤ r.source.stop)
    (hoffset : offset ≤ r.clean.stop) :
    r.sourceAt offset = r.source.start + (offset - r.clean.start) := by
  have hlen := isLiteral_iff.mp hr
  simp only [sourceAt, hr, if_true]
  split
  · simp only [Span.length] at *
    omega
  · rfl

theorem sourceAt_decoded (hr : r.isLiteral = false) (hlow : r.clean.start ≤ offset)
    (hhigh : offset < r.clean.stop) : r.sourceAt offset = r.source.start := by
  simp only [sourceAt, hr, Bool.false_eq_true, if_false]
  refine if_neg ?_
  simp only [Span.length]
  omega

theorem start_le_sourceAt (h : r.source.start ≤ r.source.stop) :
    r.source.start ≤ r.sourceAt offset := by
  simp only [sourceAt]
  split
  · exact h
  · split <;> omega

theorem sourceAt_le_stop (h : r.source.start ≤ r.source.stop) :
    r.sourceAt offset ≤ r.source.stop := by
  simp only [sourceAt]
  split
  · exact Nat.le_refl _
  · split
    · rename_i hlt hr
      have hlen := isLiteral_iff.mp hr
      simp only [Span.length] at *
      omega
    · exact h

theorem sourceAt_mono (h : r.source.start ≤ r.source.stop) (hab : a ≤ b) :
    r.sourceAt a ≤ r.sourceAt b := by
  by_cases hb : r.clean.length ≤ b - r.clean.start
  · rw [show r.sourceAt b = r.source.stop from if_pos hb]
    exact sourceAt_le_stop h
  · have ha : ¬ r.clean.length ≤ a - r.clean.start := by omega
    simp only [sourceAt, if_neg ha, if_neg hb]
    split
    · omega
    · exact Nat.le_refl _

end Run

def seek (side : Side) (offset : Nat) (r : Run) : List Run → Run
  | [] => r
  | s :: rs => if s.reaches side offset then seek side offset s rs else r

def offsetIn (side : Side) (offset : Nat) : List Run → Nat
  | [] => 0
  | r :: rs => (seek side offset r rs).sourceAt offset

def Ascending (rs : List Run) : Prop := rs.Pairwise fun r s ↦ r.clean.start ≤ s.clean.start

variable {side : Side} {offset : Nat} {r s : Run} {rs as bs : List Run}

theorem Tiling.ascending {source clean : Span} (h : Tiling source clean rs) : Ascending rs := by
  refine h.pairwise.imp_of_mem fun hr _ hrs ↦ ?_
  exact Nat.le_trans (Nat.le_of_lt (h.of_mem hr).clean_lt) hrs.2

theorem seek_append_of_not_reaches (h : ∀ b ∈ bs, b.reaches side offset = false) :
    seek side offset r (rs ++ bs) = seek side offset r rs := by
  induction rs generalizing r with
  | nil =>
    cases bs with
    | nil => rfl
    | cons b bs => simp [seek, h b List.mem_cons_self]
  | cons s rs ih => simp only [List.cons_append, seek, ih]

theorem seek_append_cons (h : Ascending (rs ++ s :: bs)) (hs : s.reaches side offset) :
    seek side offset r (rs ++ s :: bs) = seek side offset s bs := by
  induction rs generalizing r with
  | nil => simp [seek, hs]
  | cons a rs ih =>
    obtain ⟨ha, h⟩ := List.pairwise_cons.mp h
    have hreach := Run.reaches_of_le (ha s (List.mem_append_right rs List.mem_cons_self)) hs
    simp only [List.cons_append, seek, hreach, if_true, ih h]

theorem offsetIn_append_cons (h : Ascending (as ++ (r :: rs) ++ bs))
    (hr : r.reaches side offset) (hbs : ∀ b ∈ bs, b.reaches side offset = false) :
    offsetIn side offset (as ++ (r :: rs) ++ bs) = offsetIn side offset (r :: rs) := by
  rw [List.append_assoc, List.cons_append] at h ⊢
  cases as with
  | nil => simp only [List.nil_append, offsetIn, seek_append_of_not_reaches hbs]
  | cons a as =>
    simp only [List.cons_append, offsetIn]
    rw [seek_append_cons (List.pairwise_cons.mp h).2 hr, seek_append_of_not_reaches hbs]

theorem getElem?_pred_of_lt_iff {n : Nat}
    (hn : ∀ i, i < n ↔ (r :: rs)[i]?.any (Run.reaches side offset)) :
    (r :: rs)[n - 1]? = some (seek side offset r rs) := by
  induction rs generalizing r n with
  | nil =>
    have h := hn 1
    simp only [List.getElem?_cons_succ, List.getElem?_nil, Option.any_none, Bool.false_eq_true,
      iff_false] at h
    rw [show n - 1 = 0 by omega]
    rfl
  | cons s rs ih =>
    have h := hn 1
    simp only [List.getElem?_cons_succ, List.getElem?_cons_zero, Option.any_some] at h
    by_cases hs : s.reaches side offset
    · have hlt := h.mpr hs
      obtain ⟨k, rfl⟩ : ∃ k, n = k + 2 := ⟨n - 2, by omega⟩
      have hk := ih (r := s) (n := k + 1) fun i ↦ by simpa using hn (i + 1)
      simpa [seek, hs] using hk
    · have hge : ¬ 1 < n := fun hlt ↦ hs (h.mp hlt)
      rw [show n - 1 = 0 by omega]
      simp [seek, hs]

theorem find?_reverse_getD (h : Ascending (r :: rs)) :
    (rs.reverse.find? (Run.reaches side offset)).getD r = seek side offset r rs := by
  induction rs generalizing r with
  | nil => rfl
  | cons s rs ih =>
    obtain ⟨hr, h⟩ := List.pairwise_cons.mp h
    rw [List.reverse_cons, List.find?_append]
    by_cases hs : s.reaches side offset
    · rw [show seek side offset r (s :: rs) = seek side offset s rs by simp [seek, hs], ← ih h]
      cases rs.reverse.find? (Run.reaches side offset) <;> simp [hs]
    · have hnone : rs.reverse.find? (Run.reaches side offset) = none := by
        refine List.find?_eq_none.mpr fun u hu hreach ↦ hs ?_
        exact Run.reaches_of_le ((List.pairwise_cons.mp h).1 u (List.mem_reverse.mp hu)) hreach
      simp [seek, hs, hnone]

theorem Ascending.leads {xs : Array Run} (h : Ascending xs.toList) (side : Side) (offset : Nat) :
    Leads (Run.reaches side offset) xs :=
  Leads.of_pairwise (h.imp Run.reaches_of_le)

/-- Halving finds the run that a walk along the runs ends at. -/
theorem RunTable.runAt?_eq {t : RunTable} (ht : t.runs.toList = r :: rs)
    (h : Ascending (r :: rs)) : t.runAt? side offset = some (seek side offset r rs) := by
  have hleads := (ht ▸ h : Ascending t.runs.toList).leads side offset
  rw [RunTable.runAt?, ← Array.getElem?_toList, ht]
  refine getElem?_pred_of_lt_iff fun i ↦ ?_
  rw [lt_countLeading_iff hleads, ← Array.getElem?_toList, ht]

theorem Line.runAt?_eq {l : Line} (hl : l.runs.toList = l.first :: rs)
    (h : Ascending (l.first :: rs)) :
    l.runAt? side offset = some (seek side offset l.first rs) := by
  rw [Line.runAt?, Array.findRev?_eq_find?_reverse, ← Array.find?_toList,
    Array.toList_reverse, hl, List.reverse_cons, List.find?_append, ← find?_reverse_getD h]
  cases rs.reverse.find? (Run.reaches side offset) with
  | none => cases hr : l.first.reaches side offset <;> simp [hr]
  | some u => rfl

theorem RunTable.sourceOffset_eq {t : RunTable} (h : Ascending t.runs.toList) :
    RunIndex.sourceOffset side t offset = offsetIn side offset t.runs.toList := by
  cases ht : t.runs.toList with
  | nil =>
    have hempty : t.runs = #[] := by simpa using ht
    simp [RunIndex.sourceOffset, RunIndex.runAt?, RunTable.runAt?, hempty, offsetIn]
  | cons r rs =>
    rw [ht] at h
    simp [RunIndex.sourceOffset, RunIndex.runAt?, RunTable.runAt?_eq ht h, offsetIn]

theorem Line.sourceOffset_eq {l : Line} (h : Ascending l.runs.toList) :
    RunIndex.sourceOffset side l offset = offsetIn side offset l.runs.toList := by
  obtain ⟨rs, hl⟩ := l.exists_cons
  rw [hl] at h ⊢
  simp [RunIndex.sourceOffset, RunIndex.runAt?, Line.runAt?_eq hl h, offsetIn]

namespace Tiling

variable {source clean : Span} {a b : Nat}

theorem offsetIn_of_mem (h : Tiling source clean rs) (hr : r ∈ rs)
    (hoffset : r.clean.Holds side offset) : offsetIn side offset rs = r.sourceAt offset := by
  obtain ⟨as, bs, rfl⟩ := List.append_of_mem hr
  rw [List.append_cons] at h ⊢
  refine offsetIn_append_cons h.ascending (Run.reaches_of_holds hoffset) ?_
  intro b hb
  have hpair := (List.pairwise_append.mp h.pairwise).2.2 r (by simp) b hb
  exact Run.not_reaches_of_holds hoffset hpair.2

theorem start_le_seek (h : Tiling source clean (r :: rs)) :
    r.source.start ≤ (seek side offset r rs).sourceAt offset := by
  induction rs generalizing r source clean with
  | nil => exact Run.start_le_sourceAt (Nat.le_of_lt h.2.1)
  | cons s rs ih =>
    simp only [seek]
    split
    · have hs := ih h.tail
      have hle := h.tail.1
      have hlt := h.2.1
      simp only at hle
      omega
    · exact Run.start_le_sourceAt (Nat.le_of_lt h.2.1)

theorem sourceAt_le_seek (h : Tiling source clean (r :: s :: rs)) :
    r.sourceAt a ≤ (seek side b s rs).sourceAt b :=
  calc r.sourceAt a ≤ r.source.stop := Run.sourceAt_le_stop (Nat.le_of_lt h.2.1)
    _ ≤ s.source.start := h.tail.1
    _ ≤ (seek side b s rs).sourceAt b := h.tail.start_le_seek

/-- Where every run that the one reading reaches is reached by the other, the other comes from no
earlier markup. -/
theorem offsetIn_le_offsetIn {side' : Side} (h : Tiling source clean rs) (hab : a ≤ b)
    (hreach : ∀ r : Run, r.reaches side a → r.reaches side' b) :
    offsetIn side a rs ≤ offsetIn side' b rs := by
  cases rs with
  | nil => exact Nat.le_refl 0
  | cons r rs =>
    simp only [offsetIn]
    induction rs generalizing r source clean with
    | nil => exact Run.sourceAt_mono (Nat.le_of_lt h.2.1) hab
    | cons s rs ih =>
      simp only [seek]
      by_cases hs : s.reaches side a
      · rw [if_pos hs, if_pos (hreach s hs)]
        exact ih s h.tail
      · rw [if_neg hs]
        split
        · exact h.sourceAt_le_seek
        · exact Run.sourceAt_mono (Nat.le_of_lt h.2.1) hab

/-- A later clean offset comes from no earlier markup. -/
theorem offsetIn_mono (h : Tiling source clean rs) (hab : a ≤ b) :
    offsetIn side a rs ≤ offsetIn side b rs := by
  refine h.offsetIn_le_offsetIn hab fun r hr ↦ ?_
  cases side <;> simp only [Run.reaches, decide_eq_true_eq] at hr ⊢ <;> omega

/-- The right end of a range lies no further than a left end at the same clean offset. -/
theorem offsetIn_right_le_left (h : Tiling source clean rs) :
    offsetIn .right offset rs ≤ offsetIn .left offset rs := by
  refine h.offsetIn_le_offsetIn (Nat.le_refl _) fun r hr ↦ ?_
  simp only [Run.reaches, decide_eq_true_eq] at hr ⊢
  omega

end Tiling

end MarkupText
