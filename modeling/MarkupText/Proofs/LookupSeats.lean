import Mathlib.Data.List.Chain
import MarkupText.Proofs.Lookups

namespace MarkupText

open RunIndex

/-- The run at the place `i` is the last that reaches an offset, or it is the first and none does. -/
structure IsSeat (side : Side) (offset : Nat) (rs : Array Run) (i : Nat) : Prop where
  lt_size : i < rs.size
  reaches : i = 0 ∨ rs[i].reaches side offset
  not_after : ∀ j (hj : j < rs.size), i < j → rs[j].reaches side offset = false

variable {side : Side} {offset i j : Nat} {rs : Array Run} {l : Line}

theorem ascending_of_isChain {rs : List Run}
    (h : rs.IsChain fun r s ↦ r.clean.start ≤ s.clean.start) : Ascending rs := by
  have htrans : IsTrans Run fun r s ↦ r.clean.start ≤ s.clean.start := ⟨fun _ _ _ ↦ Nat.le_trans⟩
  exact h.pairwise

namespace IsSeat

theorem le (h : IsSeat side offset rs i) (h' : IsSeat side offset rs j) : i ≤ j := by
  by_contra hlt
  have hnot := h'.not_after i h.lt_size (Nat.lt_of_not_le hlt)
  rcases h.reaches with hzero | hreaches
  · omega
  · simp [hnot] at hreaches

theorem unique (h : IsSeat side offset rs i) (h' : IsSeat side offset rs j) : i = j :=
  Nat.le_antisymm (h.le h') (h'.le h)

end IsSeat

/-- Halving finds the seat in runs that are in order. -/
theorem isSeat_countLeading (hpos : 0 < rs.size) (h : Ascending rs.toList) :
    IsSeat side offset rs (countLeading (Run.reaches side offset) rs - 1) := by
  have hcount := lt_countLeading_iff (h.leads side offset)
  have hreaches (j : Nat) (hj : j < rs.size) :
      j < countLeading (Run.reaches side offset) rs ↔ rs[j].reaches side offset := by
    rw [hcount, Array.getElem?_eq_getElem hj, Option.any_some]
  have hsize : countLeading (Run.reaches side offset) rs ≤ rs.size := by
    by_contra hlt
    have hany := (hcount rs.size).mp (Nat.lt_of_not_le hlt)
    simp at hany
  have hlt : countLeading (Run.reaches side offset) rs - 1 < rs.size := by omega
  refine ⟨hlt, ?_, ?_⟩
  · rcases Nat.eq_zero_or_pos (countLeading (Run.reaches side offset) rs) with hzero | hsome
    · exact .inl (by rw [hzero])
    · exact .inr ((hreaches _ hlt).mp (Nat.sub_lt hsome Nat.one_pos))
  · intro j hj hafter
    by_contra hreach
    have hlow := (hreaches j hj).mpr (by simpa using hreach)
    omega

/-- The scan from the newest run back finds the seat in any order of the runs. -/
theorem Line.runAt?_of_isSeat (h : IsSeat side offset l.runs i) :
    l.runAt? side offset = l.runs[i]? := by
  obtain ⟨hlt, hreaches, hafter⟩ := h
  have hlater (j : Nat) (hj : j < l.runs.reverse.size) (hfront : j < l.runs.size - 1 - i) :
      l.runs.reverse[j].reaches side offset = false := by
    rw [Array.getElem_reverse]
    exact hafter _ _ (by omega)
  rw [Line.runAt?, Array.findRev?_eq_find?_reverse, Array.getElem?_eq_getElem hlt]
  by_cases hreach : l.runs[i].reaches side offset
  · have hfound : l.runs.reverse.find? (Run.reaches side offset) = some l.runs[i] := by
      refine Array.find?_eq_some_iff_getElem.mpr ⟨hreach, l.runs.size - 1 - i, ?_, ?_, ?_⟩
      · rw [Array.size_reverse]
        omega
      · rw [Array.getElem_reverse]
        congr
        omega
      · intro j hj
        rw [hlater j _ hj, Bool.not_false]
    rw [hfound]
    rfl
  · obtain rfl : i = 0 := hreaches.resolve_right hreach
    have hnone : l.runs.reverse.find? (Run.reaches side offset) = none := by
      refine Array.find?_eq_none.mpr ?_
      intro r hr hreach'
      obtain ⟨j, hj, rfl⟩ := Array.mem_iff_getElem.mp (Array.mem_reverse.mp hr)
      rcases Nat.eq_zero_or_pos j with hzero | hpos
      · subst hzero
        exact hreach hreach'
      · simp [hafter j hj hpos] at hreach'
    rw [hnone]
    rfl

/-- Both searches answer by the same run. They need no more of the runs than that none starts before
the one in front of it: they may be empty, and leave gaps. -/
theorem searches_agree (rs : Array Run) (hpos : 0 < rs.size)
    (hsorted : rs.toList.IsChain fun r s ↦ r.clean.start ≤ s.clean.start) :
    (∀ side offset, ∃ i, (∀ j, IsSeat side offset rs j ↔ j = i) ∧
      RunTable.runAt? ⟨rs⟩ side offset = rs[i]? ∧
      Line.runAt? ⟨rs, hpos⟩ side offset = rs[i]?) ∧
    (∀ side offset, sourceOffset side (⟨rs⟩ : RunTable) offset =
      sourceOffset side (⟨rs, hpos⟩ : Line) offset) ∧
    ∀ clean, sourceSpan (⟨rs⟩ : RunTable) clean = sourceSpan (⟨rs, hpos⟩ : Line) clean := by
  have hseat (side : Side) (offset : Nat) :=
    @isSeat_countLeading side offset rs hpos (ascending_of_isChain hsorted)
  have hline (side : Side) (offset : Nat) :=
    @Line.runAt?_of_isSeat side offset _ ⟨rs, hpos⟩ (hseat side offset)
  have hoffset (side : Side) (offset : Nat) : sourceOffset side (⟨rs⟩ : RunTable) offset =
      sourceOffset side (⟨rs, hpos⟩ : Line) offset := by
    have hsame : RunTable.runAt? ⟨rs⟩ side offset = Line.runAt? ⟨rs, hpos⟩ side offset :=
      (hline side offset).symm
    simp only [sourceOffset, RunIndex.runAt?, hsame]
  refine ⟨?_, hoffset, ?_⟩
  · intro side offset
    refine ⟨_, ?_, rfl, hline side offset⟩
    intro j
    constructor
    · intro hj
      exact hj.unique (hseat side offset)
    · intro hj
      exact hj ▸ hseat side offset
  · intro clean
    simp only [sourceSpan, hoffset]

theorem searches_agree_gap : ∃ (rs : Array Run) (hpos : 0 < rs.size),
    (rs.toList.IsChain fun r s ↦ r.clean.start ≤ s.clean.start) ∧
    (∃ r ∈ rs.toList, r.clean.start = 3 ∧ r.clean.isEmpty) ∧
    sourceOffset .right (⟨rs⟩ : RunTable) 5 = 4 ∧
    sourceOffset .right (⟨rs, hpos⟩ : Line) 5 = 4 := by
  let rs : Array Run :=
    #[⟨⟨0, 2⟩, ⟨1, 3⟩, false⟩, ⟨⟨4, 4⟩, ⟨3, 3⟩, false⟩, ⟨⟨5, 8⟩, ⟨6, 9⟩, false⟩]
  have hpos : 0 < rs.size := by decide
  have hsorted : rs.toList.IsChain fun r s ↦ r.clean.start ≤ s.clean.start := by decide
  have hempty : ∃ r ∈ rs.toList, r.clean.start = 3 ∧ r.clean.isEmpty := by decide
  have hline : sourceOffset .right (⟨rs, hpos⟩ : Line) 5 = 4 := rfl
  exact ⟨rs, hpos, hsorted, hempty, ((searches_agree rs hpos hsorted).2.1 .right 5).trans hline,
    hline⟩

end MarkupText
