import MarkupText.Search

namespace MarkupText

variable {α : Type} {p : α → Bool} {xs : Array α}

def Leads (p : α → Bool) (xs : Array α) : Prop :=
  ∀ i j : Nat, i ≤ j → xs[j]?.any p → xs[i]?.any p

theorem Leads.of_pairwise (h : xs.toList.Pairwise fun x y ↦ p y → p x) : Leads p xs := by
  intro i j hij hj
  rcases Nat.eq_or_lt_of_le hij with rfl | hlt
  · exact hj
  · obtain ⟨y, hy, hpy⟩ := (Option.any_eq_true _ _).mp hj
    obtain ⟨hj, rfl⟩ := Array.getElem?_eq_some_iff.mp hy
    have hi : i < xs.size := by omega
    have hpi := List.pairwise_iff_getElem.mp h i j (by simpa) (by simpa) hlt
    simp only [Array.getElem_toList] at hpi
    simp [Array.getElem?_eq_getElem hi, hpi hpy]

theorem lt_bisect_iff (hp : Leads p xs) (low high i : Nat) (hlow : i < low → xs[i]?.any p)
    (hhigh : xs[i]?.any p → i < high) : i < bisect p xs low high ↔ xs[i]?.any p := by
  fun_induction bisect p xs low high with
  | case1 low high hlt hmid ih =>
    refine ih (fun hi ↦ ?_) hhigh
    exact hp i ((low + high) / 2) (by omega) hmid
  | case2 low high hlt hmid ih =>
    refine ih hlow (fun hi ↦ ?_)
    refine Nat.lt_of_not_le fun hge ↦ hmid ?_
    exact hp ((low + high) / 2) i hge hi
  | case3 low high hge =>
    refine ⟨hlow, fun hi ↦ ?_⟩
    have h := hhigh hi
    omega

/-- Halving the range finds the end of the elements that satisfy `p`. -/
theorem lt_countLeading_iff (hp : Leads p xs) (i : Nat) :
    i < countLeading p xs ↔ xs[i]?.any p := by
  refine lt_bisect_iff hp 0 xs.size i (fun h ↦ absurd h (Nat.not_lt_zero i)) (fun h ↦ ?_)
  refine Nat.lt_of_not_le fun hge ↦ ?_
  rw [Array.getElem?_eq_none hge] at h
  simp at h

end MarkupText
