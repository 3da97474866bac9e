import MarkupText.Recall

namespace MarkupText.Recall

variable {α : Type} {hit : α → Bool} {xs : List α} {known : Option Recall} {pos d : Nat}

theorem search_cons (hit : α → Bool) (pos : Nat) (x : α) (xs : List α) :
    search hit pos (x :: xs) = if hit x then some pos else search hit (pos + 1) xs := by
  simp only [search, List.findIdx?_cons]
  split
  · rfl
  · rw [Option.map_map]
    congr 1
    funext i
    simp only [Function.comp_apply]
    omega

theorem search_drop (h : ∀ i, search hit pos xs = some i → pos + d ≤ i) :
    search hit (pos + d) (xs.drop d) = search hit pos xs := by
  induction d generalizing pos xs with
  | zero => rfl
  | succ d ih =>
    cases xs with
    | nil => rfl
    | cons x xs =>
      rw [search_cons] at h ⊢
      split at h
      · have hle := h pos rfl
        omega
      · rename_i hx
        rw [if_neg hx, List.drop_succ_cons, show pos + (d + 1) = pos + 1 + d by omega]
        refine ih ?_
        intro i hi
        have hle := h i hi
        omega

def Sound (hit : α → Bool) (xs : List α) (known : Option Recall) : Prop :=
  ∀ m, known = some m → m.found = search hit m.asked (xs.drop m.asked)

theorem search_of_covers {m : Recall} (h : m.found = search hit m.asked (xs.drop m.asked))
    (hcovers : m.covers pos) : search hit pos (xs.drop pos) = m.found := by
  simp only [covers, Bool.and_eq_true, decide_eq_true_eq] at hcovers
  obtain ⟨d, rfl⟩ := Nat.exists_eq_add_of_le hcovers.1
  rw [h, ← List.drop_drop]
  refine search_drop ?_
  intro i hi
  rw [h, hi, Option.all_some, decide_eq_true_eq] at hcovers
  exact hcovers.2

theorem sound_renew (h : Sound hit xs known) (pos : Nat) :
    (renew hit known pos (xs.drop pos)).found = search hit pos (xs.drop pos) ∧
      Sound hit xs (some (renew hit known pos (xs.drop pos))) := by
  unfold renew
  split
  · rename_i m hm
    obtain ⟨hknown, hcovers⟩ := Option.filter_eq_some_iff.mp hm
    have hfound := h m hknown
    refine ⟨(search_of_covers hfound hcovers).symm, ?_⟩
    intro m' hm'
    cases hm'
    exact hfound
  · refine ⟨rfl, ?_⟩
    intro m' hm'
    cases hm'
    rfl

end MarkupText.Recall
