import MarkupText.Text.Basic

namespace MarkupText

variable {α : Type} {x y : α} {xss : List (List α)}

theorem intercalate_cons (x : α) (xs : List α) (xss : List (List α)) :
    [x].intercalate (xs :: xss) = xs ++ xss.flatMap (x :: ·) := by
  induction xss generalizing xs with
  | nil => simp [List.intercalate]
  | cons ys xss ih =>
    rw [List.intercalate_cons_cons, ih, List.flatMap_cons, List.append_assoc]
    rfl

theorem mem_intercalate (h : y ∈ [x].intercalate xss) : y = x ∨ ∃ xs ∈ xss, y ∈ xs := by
  cases xss with
  | nil => cases h
  | cons xs xss =>
    rw [intercalate_cons, List.mem_append, List.mem_flatMap] at h
    rcases h with h | ⟨ys, hys, h⟩
    · exact .inr ⟨xs, List.mem_cons_self, h⟩
    · obtain rfl | h := List.mem_cons.mp h
      · exact .inl rfl
      · exact .inr ⟨ys, List.mem_cons_of_mem xs hys, h⟩

/-- Pieces that each end at `x` are found again by splitting there, with nothing after the last. -/
theorem splitOn_flatMap [BEq α] [LawfulBEq α] (h : ∀ xs ∈ xss, x ∉ xs) :
    (xss.flatMap (· ++ [x])).splitOn x = xss ++ [[]] := by
  have hlast : [x].intercalate (xss ++ [[]]) = xss.flatMap (· ++ [x]) := by
    induction xss with
    | nil => rfl
    | cons xs xss ih =>
      have hrest := ih (List.forall_mem_cons.mp h).2
      cases xss with
      | nil => simp [List.intercalate]
      | cons ys xss =>
        rw [List.flatMap_cons, ← hrest]
        exact List.intercalate_cons_cons
  rw [← hlast]
  apply List.splitOn_intercalate
  · intro xs hxs
    rcases List.mem_append.mp hxs with hxs | hxs
    · exact h xs hxs
    · rw [List.mem_singleton.mp hxs]
      exact List.not_mem_nil
  · exact List.append_ne_nil_of_right_ne_nil xss (List.cons_ne_nil [] [])

end MarkupText
