import MarkupText.Outline
import MarkupText.Proofs.Slices

namespace MarkupText

theorem cutMarked_flatten (cs : List (Char × Bool)) :
    (cutMarked cs).1 ++ (cutMarked cs).2.flatten = cs.map Prod.fst := by
  induction cs with
  | nil => rfl
  | cons c cs ih =>
    obtain ⟨c, marked⟩ := c
    cases marked <;> simp [cutMarked, ← ih]

theorem length_boundaries (past : Past) (cs : List BreakClass) :
    (Past.boundaries past cs).length = cs.length := by
  induction cs generalizing past with
  | nil => rfl
  | cons c cs ih => simp [Past.boundaries, ih]

theorem cutMarked_candidates (cs : Text) :
    (cutMarked (cs.zip (Past.boundaries [] (cs.map BreakClass.ofChar)))).1 = [] := by
  cases cs with
  | nil => rfl
  | cons c cs => simp [Past.boundaries, Past.breaksBefore, cutMarked]

theorem candidates_flatten (cs : Text) : (candidates cs).flatten = cs := by
  have h := cutMarked_flatten (cs.zip (Past.boundaries [] (cs.map BreakClass.ofChar)))
  rw [List.map_fst_zip (by simp [length_boundaries])] at h
  rwa [cutMarked_candidates, List.nil_append] at h

theorem joinTitles_flatten (titles : Titles) (held : Text) {pieces : List Text}
    (hpieces : pieces ≠ []) :
    (joinTitles titles held pieces).flatten = held ++ pieces.flatten := by
  fun_induction joinTitles titles held pieces with
  | case1 held => exact absurd rfl hpieces
  | case2 held piece => simp
  | case3 held piece next pieces hends ih => simp [ih]
  | case4 held piece next pieces hends ih => simp [ih]

theorem dropEndWhile_append (p : Char → Bool) (cs : Text) :
    Text.dropEndWhile p cs ++ (cs.reverse.takeWhile p).reverse = cs := by
  rw [Text.dropEndWhile, ← List.reverse_append, List.takeWhile_append_dropWhile,
    List.reverse_reverse]

theorem trimmedSpan?_bounds {offset : Nat} {piece : Text} {r : Span}
    (h : trimmedSpan? offset piece = some r) :
    offset ≤ r.start ∧ r.start < r.stop ∧ r.stop ≤ offset + Text.byteLength piece := by
  unfold trimmedSpan? at h
  dsimp only at h
  split at h
  · cases h
  · rename_i hbody
    cases h
    have hpos := Text.byteLength_pos (by simpa using hbody)
    have hfront := congrArg Text.byteLength
      (List.takeWhile_append_dropWhile (p := Text.isBlank) (l := piece))
    have hback := congrArg Text.byteLength
      (dropEndWhile_append Text.isBlank (piece.dropWhile Text.isBlank))
    simp only [Text.byteLength_append, Text.trim] at hfront hback hpos ⊢
    omega

theorem trimmedSpans_bounds {offset : Nat} {pieces : List Text} {r : Span}
    (h : r ∈ trimmedSpans offset pieces) :
    offset ≤ r.start ∧ r.start < r.stop ∧
      r.stop ≤ offset + Text.byteLength pieces.flatten := by
  induction pieces generalizing offset with
  | nil => cases h
  | cons piece pieces ih =>
    rw [List.flatten_cons, Text.byteLength_append]
    rcases List.mem_append.mp h with h | h
    · have hbounds := trimmedSpan?_bounds (Option.mem_toList.mp h)
      omega
    · have hbounds := ih h
      omega

/-- Sentences lie inside the text and are not empty. -/
theorem split_bounds {s : Splitter} {cs : Text} {r : Span} (h : r ∈ s.split cs) :
    r.start < r.stop ∧ r.stop ≤ Text.byteLength cs := by
  have hbounds := trimmedSpans_bounds h
  by_cases hpieces : candidates cs = []
  · simp only [hpieces, joinTitles, List.flatten_nil, Text.byteLength_nil] at hbounds
    omega
  · rw [joinTitles_flatten _ _ hpieces, candidates_flatten, List.nil_append] at hbounds
    omega

end MarkupText
