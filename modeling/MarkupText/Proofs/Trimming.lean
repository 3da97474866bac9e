import MarkupText.Proofs.Pieces

namespace MarkupText

namespace Text

structure IsTrimmed (cs : Text) : Prop where
  head : ∃ c rest, cs = c :: rest ∧ isBlank c = false
  last : ∃ front c, cs = front ++ [c] ∧ isBlank c = false

variable {p : Char → Bool} {cs as bs xs ys : Text} {c : Char}

theorem head_dropWhile (h : cs.dropWhile p = c :: xs) : p c = false := by
  have hstop := List.head?_dropWhile_not p cs
  rw [h] at hstop
  exact hstop

theorem getLast?_dropEndWhile (h : (dropEndWhile p cs).getLast? = some c) : p c = false := by
  rw [dropEndWhile, List.getLast?_reverse] at h
  have hstop := List.head?_dropWhile_not p cs.reverse
  rw [h] at hstop
  exact hstop

/-- The longest ending in `p` is what `dropEndWhile` leaves out. -/
theorem exists_ending (p : Char → Bool) (cs : Text) :
    ∃ ds, cs = dropEndWhile p cs ++ ds ∧ ∀ c ∈ ds, p c := by
  refine ⟨(cs.reverse.takeWhile p).reverse, (dropEndWhile_append p cs).symm, ?_⟩
  intro c hc
  exact List.all_eq_true.mp List.all_takeWhile c (List.mem_reverse.mp hc)

theorem exists_trim (cs : Text) : ∃ ys, cs = cs.takeWhile isBlank ++ (trim cs ++ ys) ∧
    ∀ c ∈ ys, isBlank c := by
  obtain ⟨ys, hrest, hys⟩ := exists_ending isBlank (cs.dropWhile isBlank)
  refine ⟨ys, ?_, hys⟩
  rw [trim, ← hrest, List.takeWhile_append_dropWhile]

theorem isTrimmed_trim (h : trim cs ≠ []) : IsTrimmed (trim cs) := by
  constructor
  · obtain ⟨c, rest, hhead⟩ := List.exists_cons_of_ne_nil h
    obtain ⟨ys, hdrop, -⟩ := exists_ending isBlank (cs.dropWhile isBlank)
    rw [← trim, hhead] at hdrop
    exact ⟨c, rest, hhead, head_dropWhile hdrop⟩
  · have hlast := List.getLast?_eq_some_getLast h
    obtain ⟨front, hfront⟩ := List.getLast?_eq_some_iff.mp hlast
    exact ⟨front, _, hfront, getLast?_dropEndWhile hlast⟩

/-- A character that is not in `p` comes after all of a front that is. -/
theorem byteLength_le_of_front (h : xs ++ c :: ys = as ++ bs) (hp : ∀ d ∈ as, p d)
    (hc : p c = false) : byteLength as ≤ byteLength xs := by
  rcases List.append_eq_append_iff.mp h with ⟨zs, rfl, hzs⟩ | ⟨zs, rfl, -⟩
  · cases zs with
    | nil => simp
    | cons z zs =>
      obtain ⟨rfl, -⟩ := List.cons.inj hzs
      simp [hp c (by simp)] at hc
  · simp

/-- A character that is not in `p` comes before all of a back that is. -/
theorem le_byteLength_of_back (h : xs ++ c :: ys = as ++ bs) (hp : ∀ d ∈ bs, p d)
    (hc : p c = false) : byteLength xs + c.utf8Size ≤ byteLength as := by
  rcases List.append_eq_append_iff.mp h with ⟨zs, rfl, hzs⟩ | ⟨zs, rfl, rfl⟩
  · cases zs with
    | nil =>
      rw [List.nil_append] at hzs
      simp [hp c (hzs ▸ List.mem_cons_self)] at hc
    | cons z zs =>
      obtain ⟨rfl, -⟩ := List.cons.inj hzs
      simp only [byteLength_append, byteLength_cons]
      omega
  · simp [hp c (by simp)] at hc

end Text

open Text

variable {offset : Nat} {piece xs ys : Text} {pieces : List Text} {r : Span} {c : Char}

theorem trimmedSpan?_eq_some (h : trimmedSpan? offset piece = some r) :
    ∃ as body bs, piece = as ++ (body ++ bs) ∧ (∀ d ∈ as, isBlank d) ∧ (∀ d ∈ bs, isBlank d) ∧
      IsTrimmed body ∧
      r = ⟨offset + byteLength as, offset + byteLength as + byteLength body⟩ := by
  unfold trimmedSpan? at h
  dsimp only at h
  split at h
  · cases h
  · rename_i hbody
    obtain ⟨bs, hpiece, hbs⟩ := exists_trim piece
    refine ⟨_, trim piece, bs, hpiece, ?_, hbs, ?_, (Option.some.inj h).symm⟩
    · exact fun d hd ↦ List.all_eq_true.mp List.all_takeWhile d hd
    · exact isTrimmed_trim (by simpa using hbody)

theorem trimmedSpan?_eq_none (h : trimmedSpan? offset piece = none) : ∀ d ∈ piece, isBlank d := by
  unfold trimmedSpan? at h
  dsimp only at h
  split at h
  · rename_i hbody
    obtain ⟨bs, hpiece, hbs⟩ := exists_trim piece
    rw [List.isEmpty_iff.mp hbody, List.nil_append] at hpiece
    intro d hd
    rw [hpiece] at hd
    rcases List.mem_append.mp hd with hd | hd
    · exact List.all_eq_true.mp List.all_takeWhile d hd
    · exact hbs d hd
  · cases h

theorem exists_piece_of_mem_trimmedSpans (h : r ∈ trimmedSpans offset pieces) :
    ∃ ps piece qs, pieces = ps ++ piece :: qs ∧
      trimmedSpan? (offset + byteLength ps.flatten) piece = some r := by
  induction pieces generalizing offset with
  | nil => cases h
  | cons piece pieces ih =>
    rcases List.mem_append.mp h with h | h
    · exact ⟨[], piece, pieces, rfl, Option.mem_toList.mp h⟩
    · obtain ⟨ps, piece', qs, rfl, hr⟩ := ih h
      refine ⟨piece :: ps, piece', qs, rfl, ?_⟩
      rwa [List.flatten_cons, byteLength_append, ← Nat.add_assoc]

/-- What is left of the pieces are parts of the whole text, without blanks around them. -/
theorem exists_of_mem_trimmedSpans (h : r ∈ trimmedSpans offset pieces) :
    ∃ as body bs, pieces.flatten = as ++ (body ++ bs) ∧ IsTrimmed body ∧
      r = ⟨offset + byteLength as, offset + byteLength as + byteLength body⟩ := by
  obtain ⟨ps, piece, qs, rfl, hr⟩ := exists_piece_of_mem_trimmedSpans h
  obtain ⟨as, body, bs, rfl, -, -, hbody, rfl⟩ := trimmedSpan?_eq_some hr
  refine ⟨ps.flatten ++ as, body, bs ++ qs.flatten, by simp, hbody, ?_⟩
  rw [byteLength_append, Nat.add_assoc offset]

theorem pairwise_trimmedSpans (offset : Nat) (pieces : List Text) :
    (trimmedSpans offset pieces).Pairwise fun r s ↦ r.stop ≤ s.start := by
  induction pieces generalizing offset with
  | nil => exact .nil
  | cons piece pieces ih =>
    refine List.pairwise_append.mpr ⟨?_, ih _, ?_⟩
    · cases trimmedSpan? offset piece with
      | none => exact .nil
      | some r => exact List.pairwise_singleton _ r
    · intro r hr s hs
      exact Nat.le_trans (trimmedSpan?_bounds (Option.mem_toList.mp hr)).2.2
        (trimmedSpans_bounds hs).1

/-- Only blanks are lost. -/
theorem exists_trimmedSpan (offset : Nat) (h : pieces.flatten = xs ++ c :: ys)
    (hc : isBlank c = false) : ∃ r ∈ trimmedSpans offset pieces, r.start ≤ offset + byteLength xs ∧
      offset + byteLength xs + c.utf8Size ≤ r.stop := by
  induction pieces generalizing offset xs with
  | nil => simp at h
  | cons piece pieces ih =>
    rw [List.flatten_cons] at h
    rcases List.append_eq_append_iff.mp h with ⟨zs, rfl, hzs⟩ | ⟨zs, rfl, hzs⟩
    · obtain ⟨r, hr, hstart, hstop⟩ := ih (offset + byteLength piece) hzs
      refine ⟨r, List.mem_append_right _ hr, ?_, ?_⟩ <;>
        rw [byteLength_append] <;> omega
    · cases zs with
      | nil =>
        rw [List.append_nil]
        have hrest : pieces.flatten = [] ++ c :: ys := hzs.symm
        obtain ⟨r, hr, hstart, hstop⟩ := ih (offset + byteLength xs) hrest
        exact ⟨r, List.mem_append_right _ hr, hstart, hstop⟩
      | cons z zs =>
        obtain ⟨rfl, -⟩ := List.cons.inj hzs
        cases hr : trimmedSpan? offset (xs ++ c :: zs) with
        | none =>
          have hblank := trimmedSpan?_eq_none hr c (by simp)
          simp [hblank] at hc
        | some r =>
          obtain ⟨as, body, bs, hpiece, has, hbs, -, rfl⟩ := trimmedSpan?_eq_some hr
          have hlow := byteLength_le_of_front hpiece has hc
          have hhigh := le_byteLength_of_back (hpiece.trans (List.append_assoc ..).symm) hbs hc
          refine ⟨_, List.mem_append_left _ (by rw [hr]; exact List.mem_singleton.mpr rfl), ?_, ?_⟩
          · simp only
            omega
          · simp only [byteLength_append] at hhigh ⊢
            omega

theorem Splitter.flatten_pieces (s : Splitter) (cs : Text) :
    (joinTitles s.rules.titles [] (candidates cs)).flatten = cs := by
  by_cases hpieces : candidates cs = []
  · have hcs := candidates_flatten cs
    rw [hpieces] at hcs ⊢
    exact hcs
  · rw [joinTitles_flatten _ _ hpieces, candidates_flatten, List.nil_append]

end MarkupText
