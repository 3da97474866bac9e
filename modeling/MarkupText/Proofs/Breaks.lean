import MarkupText.Proofs.Trimming

namespace MarkupText

open Text

def BreakClass.canEnd (c : BreakClass) : Bool :=
  c.isTransparent || c == space || c == closing || c.isTerm || c.endsParagraph

namespace Past

variable {past : Past} {c d : BreakClass} {as bs ahead : List BreakClass}

theorem after_of_not_canEnd (hc : c.canEnd = false) : past.after c = c :: past := by
  simp only [BreakClass.canEnd, Bool.or_eq_false_iff, beq_eq_false_iff_ne] at hc
  simp [after, push, hc]

/-- No rule puts a boundary after a character unless it or a mark before it ends a sentence. -/
theorem breaksBefore_of_not_canEnd (hc : c.canEnd = false) :
    breaksBefore (c :: past) d ahead = false := by
  simp only [BreakClass.canEnd, Bool.or_eq_false_iff, beq_eq_false_iff_ne] at hc
  obtain ⟨⟨⟨⟨-, hspace⟩, hclosing⟩, hterm⟩, hparagraph⟩ := hc
  have hbefore : beforeSpace (c :: past) = some c := by
    simp [beforeSpace, skip, hspace, hclosing]
  have hbefore' : beforeClosing (c :: past) = some c := by
    simp [beforeClosing, skip, hclosing]
  have hends : endsParagraph (c :: past) = false := hparagraph
  unfold breaksBefore
  simp [hbefore, hbefore', hends, hterm]

theorem exists_boundaries_append (past : Past) (as bs : List BreakClass) :
    ∃ front, boundaries past (as ++ bs) = front ++ boundaries (as.foldl after past) bs ∧
      front.length = as.length := by
  induction as generalizing past with
  | nil => exact ⟨[], rfl, rfl⟩
  | cons c as ih =>
    obtain ⟨front, hfront, hlen⟩ := ih (past.after c)
    exact ⟨past.breaksBefore c (as ++ bs) :: front, by simp [boundaries, hfront], by simp [hlen]⟩

end Past

variable {cs front back piece : Text} {c d e : Char} {pieces ps qs : List Text} {r : Span}

theorem exists_mark_of_cut {l : List (Char × Bool)} (h : (cutMarked l).2 = ps ++ piece :: qs) :
    ∃ as c bs, l = as ++ (c, true) :: bs ∧
      as.map Prod.fst = (cutMarked l).1 ++ ps.flatten := by
  induction l generalizing ps with
  | nil => simp [cutMarked] at h
  | cons x l ih =>
    obtain ⟨c, marked⟩ := x
    cases marked with
    | false =>
      obtain ⟨as, d, bs, hl, has⟩ := ih h
      exact ⟨(c, false) :: as, d, bs, by rw [hl]; rfl, by simp [cutMarked, has]⟩
    | true =>
      cases ps with
      | nil => exact ⟨[], c, l, rfl, rfl⟩
      | cons p ps =>
        obtain ⟨hp, hrest⟩ := List.cons.inj h
        obtain ⟨as, d, bs, hl, has⟩ := ih hrest
        refine ⟨(c, true) :: as, d, bs, by rw [hl]; rfl, ?_⟩
        rw [List.map_cons, has, List.flatten_cons, ← hp]
        rfl

/-- A candidate ends only after a character that may end a sentence. -/
theorem canEnd_of_candidates (h : candidates cs = ps ++ piece :: qs)
    (hps : ps.flatten = front ++ [d]) : (BreakClass.ofChar d).canEnd := by
  refine (Bool.eq_false_or_eq_true _).resolve_right ?_
  intro hd
  obtain ⟨as, c, bs, hzip, has⟩ := exists_mark_of_cut h
  rw [cutMarked_candidates, List.nil_append, hps] at has
  have hcs := congrArg (List.map Prod.fst) hzip
  rw [List.map_fst_zip (by simp [length_boundaries]), List.map_append, has, List.map_cons] at hcs
  subst hcs
  obtain ⟨marks, hmarks, hlen⟩ := Past.exists_boundaries_append []
    ((front ++ [d]).map BreakClass.ofChar) ((c :: bs.map Prod.fst).map BreakClass.ofChar)
  rw [List.map_append, hmarks, List.zip_append (by simp [hlen])] at hzip
  have hlen' : as.length = (front ++ [d]).length := by rw [← has, List.length_map]
  obtain ⟨-, hzip⟩ := List.append_inj hzip (by simp [hlen, hlen'])
  rw [List.map_cons, Past.boundaries, List.zip_cons_cons, List.map_append, List.foldl_append,
    List.map_singleton, List.foldl_cons, List.foldl_nil, Past.after_of_not_canEnd hd,
    Past.breaksBefore_of_not_canEnd hd] at hzip
  simp at hzip

theorem exists_of_joinTitles {titles : Titles} {held : Text}
    (h : joinTitles titles held pieces = ps ++ piece :: qs) (hps : ps ≠ []) :
    ∃ ps' piece' qs', pieces = ps' ++ piece' :: qs' ∧ held ++ ps'.flatten = ps.flatten := by
  obtain ⟨p, ps, rfl⟩ := List.exists_cons_of_ne_nil hps
  fun_induction joinTitles titles held pieces generalizing p ps with
  | case1 held => cases h
  | case2 held last => simp at h
  | case3 held first next pieces hends ih =>
    obtain ⟨ps', piece', qs', hpieces, hflatten⟩ := ih p ps h hps
    refine ⟨first :: ps', piece', qs', by rw [hpieces]; rfl, ?_⟩
    rw [← hflatten, List.flatten_cons, List.append_assoc]
  | case4 held first next pieces hends ih =>
    obtain ⟨rfl, hrest⟩ := List.cons.inj h
    cases ps with
    | nil => exact ⟨[first], next, pieces, rfl, by simp⟩
    | cons q ps =>
      obtain ⟨ps', piece', qs', hpieces, hflatten⟩ := ih q ps hrest (List.cons_ne_nil q ps)
      refine ⟨first :: ps', piece', qs', by rw [hpieces]; rfl, ?_⟩
      rw [List.flatten_cons, List.flatten_cons, ← hflatten, List.append_assoc]
      rfl

/-- A sentence that goes on without a blank ends after a character that may end one. -/
theorem Splitter.canEnd_of_split {s : Splitter} (h : r ∈ s.split cs)
    (hcs : cs = front ++ d :: e :: back) (hstop : r.stop = byteLength front + d.utf8Size)
    (he : isBlank e = false) : (BreakClass.ofChar d).canEnd := by
  obtain ⟨ps, piece, qs, hpieces, hr⟩ := exists_piece_of_mem_trimmedSpans h
  obtain ⟨as, body, bs, rfl, -, hbs, -, rfl⟩ := trimmedSpan?_eq_some hr
  have hflatten := s.flatten_pieces cs
  rw [hpieces, hcs, List.flatten_append, List.flatten_cons] at hflatten
  have hcut : (ps.flatten ++ (as ++ body)) ++ (bs ++ qs.flatten) = (front ++ [d]) ++ e :: back := by
    simpa using hflatten
  obtain ⟨hfront, hback⟩ := append_inj_of_byteLength hcut (by
    simp only [byteLength_append, byteLength_cons, byteLength_nil] at hstop ⊢
    omega)
  obtain rfl : bs = [] := by
    cases bs with
    | nil => rfl
    | cons b bs =>
      obtain ⟨rfl, -⟩ := List.cons.inj hback
      simp [hbs b List.mem_cons_self] at he
  cases qs with
  | nil => cases hback
  | cons q qs =>
    have hjoin : joinTitles s.rules.titles [] (candidates cs) =
        (ps ++ [as ++ (body ++ [])]) ++ q :: qs := by
      rw [hpieces, List.append_assoc]
      rfl
    obtain ⟨ps', q', qs', hcandidates, hps'⟩ := exists_of_joinTitles hjoin (by simp)
    have hend : ps'.flatten = front ++ [d] := by
      rw [← List.nil_append ps'.flatten, hps', ← hfront]
      simp
    exact canEnd_of_candidates hcandidates hend

end MarkupText
