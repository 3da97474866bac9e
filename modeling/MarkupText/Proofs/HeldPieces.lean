import MarkupText.Proofs.Trimming

namespace MarkupText

open Text

variable {σ : Type} {s : Splitter} {cs front held piece : Text} {pieces : List Text}
  {emit : σ → Span → σ} {x : σ} {start? : Option Nat} {offset : Nat}

/-- The text that is held back and the next piece are one part of the whole text. -/
theorem slice?_held (hcs : cs = front ++ (held ++ (piece :: pieces).flatten)) :
    slice? cs ⟨byteLength front, byteLength front + byteLength held + byteLength piece⟩ =
      some (held ++ piece) := by
  have hslice := slice?_append front (held ++ piece) pieces.flatten
  rwa [List.append_assoc held, ← List.flatten_cons, ← hcs, byteLength_append,
    ← Nat.add_assoc] at hslice

namespace Splitter

/-- What the loop still has to hand out, where it holds the text `held` back. -/
theorem eachFrom_eq (hcs : cs = front ++ (held ++ pieces.flatten))
    (hstart : start?.getD offset = byteLength front)
    (hoffset : offset = byteLength front + byteLength held) :
    s.eachFrom cs emit x start? offset pieces =
      (trimmedSpans (byteLength front) (joinTitles s.rules.titles held pieces)).foldl emit x := by
  induction pieces generalizing front held start? offset x with
  | nil => rfl
  | cons piece pieces ih =>
    have hcs' : cs = front ++ ((held ++ piece) ++ pieces.flatten) := by
      rw [hcs, List.flatten_cons, List.append_assoc]
    have hstop : byteLength front + byteLength held + byteLength piece =
        byteLength front + byteLength (held ++ piece) := by
      rw [byteLength_append, Nat.add_assoc]
    have hfoldl (r? : Option Span) (rs : List Span) :
        (r?.toList ++ rs).foldl emit x = rs.foldl emit (r?.elim x (emit x)) := by
      cases r? <;> rfl
    subst hoffset
    simp only [eachFrom, hstart, slice?_held hcs, Option.getD_some]
    cases pieces with
    | nil =>
      rw [List.isEmpty_nil, Bool.not_true, Bool.false_and, if_neg Bool.false_ne_true, eachFrom,
        joinTitles, trimmedSpans, hfoldl, trimmedSpans, List.foldl_nil]
    | cons next pieces =>
      rw [List.isEmpty_cons, Bool.not_false, Bool.true_and, joinTitles]
      split
      · apply ih hcs'
        · rfl
        · exact hstop
      · have hfront : byteLength front + byteLength (held ++ piece) =
            byteLength (front ++ (held ++ piece)) := (byteLength_append ..).symm
        rw [trimmedSpans, hfoldl, hfront]
        apply ih
        · rw [List.nil_append, hcs', List.append_assoc front]
        · rw [Option.getD_none, hstop, hfront]
        · rw [hstop, hfront, byteLength_nil, Nat.add_zero]

theorem each_eq (s : Splitter) (cs : Text) (emit : σ → Span → σ) (x : σ) :
    s.each cs emit x = (s.split cs).foldl emit x := by
  have hcs : cs = [] ++ ([] ++ (candidates cs).flatten) := (candidates_flatten cs).symm
  exact eachFrom_eq hcs rfl rfl

theorem toList_splitInto (s : Splitter) (spans : Array Span) (cs : Text) :
    (s.splitInto spans cs).toList = spans.toList ++ s.split cs := by
  rw [splitInto, each_eq, List.foldl_push_eq_append', Array.toList_append, List.toList_toArray]

theorem split_of_allBlank (hcs : allBlank cs) : s.split cs = [] := by
  apply List.eq_nil_iff_forall_not_mem.mpr
  intro r hr
  obtain ⟨as, body, bs, hflatten, hbody, -⟩ := exists_of_mem_trimmedSpans hr
  obtain ⟨c, rest, rfl, hc⟩ := hbody.head
  rw [flatten_pieces] at hflatten
  have hblank := List.all_eq_true.mp hcs c (by rw [hflatten]; simp)
  simp [hblank] at hc

theorem toList_splitLineInto (s : Splitter) (clean : Text) (xs : Array Sentence) (l : Line) :
    (s.splitLineInto clean xs l).toList = xs.toList ++ s.splitLine clean l := by
  rw [splitLineInto, splitLine]
  split
  · rename_i hblank
    rw [split_of_allBlank hblank, List.map_nil, List.append_nil]
  · rw [each_eq, List.foldl_push_eq_append, Array.toList_append, List.toList_toArray]

theorem toList_foldl_splitLineInto (s : Splitter) (clean : Text) (xs : Array Sentence)
    (lines : Array Line) : (lines.foldl (s.splitLineInto clean) xs).toList =
      xs.toList ++ s.splitLines clean lines := by
  rw [← Array.foldl_toList, splitLines]
  induction lines.toList generalizing xs with
  | nil => rw [List.foldl_nil, List.flatMap_nil, List.append_nil]
  | cons l lines ih =>
    rw [List.foldl_cons, ih, toList_splitLineInto, List.flatMap_cons, List.append_assoc]

end Splitter

end MarkupText
