import MarkupText.Proofs.ByteOffsets

namespace MarkupText

open Text

variable {m cs : Text} {s : TagSearch} {known : Option Recall}
  {start pos i : Nat} {c q : Char}

namespace Recall

def inBytes (m : Text) (r : Recall) : Recall :=
  ⟨byteOffset m r.asked, r.found.map (byteOffset m)⟩

def Within (m : Text) (known : Option Recall) : Prop := ∀ r ∈ known, r.asked ≤ m.length

theorem covers_inBytes {r : Recall} (hr : r.asked ≤ m.length) (hpos : pos ≤ m.length) :
    (r.inBytes m).covers (byteOffset m pos) = r.covers pos := by
  unfold covers inBytes
  simp only [byteOffset_le_iff hr, Option.all_map, byteOffset_le_iff hpos]

theorem search_inBytes (m : Text) (hit : Char → Bool) (pos : Nat) :
    (search hit pos (m.drop pos)).map (byteOffset m) =
      ((m.drop pos).findIdx? hit).map fun i ↦ byteOffset m pos + byteOffset (m.drop pos) i := by
  rw [search, Option.map_map]
  congr 1
  funext i
  exact byteOffset_add m pos i

theorem renew?_eq (hit : Char → Bool) (hknown : Within m known) (hpos : pos ≤ m.length) :
    ByteLexer.renew? m hit (known.map (inBytes m)) (byteOffset m pos) =
        some ((renew hit known pos (m.drop pos)).inBytes m) ∧
      Within m (some (renew hit known pos (m.drop pos))) := by
  have hfilter : (known.map (inBytes m)).filter (·.covers (byteOffset m pos)) =
      (known.filter (·.covers pos)).map (inBytes m) := by
    cases known with
    | none => rfl
    | some r =>
      simp only [Option.map_some, Option.filter_some, covers_inBytes (hknown r rfl) hpos]
      split <;> rfl
  unfold ByteLexer.renew? renew
  rw [hfilter]
  cases hfresh : known.filter (·.covers pos) with
  | some r =>
    refine ⟨rfl, ?_⟩
    rintro r' ⟨⟩
    exact hknown r (Option.filter_eq_some_iff.mp hfresh).1
  | none =>
    refine ⟨?_, ?_⟩
    · simp only [Option.map_none, dropBytes?_byteOffset, Option.map_some, ← search_inBytes]
      rfl
    · rintro r ⟨⟩
      exact hpos

theorem getElem?_of_search (h : search (· == q) pos (m.drop pos) = some i) :
    pos ≤ i ∧ m[i]? = some q := by
  obtain ⟨n, hn, rfl⟩ := Option.map_eq_some_iff.mp h
  obtain ⟨hlt, hq, -⟩ := List.findIdx?_eq_some_iff_getElem.mp hn
  refine ⟨Nat.le_add_right pos n, ?_⟩
  rw [← List.getElem?_drop, List.getElem?_eq_getElem hlt, beq_iff_eq.mp hq]

end Recall

namespace TagSearch

def inBytes (m : Text) (s : TagSearch) : TagSearch where
  close := s.close.map (Recall.inBytes m)
  double := s.double.map (Recall.inBytes m)
  single := s.single.map (Recall.inBytes m)
  exhausted? := s.exhausted?.map (byteOffset m)

structure Within (m : Text) (s : TagSearch) : Prop where
  close : Recall.Within m s.close
  double : Recall.Within m s.double
  single : Recall.Within m s.single

theorem within_empty (m : Text) : Within m {} := by
  refine ⟨?_, ?_, ?_⟩ <;>
  · intro r hr
    cases hr

structure SameAnswer (m : Text) (x : Option Nat × TagSearch)
    (y : Option (Option Nat × TagSearch)) : Prop where
  answer : y = some (x.1.map (byteOffset m), x.2.inBytes m)
  within : x.2.Within m

theorem nextQuote?_same (h : s.Within m) (hpos : pos ≤ m.length) (q : Char) :
    SameAnswer m (s.nextQuote q pos (m.drop pos))
      (ByteLexer.nextQuote? m (s.inBytes m) q (byteOffset m pos)) := by
  unfold ByteLexer.nextQuote? nextQuote
  split
  · obtain ⟨hrenew, hwithin⟩ := Recall.renew?_eq (· == '"') h.double hpos
    have hrecall : (s.inBytes m).double = s.double.map (Recall.inBytes m) := rfl
    exact ⟨by rw [hrecall, hrenew]; rfl, h.close, hwithin, h.single⟩
  · obtain ⟨hrenew, hwithin⟩ := Recall.renew?_eq (· == '\'') h.single hpos
    have hrecall : (s.inBytes m).single = s.single.map (Recall.inBytes m) := rfl
    exact ⟨by rw [hrecall, hrenew]; rfl, h.close, h.double, hwithin⟩

/-- One step of the scan by byte offsets. -/
theorem unquotedClose?_step {x : TagSearch} {atValue : Bool} (hget : m[pos]? = some c) :
    ByteLexer.unquotedClose? m x (byteOffset m pos) atValue =
      if c = '>' then some (some (byteOffset m pos), x)
      else if c = '=' then ByteLexer.unquotedClose? m x (byteOffset m (pos + 1)) true
      else if atValue && ScanState.isQuote c then
        (ByteLexer.nextQuote? m x c (byteOffset m (pos + 1))).bind fun y ↦
          match y with
          | (some i, x) =>
            if byteOffset m pos < i then ByteLexer.unquotedClose? m x (i + 1) false else none
          | (none, x) => ByteLexer.unquotedClose? m x (byteOffset m (pos + 1)) false
      else ByteLexer.unquotedClose? m x (byteOffset m (pos + 1))
        (atValue && TagSearch.isGap c) := by
  have hlt := (List.getElem?_eq_some_iff.mp hget).1
  have hsucc := byteOffset_succ hget
  rw [ByteLexer.unquotedClose?, if_pos (byteOffset_lt_iff.mpr hlt), charAt?_byteOffset, hget]
  simp only [Option.bind_eq_bind, Option.bind_some, hsucc]
  split
  · rfl
  · split
    · rename_i hequals
      rw [hequals]
      rfl
    · split
      · rename_i hquote
        have hone : c.utf8Size = 1 := by
          simp only [Bool.and_eq_true, Bool.or_eq_true, beq_iff_eq] at hquote
          obtain ⟨-, rfl | rfl⟩ := hquote <;> rfl
        rw [hone]
        exact (if_pos hquote).symm
      · rename_i hquote
        exact (if_neg hquote).symm

theorem unquotedClose?_same (hsound : s.Sound m start) (hwithin : s.Within m)
    (hpos : pos ≤ m.length)
    (atValue : Bool) (hcs : cs = m.drop pos) :
    SameAnswer m (s.unquotedClose pos atValue cs)
      (ByteLexer.unquotedClose? m (s.inBytes m) (byteOffset m pos) atValue) := by
  have hcons {pos : Nat} {c : Char} {cs : Text} (hcs : c :: cs = m.drop pos) :
      cs = m.drop (pos + 1) ∧ m[pos]? = some c ∧ pos + 1 ≤ m.length := by
    have hget : m[pos]? = some c := by rw [← List.head?_drop, ← hcs, List.head?_cons]
    refine ⟨?_, hget, (List.getElem?_eq_some_iff.mp hget).1⟩
    rw [← List.tail_drop, ← hcs, List.tail_cons]
  fun_induction unquotedClose s pos atValue cs with
  | case1 s pos atValue =>
    have hend : ¬ byteOffset m pos < byteLength m := by
      rw [byteOffset_lt_iff, Nat.not_lt]
      exact List.drop_eq_nil_iff.mp hcs.symm
    rw [ByteLexer.unquotedClose?, if_neg hend]
    exact ⟨rfl, hwithin⟩
  | case2 s pos atValue cs =>
    obtain ⟨-, hget, -⟩ := hcons hcs
    rw [unquotedClose?_step hget, if_pos rfl]
    exact ⟨rfl, hwithin⟩
  | case3 s pos atValue cs hclose ih =>
    obtain ⟨hrest, hget, hle⟩ := hcons hcs
    rw [unquotedClose?_step hget, if_neg hclose, if_pos rfl]
    exact ih hsound hwithin hle hrest
  | case4 s pos atValue c cs hclose hequals hvalue i s' hnext ih =>
    obtain ⟨hrest, hget, hle⟩ := hcons hcs
    have hsame := nextQuote?_same hwithin hle c
    have hanswers := nextQuote_answers hsound (Bool.and_eq_true_iff.mp hvalue).2 (pos + 1)
    rw [← hrest, hnext] at hsame hanswers
    obtain ⟨hpos', hquote⟩ := Recall.getElem?_of_search (hrest ▸ hanswers.found.symm)
    have hi := (List.getElem?_eq_some_iff.mp hquote).1
    have hone : c.utf8Size = 1 := by
      rcases Bool.or_eq_true_iff.mp (Bool.and_eq_true_iff.mp hvalue).2 with h | h <;>
        rw [beq_iff_eq.mp h] <;> rfl
    have hskip : cs.drop (i - pos) = m.drop (i + 1) := by
      rw [hrest, List.drop_drop, show pos + 1 + (i - pos) = i + 1 by omega]
    rw [unquotedClose?_step hget, if_neg hclose, if_neg hequals,
      if_pos (show (atValue && ScanState.isQuote c) = true from hvalue), hsame.answer]
    simp only [Option.bind_some, Option.map_some]
    rw [if_pos (byteOffset_lt (Nat.lt_of_succ_le hle) hpos'),
      show byteOffset m i + 1 = byteOffset m (i + 1) by rw [byteOffset_succ hquote, hone]]
    exact ih hanswers.sound hsame.within hi hskip
  | case5 s pos atValue c cs hclose hequals hvalue s' hnext ih =>
    obtain ⟨hrest, hget, hle⟩ := hcons hcs
    have hsame := nextQuote?_same hwithin hle c
    have hanswers := nextQuote_answers hsound (Bool.and_eq_true_iff.mp hvalue).2 (pos + 1)
    rw [← hrest, hnext] at hsame hanswers
    rw [unquotedClose?_step hget, if_neg hclose, if_neg hequals,
      if_pos (show (atValue && ScanState.isQuote c) = true from hvalue), hsame.answer]
    exact ih hanswers.sound hsame.within hle hrest
  | case6 s pos atValue c cs hclose hequals hvalue ih =>
    obtain ⟨hrest, hget, hle⟩ := hcons hcs
    rw [unquotedClose?_step hget, if_neg hclose, if_neg hequals,
      if_neg (show ¬ (atValue && ScanState.isQuote c) = true from hvalue)]
    exact ih hsound hwithin hle hrest

/-- Where a scan has met the end of the text compares with a byte offset as with a character. -/
theorem isExhausted_inBytes (hsound : s.Sound m pos) (hpos : pos ≤ m.length) :
    (s.inBytes m).isExhausted (byteOffset m pos) = s.isExhausted pos := by
  unfold isExhausted
  rw [show (s.inBytes m).exhausted? = s.exhausted?.map (byteOffset m) from rfl]
  cases hbegan : s.exhausted? with
  | none => rfl
  | some began =>
    have hle := Nat.le_trans (hsound.exhausted_le began hbegan) hpos
    simp only [Option.map_some, Option.any_some, byteOffset_le_iff hle]

theorem tagEnd?_same (hsound : s.Sound m pos) (hwithin : s.Within m) (hpos : pos ≤ m.length) :
    SameAnswer m (s.tagEnd pos (m.drop pos))
      (ByteLexer.tagEnd? m (s.inBytes m) (byteOffset m pos)) := by
  obtain ⟨hrenew, hclose⟩ := Recall.renew?_eq (· == '>') hwithin.close hpos
  have hsound' := hsound.renew_close pos
  unfold ByteLexer.tagEnd? tagEnd
  rw [show (s.inBytes m).close = s.close.map (Recall.inBytes m) from rfl, hrenew]
  generalize Recall.renew (· == '>') s.close pos (m.drop pos) = r at *
  have hstart : Within m { s with close := some r } := ⟨hclose, hwithin.double, hwithin.single⟩
  have hscan := unquotedClose?_same hsound' hstart hpos false rfl
  simp only [Option.bind_eq_bind, Option.bind_some, show (r.inBytes m).found =
    r.found.map (byteOffset m) from rfl]
  cases hfound : r.found with
  | none => exact ⟨rfl, hstart⟩
  | some first =>
    simp only [Option.map_some]
    have hsame : isExhausted { s.inBytes m with close := some (r.inBytes m) } (byteOffset m pos) =
        isExhausted { s with close := some r } pos := isExhausted_inBytes hsound hpos
    rw [hsame]
    by_cases hexhausted : isExhausted { s with close := some r } pos
    · rw [if_pos hexhausted, if_pos hexhausted]
      exact ⟨rfl, hstart⟩
    · rw [if_neg hexhausted, if_neg hexhausted]
      have hbytes : { s.inBytes m with close := some (r.inBytes m) } =
          ({ s with close := some r } : TagSearch).inBytes m := rfl
      rw [hbytes, hscan.answer, Option.bind_some]
      generalize unquotedClose { s with close := some r } pos false (m.drop pos) = x at hscan ⊢
      obtain ⟨found, s'⟩ := x
      cases found with
      | some i => exact ⟨rfl, hscan.within⟩
      | none =>
        exact ⟨rfl, hscan.within.close, hscan.within.double, hscan.within.single⟩

end TagSearch

end MarkupText
