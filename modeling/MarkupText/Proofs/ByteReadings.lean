import MarkupText.Proofs.ByteOffsets

namespace MarkupText

open Text

variable {m cs : Text} {pos : Nat} {c : Char}

def Lexeme.inBytes (m : Text) (pos : Nat) (x : Lexeme) : ByteLexer.Reading :=
  ⟨x.kind, byteOffset m (pos + 1 + x.more), x.raw⟩

namespace ByteLexer

theorem drop_succ (h : m.drop pos = c :: cs) : m.drop (pos + 1) = cs := by
  rw [← List.tail_drop, h, List.tail_cons]

theorem byteOffset_front (h : m.drop pos = c :: cs) (hc : c.toNat < 128) :
    byteOffset m pos + 1 = byteOffset m (pos + 1) := by
  have hascii : IsAscii [c] := by simpa [IsAscii] using hc
  exact (hascii.byteOffset_add ⟨cs, by rw [h]; rfl⟩).symm

theorem stray_eq (h : m.drop pos = c :: cs) (hc : c.toNat < 128) :
    stray (byteOffset m pos) = Lexeme.stray.inBytes m pos := by
  rw [stray, Lexeme.inBytes, byteOffset_front h hc]
  rfl

theorem ofDigits?_eq {form : Reference} {isDigit : Char → Bool} (front : Text)
    (h : m.drop pos = c :: (front ++ cs)) (hfront : IsAscii (c :: front))
    (hdigit : ∀ d, isDigit d → d.toNat < 128) :
    ofDigits? m form isDigit front.length (byteOffset m pos) =
      some ((Lexeme.ofDigits form isDigit front.length cs).inBytes m pos) := by
  have hlead : byteOffset m pos + 1 + front.length = byteOffset m (pos + 1 + front.length) := by
    have hoffset : byteOffset m (pos + (c :: front).length) = _ :=
      hfront.byteOffset_add ⟨cs, by rw [h]; rfl⟩
    rw [List.length_cons, ← Nat.add_assoc, Nat.add_right_comm] at hoffset
    rw [hoffset, ← Nat.add_assoc, Nat.add_right_comm]
  have hrest : m.drop (pos + 1 + front.length) = cs := by
    rw [← List.drop_drop, drop_succ h, List.drop_left]
  have hdigits := IsAscii.takeWhile hdigit cs
  have hstop : byteOffset m (pos + 1 + front.length + (cs.takeWhile isDigit).length) = _ :=
    hdigits.byteOffset_add (by rw [hrest]; exact List.takeWhile_prefix isDigit)
  simp only [ofDigits?, hlead, dropBytes?_byteOffset, hrest, Option.bind_eq_bind,
    Option.bind_some]
  cases hn : (cs.takeWhile isDigit).length with
  | zero =>
    simp only [Lexeme.ofDigits, hn, stray_eq h (hfront c List.mem_cons_self)]
    rfl
  | succ n =>
    have hget : m[pos + 1 + front.length + (n + 1)]? = cs[n + 1]? := by
      rw [← hrest, List.getElem?_drop]
    rw [hn] at hstop
    simp only [Lexeme.ofDigits, hn, ← hstop, dropBytes?_byteOffset, Option.bind_some,
      List.head?_drop, hget, Lexeme.inBytes]
    split
    · rename_i hsemi
      have hsucc := byteOffset_succ (hget.trans hsemi)
      simp only [← Nat.add_assoc] at hsucc ⊢
      rw [hsucc]
      rfl
    · simp only [← Nat.add_assoc, Nat.add_zero]
      rfl

theorem ofName?_eq (h : m.drop pos = '&' :: cs) :
    ofName? m (byteOffset m pos) = some ((Lexeme.ofName cs).inBytes m pos) := by
  have hname := IsAscii.takeWhile (fun _ ↦ toNat_lt_of_isAlphanum) cs
  have hstop : byteOffset m (pos + 1 + (cs.takeWhile Char.isAlphanum).length) = _ :=
    hname.byteOffset_add (by rw [drop_succ h]; exact List.takeWhile_prefix _)
  have hget : m[pos + 1 + (cs.takeWhile Char.isAlphanum).length]? =
      cs[(cs.takeWhile Char.isAlphanum).length]? := by
    rw [← List.getElem?_drop, drop_succ h]
  simp only [ofName?, byteOffset_front h (by decide), dropBytes?_byteOffset, drop_succ h,
    Option.bind_eq_bind, Option.bind_some, ← hstop, List.head?_drop, hget, Lexeme.ofName]
  split
  · rename_i hsemi
    have hsucc := byteOffset_succ (hget.trans hsemi.2)
    rw [Lexeme.inBytes, ← Nat.add_assoc, hsucc]
    rfl
  · rw [stray_eq h (by decide)]
    rfl

theorem ofReference?_eq (h : m.drop pos = '&' :: cs) :
    ofReference? m (byteOffset m pos) = some ((Lexeme.ofReference cs).inBytes m pos) := by
  simp only [ofReference?, byteOffset_front h (by decide), dropBytes?_byteOffset, drop_succ h,
    Option.bind_eq_bind, Option.bind_some]
  split
  · exact ofDigits?_eq ['#', 'x'] h (by simp [IsAscii])
      fun _ ↦ toNat_lt_of_isHexDigit
  · exact ofDigits?_eq ['#', 'X'] h (by simp [IsAscii])
      fun _ ↦ toNat_lt_of_isHexDigit
  · rename_i cs hx hX
    rw [Lexeme.ofReference]
    · exact ofDigits?_eq ['#'] h (by simp [IsAscii]) fun _ ↦ toNat_lt_of_isDigit
    · exact hx
    · exact hX
  · rename_i hx hX hhash
    rw [Lexeme.ofReference]
    · exact ofName?_eq h
    · exact hx
    · exact hX
    · exact hhash

end ByteLexer

namespace Lexeme

theorem prefix_of_commentEnd? {n : Nat} (h : commentEnd? cs = some n) :
    ['-', '-', '>'] <+: cs.drop n := by
  induction cs generalizing n with
  | nil => cases h
  | cons c cs ih =>
    rw [commentEnd?] at h
    split at h
    · rename_i hbegins
      obtain rfl := Option.some.inj h
      exact List.isPrefixOf_iff_prefix.mp hbegins
    · obtain ⟨n, hn, rfl⟩ := Option.map_eq_some_iff.mp h
      exact ih hn

end Lexeme

namespace ByteLexer

/-- A comment whose body has `n` characters ends with `ds`. -/
theorem comment_reading (n : Nat) (ds : Text) (hcs : m.drop (pos + 4) = cs) (hds : IsAscii ds)
    (hbegins : ds <+: cs.drop n) :
    ((slice? m ⟨byteOffset m (pos + 4), byteOffset m (pos + 4) + byteOffset cs n⟩).bind fun body ↦
      some ⟨.ofComment (trim body), byteOffset m (pos + 4) + byteOffset cs n + ds.length, none⟩) =
    some (Lexeme.inBytes m pos
      { kind := .ofComment (trim (cs.take n)), more := 3 + n + ds.length }) := by
  have hslice : slice? m ⟨byteOffset m (pos + 4), byteOffset m (pos + 4) + byteOffset cs n⟩ =
      some (cs.take n) := slice?_of_front (hcs ▸ List.take_prefix n cs)
  have hbody : byteOffset m (pos + 4 + n) = byteOffset m (pos + 4) + byteOffset cs n := by
    rw [byteOffset_add, hcs]
    rfl
  have hstop : byteOffset m (pos + 4 + n + ds.length) = _ :=
    hds.byteOffset_add (by rwa [← List.drop_drop, hcs])
  rw [hslice, Option.bind_some, ← hbody, ← hstop, Lexeme.inBytes,
    show pos + 1 + (3 + n + ds.length) = pos + 4 + n + ds.length by omega]

theorem ofComment?_eq (h : m.drop pos = '<' :: '!' :: '-' :: '-' :: cs) :
    ofComment? m (byteOffset m pos) = some ((Lexeme.ofComment cs).inBytes m pos) := by
  have hbody : byteOffset m pos + 4 = byteOffset m (pos + 4) := by
    have hascii : IsAscii ['<', '!', '-', '-'] := by simp [IsAscii]
    exact (hascii.byteOffset_add ⟨cs, by rw [h]; rfl⟩).symm
  have hrest : m.drop (pos + 4) = cs := by
    rw [← List.drop_drop, h]
    rfl
  simp only [ofComment?, hbody, dropBytes?_byteOffset, hrest, Option.bind_eq_bind,
    Option.bind_some, Lexeme.ofComment]
  by_cases hempty : ['>'].isPrefixOf cs
  · have hread := comment_reading 0 ['>'] hrest (by simp [IsAscii])
      (List.isPrefixOf_iff_prefix.mp hempty)
    simpa [hempty] using hread
  · by_cases hshort : ['-', '>'].isPrefixOf cs
    · have hread := comment_reading 0 ['-', '>'] hrest (by simp [IsAscii])
        (List.isPrefixOf_iff_prefix.mp hshort)
      simpa [hempty, hshort] using hread
    · simp only [hempty, hshort, Bool.false_eq_true, if_false]
      cases hend : Lexeme.commentEnd? cs with
      | some n =>
        exact comment_reading _ ['-', '-', '>'] hrest (by simp [IsAscii])
          (Lexeme.prefix_of_commentEnd? hend)
      | none =>
        have hread := comment_reading cs.length [] hrest nofun List.nil_prefix
        have hlen := congrArg byteLength (List.take_append_drop (pos + 4) m)
        rw [hrest, byteLength_append] at hlen
        rwa [byteOffset_length, List.length_nil, Nat.add_zero,
          show byteOffset m (pos + 4) + byteLength cs = byteLength m from hlen] at hread

end ByteLexer

end MarkupText
