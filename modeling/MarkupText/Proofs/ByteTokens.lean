import Mathlib.Data.List.TakeWhile
import MarkupText.Proofs.ByteReadings
import MarkupText.Proofs.ByteSearches

namespace MarkupText

open Text

variable {m cs : Text} {s : TagSearch} {pos stop i : Nat} {c : Char}

namespace Text

theorem length_flatMap_utf8EncodeChar (cs : Text) :
    (cs.flatMap String.utf8EncodeChar).length = byteLength cs := by
  induction cs with
  | nil => rfl
  | cons c cs ih =>
    rw [List.flatMap_cons, List.length_append, String.length_utf8EncodeChar, ih, byteLength_cons]

theorem byteAt?_append (as bs : Text) {k : Nat} (hk : k < c.utf8Size) :
    byteAt? (as ++ c :: bs) (byteLength as + k) = (String.utf8EncodeChar c)[k]? := by
  rw [byteAt?, List.flatMap_append, List.flatMap_cons, ← length_flatMap_utf8EncodeChar,
    List.getElem?_append_right (Nat.le_add_right _ _), Nat.add_sub_cancel_left,
    List.getElem?_append_left (by rwa [String.length_utf8EncodeChar])]

/-- No other character ends with the byte of a slash. -/
theorem getLast?_utf8EncodeChar (c : Char) :
    ∃ b, (String.utf8EncodeChar c).getLast? = some b ∧ (b = '/'.toUInt8 ↔ c = '/') := by
  have hcode : c = '/' ↔ c.val.toNat = 47 := by
    rw [Char.ext_iff, ← UInt32.toNat_inj]
    rfl
  have hmany (v : Nat) (hv : 127 < c.val.toNat) :
      UInt8.ofNat (v % 64 + 128) = '/'.toUInt8 ↔ c = '/' := by
    rw [hcode, ← UInt8.toNat_inj, UInt8.toNat_ofNat', show '/'.toUInt8.toNat = 47 from rfl]
    omega
  unfold String.utf8EncodeChar
  dsimp only
  split
  · rename_i hone
    refine ⟨UInt8.ofNat c.val.toNat, rfl, ?_⟩
    rw [hcode, ← UInt8.toNat_inj, UInt8.toNat_ofNat', show '/'.toUInt8.toNat = 47 from rfl]
    omega
  · rename_i hone
    split
    · exact ⟨_, rfl, hmany _ (Nat.lt_of_not_le hone)⟩
    · split
      · exact ⟨_, rfl, hmany _ (Nat.lt_of_not_le hone)⟩
      · exact ⟨_, rfl, hmany _ (Nat.lt_of_not_le hone)⟩

theorem byteAt?_pred (h : m[i]? = some c) :
    ∃ b, byteAt? m (byteOffset m (i + 1) - 1) = some b ∧ (b = '/'.toUInt8 ↔ c = '/') := by
  obtain ⟨hi, hc⟩ := List.getElem?_eq_some_iff.mp h
  obtain ⟨b, hb, hslash⟩ := getLast?_utf8EncodeChar c
  have hpos := c.utf8Size_pos
  have hcut : m = m.take i ++ c :: m.drop (i + 1) := by
    rw [← hc, List.getElem_cons_drop, List.take_append_drop]
  have hbyte := byteAt?_append (m.take i) (m.drop (i + 1)) (Nat.sub_one_lt_of_lt hpos)
  rw [← hcut] at hbyte
  refine ⟨b, ?_, hslash⟩
  rw [byteOffset_succ h, Nat.add_sub_assoc hpos, byteOffset, hbyte, ← hb,
    List.getLast?_eq_getElem?, String.length_utf8EncodeChar]

end Text

namespace ByteLexer

structure SameReading (m : Text) (pos : Nat) (x : Lexeme × TagSearch)
    (y : Option (Reading × TagSearch)) : Prop where
  reading : y = some (x.1.inBytes m pos, x.2.inBytes m)
  within : x.2.Within m

theorem ofDeclaration?_same (hsound : s.Sound m pos) (hwithin : s.Within m)
    (h : m.drop pos = '<' :: cs) :
    SameReading m pos (Lexeme.ofDeclaration s pos cs)
      (ofDeclaration? m (s.inBytes m) (byteOffset m pos)) := by
  have hpos : pos + 1 ≤ m.length := by
    have hlen := congrArg List.length h
    rw [List.length_drop, List.length_cons] at hlen
    omega
  obtain ⟨hrenew, hclose⟩ := Recall.renew?_eq (· == '>') hwithin.close hpos
  obtain ⟨hfound, -⟩ := Recall.sound_renew hsound.close (pos + 1)
  rw [drop_succ h] at hrenew hfound hclose
  refine ⟨?_, hclose, hwithin.double, hwithin.single⟩
  unfold ofDeclaration? Lexeme.ofDeclaration
  rw [byteOffset_front h (by decide), show (s.inBytes m).close = s.close.map (Recall.inBytes m)
    from rfl, hrenew]
  generalize Recall.renew (· == '>') s.close (pos + 1) cs = r at *
  simp only [Option.bind_eq_bind, Option.bind_some,
    show (r.inBytes m).found = r.found.map (byteOffset m) from rfl]
  cases hr : r.found with
  | none =>
    rw [stray_eq h (by decide)]
    rfl
  | some i =>
    rw [hr, ← drop_succ h] at hfound
    obtain ⟨hle, hget⟩ := Recall.getElem?_of_search hfound.symm
    have hstop : byteOffset m i + 1 = byteOffset m (pos + 1 + (i - pos)) := by
      rw [show pos + 1 + (i - pos) = i + 1 by omega, byteOffset_succ hget]
      rfl
    simp only [Option.map_some, hstop]
    rfl

/-- A tag whose end is known ends one byte later, and its last byte but one tells whether a slash
comes before the end. -/
theorem byteOffset_close (h : m.drop pos = '<' :: cs) (hi : pos + 2 ≤ i)
    (hget : m[i]? = some '>') :
    byteOffset m i + 1 = byteOffset m (pos + 1 + (i - pos)) ∧
      ∃ b, byteAt? m (byteOffset m i - 1) = some b ∧
        (b ≠ '/'.toUInt8 ↔ cs[i - pos - 2]? ≠ some '/') := by
  have hlt := (List.getElem?_eq_some_iff.mp hget).1
  have hlast : m[i - 1]? = some m[i - 1] := List.getElem?_eq_getElem (by omega)
  obtain ⟨b, hb, hslash⟩ := byteAt?_pred hlast
  rw [show i - 1 + 1 = i by omega] at hb
  refine ⟨?_, b, hb, ?_⟩
  · rw [show pos + 1 + (i - pos) = i + 1 by omega, byteOffset_succ hget]
    rfl
  · rw [← drop_succ h, List.getElem?_drop, show pos + 1 + (i - pos - 2) = i - 1 by omega, hlast,
      Option.some_inj.ne, not_iff_not]
    exact hslash

theorem ofTag?_same (hsound : s.Sound m pos) (hwithin : s.Within m) (h : m.drop pos = '<' :: cs) :
    SameReading m pos (Lexeme.ofTag s pos cs) (ofTag? m (s.inBytes m) (byteOffset m pos)) := by
  obtain ⟨slash, hslash, hcase⟩ := exists_slash cs
  have hfront : IsAscii ('<' :: slash) := by
    rcases hcase with ⟨rfl, -⟩ | ⟨rfl, -⟩ <;> simp [IsAscii]
  have hbody := drop_slash h hslash
  have hstart : byteOffset m (pos + ('<' :: slash).length) = _ := hfront.byteOffset_add
    ⟨afterSlash cs, by rw [h, List.cons_append, ← hslash]⟩
  rw [List.length_cons] at hstart
  unfold ofTag? Lexeme.ofTag
  simp only [byteOffset_front h (by decide), dropBytes?_byteOffset, drop_succ h,
    Option.bind_eq_bind, Option.bind_some, lead_eq hcase, ← hstart, hbody]
  cases hname : elementName? (afterSlash cs) with
  | none =>
    refine ⟨?_, hwithin⟩
    rw [stray_eq h (by decide)]
    rfl
  | some name =>
    obtain ⟨rest, hrest, hhead, hchars, -⟩ := elementName?_eq_some_iff.mp hname
    have hbegins : name <+: m.drop (pos + (slash.length + 1)) := ⟨rest, by rw [hbody, hrest]⟩
    have hascii : IsAscii name := fun c hc ↦ toNat_lt_of_isNameChar (hchars c hc)
    have hslice := slice?_of_front hbegins
    rw [hascii.byteLength, ← hascii.byteOffset_add hbegins] at hslice
    have hafter : (afterSlash cs).drop name.length =
        m.drop (pos + (slash.length + 1) + name.length) := by
      rw [← hbody, List.drop_drop]
    have hpos : 0 < name.length := by
      cases name with
      | nil => cases hhead
      | cons c name => exact Nat.succ_pos _
    have hle : pos + (slash.length + 1) + name.length ≤ m.length := by
      have hlen := hbegins.length_le
      rw [List.length_drop] at hlen
      omega
    have hstart : pos ≤ pos + (slash.length + 1) + name.length := by omega
    have hsame := TagSearch.tagEnd?_same (hsound.mono hstart) hwithin hle
    obtain ⟨hfound, -⟩ := hsound.tagEnd_spec hstart
    simp only [← hascii.byteOffset_add hbegins, hslice, Option.bind_some, hafter, hsame.answer]
    generalize s.tagEnd _ _ = x at hsame hfound ⊢
    obtain ⟨found, s'⟩ := x
    cases found with
    | none =>
      refine ⟨?_, hsame.within⟩
      rw [stray_eq h (by decide)]
      rfl
    | some i =>
      obtain ⟨n, hn, hi⟩ := Option.map_eq_some_iff.mp hfound.symm
      have hget := ScanState.getElem?_tagClose hn
      rw [List.getElem?_drop, hi] at hget
      obtain ⟨hstop, b, hb, hraw⟩ := byteOffset_close h (by omega) hget
      refine ⟨?_, hsame.within⟩
      simp only [Option.map_some, hb, Option.bind_some, hstop, hraw]
      rfl

theorem ofMarkup?_same (hsound : s.Sound m pos) (hwithin : s.Within m) (h : m.drop pos = '<' :: cs) :
    SameReading m pos (Lexeme.ofMarkup s pos cs)
      (ofMarkup? m (s.inBytes m) (byteOffset m pos)) := by
  unfold ofMarkup? Lexeme.ofMarkup
  rw [byteOffset_front h (by decide), dropBytes?_byteOffset, drop_succ h]
  simp only [Option.bind_eq_bind, Option.bind_some]
  split
  · rename_i hbegins
    obtain ⟨ds, rfl⟩ := List.isPrefixOf_iff_prefix.mp hbegins
    refine ⟨?_, hwithin⟩
    rw [ofComment?_eq h]
    rfl
  · split
    · exact ofDeclaration?_same hsound hwithin h
    · exact ofTag?_same hsound hwithin h

theorem rawLength?_eq (raw : Option Text) (pos : Nat) : rawLength? m raw (byteOffset m pos) =
    some (byteOffset (m.drop pos) ((raw.map (Lexeme.rawLength · (m.drop pos))).getD 0)) := by
  cases raw with
  | none => simp [rawLength?]
  | some name => rw [rawLength?, dropBytes?_byteOffset]; rfl

/-- The memory holds what searches have found, and of tags before `pos` what `tags` holds. -/
structure Memory.Knows (m : Text) (pos : Nat) (s : Memory) (tags : TagSearch) : Prop where
  markup : ∃ known, Recall.Sound beginsMarkup m known ∧ Recall.Within m known ∧
    s.markup = known.map (Recall.inBytes m)
  sound : tags.Sound m pos
  within : tags.Within m
  tags_eq : s.tags = tags.inBytes m

theorem Memory.knows_empty (m : Text) : Memory.Knows m 0 {} {} :=
  ⟨⟨none, nofun, nofun, rfl⟩, TagSearch.sound_empty m, TagSearch.within_empty m, rfl⟩

theorem Memory.Knows.mono {s : Memory} {tags : TagSearch} (h : s.Knows m pos tags)
    (hle : pos ≤ stop) : s.Knows m stop tags :=
  ⟨h.markup, h.sound.mono hle, h.within, h.tags_eq⟩

/-- Text goes on up to what the search for the next markup finds. -/
theorem byteOffset_search (h : m.drop pos = cs) (hpos : pos ≤ m.length) :
    ((Recall.search beginsMarkup pos cs).map (byteOffset m)).getD (byteLength m) =
      byteOffset m pos + byteLength (cs.takeWhile (!beginsMarkup ·)) := by
  rw [List.takeWhile_eq_take_findIdx_not, ← h, ← byteOffset_add, h]
  simp only [Bool.not_not, Recall.search]
  cases hn : cs.findIdx? beginsMarkup with
  | none =>
    have hlen := congrArg List.length h
    rw [List.length_drop] at hlen
    rw [List.findIdx?_eq_none_iff_findIdx_eq.mp hn, ← hlen, Nat.add_sub_cancel' hpos,
      byteOffset_length]
    rfl
  | some n =>
    rw [(List.findIdx?_eq_some_iff_findIdx_eq.mp hn).2]
    rfl

theorem ofText?_eq {known : Option Recall} (hsound : Recall.Sound beginsMarkup m known)
    (hwithin : Recall.Within m known) (h : m.drop pos = c :: cs) (hc : beginsMarkup c = false) :
    ∃ r, ofText? m (known.map (Recall.inBytes m)) (byteOffset m pos) =
        some ((Lexeme.ofText c cs).inBytes m pos, r.inBytes m) ∧
      Recall.Sound beginsMarkup m (some r) ∧ Recall.Within m (some r) := by
  have hpos : pos ≤ m.length := by
    have hlen := congrArg List.length h
    rw [List.length_drop, List.length_cons] at hlen
    omega
  obtain ⟨hrenew, hrwithin⟩ := Recall.renew?_eq beginsMarkup hwithin hpos
  obtain ⟨hfound, hrsound⟩ := Recall.sound_renew hsound pos
  refine ⟨_, ?_, hrsound, hrwithin⟩
  have hbegins : (c :: cs).takeWhile (!beginsMarkup ·) <+: m.drop pos :=
    h ▸ List.takeWhile_prefix _
  have hhead : ((c :: cs).takeWhile (!beginsMarkup ·)).head?.any isBlank = isBlank c := by
    rw [List.takeWhile_cons_of_pos (by simp [hc])]
    rfl
  have hrun : ((c :: cs).takeWhile (!beginsMarkup ·)).takeWhile (isBlank · == isBlank c) =
      c :: cs.takeWhile (fun d ↦ d != '<' && d != '&' && isBlank d == isBlank c) := by
    rw [List.takeWhile_takeWhile, List.takeWhile_cons_of_pos (by simp [hc])]
    congr 2
    funext d
    simp only [beginsMarkup, Bool.not_or, Bool.decide_and, Bool.decide_eq_true, Bool.and_comm]
    rfl
  have hwhole := List.takeWhile_prefix (isBlank · == isBlank c)
    |>.trans hbegins
  have hstop := byteOffset_add_of_front (hrun ▸ hwhole)
  have hlimit : ((Recall.renew beginsMarkup known pos (m.drop pos)).inBytes m).found.getD
      (byteLength m) = byteOffset m pos + byteLength ((c :: cs).takeWhile (!beginsMarkup ·)) := by
    rw [← byteOffset_search h hpos, ← h, ← hfound]
    rfl
  simp only [ofText?, hrenew, Option.bind_eq_bind, Option.bind_some, hlimit,
    slice?_of_front hbegins, hhead, hrun, ← hstop]
  simp only [Lexeme.inBytes, Lexeme.ofText, List.length_cons, Nat.add_assoc, Nat.add_comm 1]
  rfl

def Memory.SameReading (m : Text) (pos : Nat) (c : Char) (cs : Text) (x : Lexeme × TagSearch)
    (y : Option (Reading × Memory)) : Prop :=
  ∃ s : Memory, y = some (x.1.inBytes m pos, s) ∧
    s.Knows m (pos + (c :: cs.take x.1.more).length) x.2

theorem readOutsideRaw?_same {s : Memory} {tags : TagSearch} (hs : s.Knows m pos tags)
    (h : m.drop pos = c :: cs) :
    Memory.SameReading m pos c cs (Lexeme.read none tags pos c cs)
      (readOutsideRaw? m s (byteOffset m pos)) := by
  have hget : m[pos]? = some c := by rw [← List.head?_drop, h, List.head?_cons]
  have hsound := (tagStep_read hs.sound h.symm none 0).sound
  unfold readOutsideRaw?
  rw [charAt?_byteOffset, hget]
  simp only [Option.bind_eq_bind, Option.bind_some]
  simp only [Lexeme.read, Option.map_none] at hsound ⊢
  by_cases hlt : c = '<'
  · simp only [if_pos hlt] at hsound ⊢
    have hsame := ofMarkup?_same hs.sound hs.within (hlt ▸ h)
    rw [hs.tags_eq, hsame.reading]
    exact ⟨_, rfl, hs.markup, hsound, hsame.within, rfl⟩
  · by_cases hand : c = '&'
    · simp only [if_neg hlt, if_pos hand]
      rw [ofReference?_eq (hand ▸ h)]
      exact ⟨s, rfl, hs.mono (Nat.le_add_right _ _)⟩
    · simp only [if_neg hlt, if_neg hand] at hsound ⊢
      obtain ⟨known, hknown, hwithin, hmarkup⟩ := hs.markup
      obtain ⟨r, htext, hr⟩ := ofText?_eq hknown hwithin h (by simp [beginsMarkup, hlt, hand])
      rw [hmarkup, htext]
      exact ⟨_, rfl, ⟨some r, hr.1, hr.2, rfl⟩, hsound, hs.within, hs.tags_eq⟩

theorem read?_same {s : Memory} {tags : TagSearch} (raw : Option Text) (hs : s.Knows m pos tags)
    (h : m.drop pos = c :: cs) :
    Memory.SameReading m pos c cs (Lexeme.read raw tags pos c cs)
      (read? m raw s (byteOffset m pos)) := by
  have houtside := readOutsideRaw?_same hs h
  unfold read?
  rw [rawLength?_eq, h]
  cases raw with
  | none => exact houtside
  | some name =>
    simp only [Option.map_some, Option.getD_some, Option.bind_eq_bind, Option.bind_some]
    unfold Lexeme.read
    rw [Option.map_some]
    cases hraw : Lexeme.rawLength name (c :: cs) with
    | zero => exact houtside
    | succ n =>
      have hsize := c.utf8Size_pos
      have hstop : byteOffset m pos + byteOffset (c :: cs) (n + 1) =
          byteOffset m (pos + 1 + n) := by
        rw [Nat.add_right_comm, Nat.add_assoc, byteOffset_add m, h]
        rfl
      have hne : byteOffset (c :: cs) (n + 1) ≠ 0 := by
        rw [byteOffset, List.take_succ_cons, byteLength_cons]
        omega
      obtain ⟨k, hk⟩ := Nat.exists_eq_succ_of_ne_zero hne
      rw [hk] at hstop ⊢
      refine ⟨s, ?_, hs.mono (Nat.le_add_right _ _)⟩
      rw [Lexeme.inBytes, ← hstop]
      rfl

theorem tokensFrom?_eq {s : Memory} {tags : TagSearch} (hs : s.Knows m pos tags)
    (hpos : pos ≤ m.length) (hcs : cs = m.drop pos) (raw : Option Text) :
    tokensFrom? m raw s (byteOffset m pos) =
      some (tokensFrom raw tags pos (byteOffset m pos) cs) := by
  generalize hoffset : byteOffset m pos = offset
  fun_induction tokensFrom raw tags pos offset cs generalizing s with
  | case1 raw tags pos offset =>
    have hend := byteOffset_eq_of_le (List.drop_eq_nil_iff.mp hcs.symm)
    rw [tokensFrom?, if_neg (by omega), if_pos (hoffset ▸ hend)]
  | case2 raw tags pos offset c cs lexeme tags' hread text =>
    rename_i ih
    subst hoffset
    have hlt : pos < m.length := by
      have hle := congrArg List.length hcs
      rw [List.length_drop, List.length_cons] at hle
      omega
    have hcut : c :: cs = text ++ cs.drop lexeme.more := by
      rw [List.cons_append, List.take_append_drop]
    have htext : text <+: m.drop pos := ⟨_, hcut.symm.trans hcs⟩
    have hdrop : cs.drop lexeme.more = m.drop (pos + text.length) := drop_text hcs lexeme.more
    have hle := htext.length_le
    rw [List.length_drop] at hle
    have hlen := byteOffset_add_of_front htext
    have hstop : byteOffset m (pos + 1 + lexeme.more) = byteOffset m (pos + text.length) := by
      rw [hlen, Nat.add_assoc, byteOffset_add, ← hcs, Nat.add_comm 1, List.take_succ_cons]
    obtain ⟨s', hread?, hs'⟩ := read?_same raw hs hcs.symm
    rw [hread] at hread? hs'
    rw [tokensFrom?, if_pos (byteOffset_lt_iff.mpr hlt), hread?]
    simp only [Option.bind_eq_bind, Option.bind_some, Lexeme.inBytes, hstop, hlen,
      slice?_of_front htext, ih hs' (by omega) hdrop hlen]
    rw [if_pos (Nat.lt_add_of_pos_right (byteLength_pos (List.cons_ne_nil _ _)))]
    rfl

/-- No cut is refused. -/
theorem tokens?_eq (m : Text) : tokens? m = some (tokens m) := by
  have h := tokensFrom?_eq (Memory.knows_empty m) (Nat.zero_le m.length)
    (List.drop_zero).symm none
  rwa [byteOffset_zero] at h

end ByteLexer

theorem Contiguous.stop_getLast? {start : Nat} {ts : List Token} (h : Contiguous start ts) :
    (ts.getLast?.map Token.stop).getD start = start + byteLength (ts.flatMap Token.text) := by
  rcases List.eq_nil_or_concat ts with rfl | ⟨before, t, rfl⟩
  · rfl
  · rw [List.concat_eq_append] at h ⊢
    rw [List.getLast?_concat, Option.map_some, Option.getD_some, Token.stop, h.offset_eq,
      List.flatMap_append, byteLength_append, List.flatMap_singleton, Nat.add_assoc]
    rfl

/-- The tokens cut `m` into pieces that are not empty, each the slice of the bytes it claims, from
the first byte up to the last, and a lexer that checks every cut gives the same tokens. -/
structure Lossless (m : Text) (ts : List Token) : Prop where
  contiguous : Contiguous 0 ts
  stop : (ts.getLast?.map Token.stop).getD 0 = byteLength m
  slices : ∀ t ∈ ts, slice? m t.span = some t.text
  text : ts.flatMap Token.text = m
  checked : ByteLexer.tokens? m = some ts

/-- Cutting markup into tokens loses nothing, always moves forward, and never slices out of range or
inside a character. -/
theorem lossless_tokens (m : Text) : Lossless m (tokens m) where
  contiguous := contiguous_tokens m
  stop := by rw [(contiguous_tokens m).stop_getLast?, flatMap_text_tokens, Nat.zero_add]
  slices _ ht := slice?_span ht
  text := flatMap_text_tokens m
  checked := ByteLexer.tokens?_eq m

end MarkupText
