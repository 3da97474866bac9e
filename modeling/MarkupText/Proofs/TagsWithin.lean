import MarkupText.Proofs.Cuts

namespace MarkupText

open Text

def GivenUpWithin (m : Text) (r : Span) (t : Token) : Prop :=
  ∃ u ∈ tokens m, u.isTag ∧ r.start ≤ u.offset ∧ u.stop ≤ t.offset ∧
    ∃ tail ∈ slice? m ⟨u.stop, r.stop⟩, u.Hidden tail

/-- Each tag in the bytes `r` of `m` ends where the search for its end finds it that sees these
bytes only: at the first `>` outside quoted values or, once these have hidden each `>` from such a
search, at the first of all. -/
def TagsEndWithin (m : Text) (r : Span) : Prop :=
  ∀ t ∈ tokens m, t.isTag → r.start ≤ t.offset → ∀ tail ∈ slice? m ⟨t.stop, r.stop⟩,
    (GivenUpWithin m r t → t.EndsBy firstClose tail) ∧
    (¬ GivenUpWithin m r t → t.EndsBy plainEnd tail)

instance (t : Token) (tail : Text) : Decidable (t.Hidden tail) :=
  inferInstanceAs (Decidable (ScanState.outside.scan (t.afterName ++ tail) = none))

instance (scan : Text → Option Nat) (t : Token) (tail : Text) : Decidable (t.EndsBy scan tail) :=
  inferInstanceAs (Decidable ((scan (t.afterName ++ tail)).map (· + 1) = some t.afterName.length))

instance (m : Text) (r : Span) (t : Token) : Decidable (GivenUpWithin m r t) :=
  inferInstanceAs (Decidable (∃ u ∈ tokens m, _ ∧ _ ∧ _ ∧
    ∃ tail ∈ slice? m ⟨u.stop, r.stop⟩, u.Hidden tail))

instance (m : Text) (r : Span) : Decidable (TagsEndWithin m r) :=
  inferInstanceAs (Decidable (∀ t ∈ tokens m, _ → _ → ∀ tail ∈ slice? m ⟨t.stop, r.stop⟩,
    (GivenUpWithin m r t → t.EndsBy firstClose tail) ∧
    (¬ GivenUpWithin m r t → t.EndsBy plainEnd tail)))

variable {before after front back : List Token} {t u last : Token}

theorem givenUp_concat_iff : GivenUp (front ++ [u]) after ↔
    GivenUp front (u :: after) ∨ u.isTag ∧ u.Hidden (after.flatMap Token.text) := by
  constructor
  · rintro ⟨as, v, bs, hcut, hv⟩
    rcases List.eq_nil_or_concat bs with rfl | ⟨bs, w, rfl⟩
    · obtain ⟨rfl, hv'⟩ := List.append_inj' hcut rfl
      obtain rfl := (List.cons.inj hv').1
      exact .inr hv
    · rw [List.concat_eq_append] at hcut hv
      rw [← List.cons_append, ← List.append_assoc] at hcut
      obtain ⟨rfl, hw⟩ := List.append_inj' hcut rfl
      obtain rfl := (List.cons.inj hw).1
      refine .inl ⟨as, v, bs, rfl, hv.1, ?_⟩
      rw [← List.append_cons] at hv
      exact hv.2
  · rintro (⟨as, v, bs, rfl, htag, hhidden⟩ | hu)
    · refine ⟨as, v, bs ++ [u], by simp, htag, ?_⟩
      rwa [List.append_assoc]
    · exact ⟨front, u, [], rfl, hu⟩

/-- What the search for tag ends carries along is what the tags before say. -/
theorem endWithin_of_givenUp {givenUp : Bool} (hgiven : givenUp ↔ GivenUp front (back ++ [last]))
    (h : ∀ as v bs, back = as ++ v :: bs → v.isTag →
      (GivenUp (front ++ as) (v :: bs ++ [last]) →
        v.EndsBy firstClose ((bs ++ [last]).flatMap Token.text)) ∧
      (¬ GivenUp (front ++ as) (v :: bs ++ [last]) →
        v.EndsBy plainEnd ((bs ++ [last]).flatMap Token.text))) :
    EndWithin givenUp last.text back := by
  induction back generalizing front givenUp with
  | nil => trivial
  | cons v back ih =>
    have htail : (back ++ [last]).flatMap Token.text = back.flatMap Token.text ++ last.text := by
      simp
    have hgiven' : (givenUp || v.hides (back.flatMap Token.text ++ last.text)) ↔
        GivenUp (front ++ [v]) (back ++ [last]) := by
      rw [Bool.or_eq_true, hgiven, givenUp_concat_iff, htail]
      simp [Token.hides, Token.Hidden]
    refine ⟨?_, ih hgiven' ?_⟩
    · intro htag
      obtain ⟨hfirst, hplain⟩ := h [] v back rfl htag
      rw [List.append_nil, ← hgiven, htail] at hfirst hplain
      cases givenUp with
      | true => exact hfirst rfl
      | false => exact hplain Bool.false_ne_true
    · intro as w bs hback htag
      have hw := h (v :: as) w bs (by rw [hback]; rfl) htag
      rwa [List.append_cons] at hw

namespace CutAt

variable {m xs ys ws zs : Text} {us vs : List Token}

/-- A tag from the cut on is a tag of the markup, and the other way round. -/
theorem mem_iff_of_isTag (h : CutAt m before t after xs ys)
    (hkind : t.kind.isCopied ∨ xs = [] ∧ ∃ form, t.kind = .reference form) (hu : u.isTag) :
    u ∈ t.dropFront xs ys :: after ↔ u ∈ tokens m ∧ t.offset + byteLength xs ≤ u.offset := by
  have hfalse : t.isTag = false := Token.isTag_eq_false_of_shown (hkind.imp_right And.right)
  constructor
  · intro hmem
    refine ⟨?_, h.contiguous.start_le_offset hmem⟩
    rw [h.tokens_eq]
    refine List.mem_append_right _ (List.mem_cons_of_mem _ ?_)
    refine (List.mem_cons.mp hmem).resolve_left ?_
    rintro rfl
    rw [show (t.dropFront xs ys).isTag = false from
      Token.isTag_eq_false_of_shown (hkind.imp_right And.right)] at hu
    cases hu
  · rintro ⟨hmem, hoffset⟩
    have hcontiguous := h.tokens_eq ▸ contiguous_tokens m
    rw [h.tokens_eq] at hmem
    rcases List.mem_append.mp hmem with hmem | hmem
    · have hle := (List.pairwise_append.mp hcontiguous.pairwise).2.2 u hmem t List.mem_cons_self
      have hlt := hcontiguous.of_append_left.offset_lt_stop hmem
      omega
    · rcases List.mem_cons.mp hmem with rfl | hmem
      · rw [hfalse] at hu
        cases hu
      · exact List.mem_cons_of_mem _ hmem

theorem offset_eq (h : CutAt m before t after xs ys)
    (hcut : t.dropFront xs ys :: after = us ++ u :: vs) :
    u.offset = t.offset + byteLength xs + byteLength (us.flatMap Token.text) :=
  (hcut ▸ h.contiguous).offset_eq

/-- The markup from one token after the cut to another. -/
theorem slice?_eq (h : CutAt m before t after xs ys)
    (hcut : t.dropFront xs ys :: after = front ++ (us ++ u :: vs)) (htext : u.text = ws ++ zs) :
    slice? m ⟨t.offset + byteLength xs + byteLength (front.flatMap Token.text),
      u.offset + byteLength ws⟩ = some (us.flatMap Token.text ++ ws) := by
  obtain ⟨hm, hlen⟩ := h.markup_eq
  have hoffset := h.offset_eq ((hcut.trans (List.append_assoc ..).symm))
  rw [hcut] at hm
  refine slice?_eq_some_iff.mpr ⟨before.flatMap Token.text ++ xs ++ front.flatMap Token.text,
    zs ++ vs.flatMap Token.text, ?_, ?_, ?_⟩
  · conv_lhs => rw [hm]
    simp [htext]
  · rw [byteLength_append, hlen]
  · rw [hoffset, byteLength_append _ (front.flatMap Token.text), hlen]
    simp only [List.flatMap_append, byteLength_append]
    omega

theorem slice?_after {v : Token} (h : CutAt m before t after xs ys)
    (hcut : t.dropFront xs ys :: after = front ++ v :: (us ++ u :: vs))
    (htext : u.text = ws ++ zs) :
    slice? m ⟨v.stop, u.offset + byteLength ws⟩ = some (us.flatMap Token.text ++ ws) := by
  have hslice := h.slice?_eq (hcut.trans (List.append_cons ..)) htext
  have hstop : t.offset + byteLength xs + byteLength ((front ++ [v]).flatMap Token.text) =
      v.stop := by
    simp [Token.stop, Token.length, h.offset_eq hcut, Nat.add_assoc]
  rwa [hstop] at hslice

theorem givenUpWithin_iff {v : Token} (h : CutAt m before t after xs ys)
    (hkind : t.kind.isCopied ∨ xs = [] ∧ ∃ form, t.kind = .reference form)
    (hcut : t.dropFront xs ys :: after = front ++ v :: (back ++ u :: vs))
    (htext : u.text = ws ++ zs) (hlast : last.text = ws) :
    GivenUpWithin m ⟨t.offset + byteLength xs, u.offset + byteLength ws⟩ v ↔
      GivenUp front (v :: back ++ [last]) := by
  have hpairwise := (hcut ▸ h.contiguous).pairwise
  have htail (bs : List Token) : (bs ++ (v :: back ++ [last])).flatMap Token.text =
      (bs ++ v :: back).flatMap Token.text ++ ws := by
    simp [hlast]
  constructor
  · rintro ⟨w, hmem, htag, hstart, hstop, tail, hslice, hhidden⟩
    have hw := (h.mem_iff_of_isTag hkind htag).mpr ⟨hmem, hstart⟩
    have hlt := h.contiguous.offset_lt_stop hw
    have hfront : w ∈ front := by
      rw [hcut] at hw
      refine (List.mem_append.mp hw).resolve_right fun hw ↦ ?_
      rcases List.mem_cons.mp hw with rfl | hw
      · omega
      · have hle := (List.pairwise_cons.mp (List.pairwise_append.mp hpairwise).2.1).1 w hw
        have hlt' := h.contiguous.offset_lt_stop
          (hcut ▸ List.mem_append_right front (List.mem_cons_self : v ∈ v :: _))
        omega
    obtain ⟨as, bs, rfl⟩ := List.append_of_mem hfront
    have hcut' : t.dropFront xs ys :: after = as ++ w :: ((bs ++ v :: back) ++ u :: vs) := by
      rw [hcut]
      simp
    obtain rfl := Option.some.inj (hslice.symm.trans (h.slice?_after hcut' htext))
    exact ⟨as, w, bs, rfl, htag, by rwa [htail]⟩
  · rintro ⟨as, w, bs, rfl, htag, hhidden⟩
    have hcut' : t.dropFront xs ys :: after = as ++ w :: ((bs ++ v :: back) ++ u :: vs) := by
      rw [hcut]
      simp
    have hw : w ∈ t.dropFront xs ys :: after := hcut' ▸ List.mem_append_right as List.mem_cons_self
    obtain ⟨hmem, hstart⟩ := (h.mem_iff_of_isTag hkind htag).mp hw
    refine ⟨w, hmem, htag, hstart, ?_, _, h.slice?_after hcut' htext, by rwa [htail] at hhidden⟩
    exact (List.pairwise_append.mp hpairwise).2.2 w (by simp) v List.mem_cons_self

/-- If the tags end where they do as seen from the cut bytes, then they do for the lexer there. -/
theorem endWithin (h : CutAt m before t after xs ys)
    (hkind : t.kind.isCopied ∨ xs = [] ∧ ∃ form, t.kind = .reference form)
    (hcut : t.dropFront xs ys :: after = us ++ u :: vs) (htext : u.text = ws ++ zs)
    (hends : TagsEndWithin m ⟨t.offset + byteLength xs, u.offset + byteLength ws⟩) :
    EndWithin false ws us := by
  have hgiven : (false : Bool) ↔ GivenUp [] (us ++ [⟨u.kind, ws, u.offset⟩]) := by
    simp [not_givenUp_nil]
  have hall := endWithin_of_givenUp hgiven
  refine hall fun as v bs hus htag ↦ ?_
  have hcut' : t.dropFront xs ys :: after = as ++ v :: (bs ++ u :: vs) := by
    rw [hcut, hus, List.append_assoc]
    rfl
  have hv : v ∈ t.dropFront xs ys :: after := hcut' ▸ List.mem_append_right as List.mem_cons_self
  obtain ⟨hmem, hstart⟩ := (h.mem_iff_of_isTag hkind htag).mp hv
  have hends' := hends v hmem htag hstart _ (h.slice?_after hcut' htext)
  have hlast : Token.text ⟨u.kind, ws, u.offset⟩ = ws := rfl
  rw [h.givenUpWithin_iff hkind hcut' htext hlast] at hends'
  simpa using hends'

end CutAt

/-- A tag whose end the plain scan finds has it as well where less text follows. -/
theorem Token.endsBy_of_append {t : Token} {as bs : Text} (hends : t.EndsBy plainEnd (as ++ bs))
    (hhidden : ¬ t.Hidden (as ++ bs)) : t.EndsBy plainEnd as ∧ ¬ t.Hidden as := by
  obtain ⟨n, hn⟩ := Option.ne_none_iff_exists'.mp hhidden
  rw [EndsBy, plainEnd, hn] at hends
  have hlen : n + 1 = t.afterName.length := Option.some.inj hends
  rw [← List.append_assoc] at hn
  have hn' := ScanState.scan_of_append hn (by rw [List.length_append]; omega)
  refine ⟨?_, ?_⟩
  · rw [EndsBy, plainEnd, hn', Option.some_or, Option.map_some, hlen]
  · rw [Hidden, hn']
    exact Option.some_ne_none n

/-- Where no tag has values that hide each `>`, all tags end where any part of the markup says. -/
theorem tagsEndWithin_of_not_hidden {m : Text}
    (h : ∀ before t after, tokens m = before ++ t :: after → t.isTag →
      ¬ t.Hidden (after.flatMap Token.text)) (r : Span) : TagsEndWithin m r := by
  have hshort {t : Token} (ht : t ∈ tokens m) (htag : t.isTag) {tail : Text}
      (htail : tail ∈ slice? m ⟨t.stop, r.stop⟩) : t.EndsBy plainEnd tail ∧ ¬ t.Hidden tail := by
    obtain ⟨before, after, hts⟩ := List.append_of_mem ht
    obtain ⟨us, vs, hm, hstart, -⟩ := slice?_eq_some_iff.mp htail
    have hlen : byteLength ((before ++ [t]).flatMap Token.text) = byteLength us := by
      have hoffset := (hts ▸ contiguous_tokens m).offset_eq
      rw [← hstart]
      simp [Token.stop, Token.length, hoffset]
    have hm' : (before ++ [t]).flatMap Token.text ++ after.flatMap Token.text =
        us ++ (tail ++ vs) := by
      rw [← hm, ← List.flatMap_append, List.append_assoc, List.singleton_append, ← hts,
        flatMap_text_tokens]
    have hafter := (append_inj_of_byteLength hm' hlen).2
    obtain ⟨givenUp, hgiven, hends⟩ := endsBy_tokensFrom (TagSearch.sound_empty m)
      List.drop_zero.symm hts htag
    have hnot : ¬ GivenUp before (t :: after) := by
      rintro ⟨front, u, back, rfl, hu, hhidden⟩
      exact h front u (back ++ t :: after) (by simpa using hts) hu hhidden
    obtain rfl : givenUp = false := by simpa [hnot] using hgiven
    have hhidden := h before t after hts htag
    rw [hafter] at hends hhidden
    exact Token.endsBy_of_append hends hhidden
  intro t ht htag _ tail htail
  refine ⟨?_, fun _ ↦ (hshort ht htag htail).1⟩
  rintro ⟨u, hu, hutag, -, -, tail', htail', hhidden⟩
  exact absurd hhidden (hshort hu hutag htail').2

end MarkupText
