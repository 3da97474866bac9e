import Mathlib.Data.List.Pairwise
import MarkupText.Proofs.HeldPieces
import MarkupText.Proofs.TitleWords

namespace MarkupText

open Text

def pieceEnds (offset : Nat) : List Text → List Nat
  | [] => []
  | piece :: pieces =>
    (offset + byteLength piece) :: pieceEnds (offset + byteLength piece) pieces

/-- Of the boundaries `bs` after the one at `start`, which was kept, those of `ks` are kept: the
last, and each one where the text from the kept one before it ends in no title. -/
inductive Keeps (titles : Titles) (cs : Text) : Nat → List Nat → List Nat → Prop
  | nil {start : Nat} : Keeps titles cs start [] []
  | last {start b : Nat} : Keeps titles cs start [b] [b]
  | joined {start b b' : Nat} {bs ks : List Nat} {text : Text} :
    slice? cs ⟨start, b⟩ = some text → EndsInTitle titles text →
      Keeps titles cs start (b' :: bs) ks → Keeps titles cs start (b :: b' :: bs) ks
  | kept {start b b' : Nat} {bs ks : List Nat} {text : Text} :
    slice? cs ⟨start, b⟩ = some text → ¬EndsInTitle titles text →
      Keeps titles cs b (b' :: bs) ks → Keeps titles cs start (b :: b' :: bs) (b :: ks)

def TrimsTo (cs : Text) (start stop : Nat) (r : Span) : Prop :=
  ∃ us body vs, slice? cs ⟨start, stop⟩ = some (us ++ (body ++ vs)) ∧ (∀ c ∈ us, isBlank c) ∧
    (∀ c ∈ vs, isBlank c) ∧ IsTrimmed body ∧
    r = ⟨start + byteLength us, start + byteLength us + byteLength body⟩

/-- The ranges `rs` are what is left of the pieces that end at `ks`, less the blanks around each. -/
inductive Trims (cs : Text) : Nat → List Nat → List Span → Prop
  | nil {start : Nat} : Trims cs start [] []
  | blank {start k : Nat} {ks : List Nat} {rs : List Span} {piece : Text} :
    slice? cs ⟨start, k⟩ = some piece → (∀ c ∈ piece, isBlank c) → Trims cs k ks rs →
      Trims cs start (k :: ks) rs
  | text {start k : Nat} {ks : List Nat} {rs : List Span} {r : Span} :
    TrimsTo cs start k r → Trims cs k ks rs → Trims cs start (k :: ks) (r :: rs)

/-- The ranges `rs` are parts of `cs` one after the other, none with a blank at its ends, and all
that is not blank is in one of them. -/
structure CoversText (cs : Text) (rs : List Span) : Prop where
  ordered : rs.Pairwise fun r r' ↦ r.stop ≤ r'.start
  parts : ∀ r ∈ rs, r.start < r.stop ∧ ∃ body, slice? cs r = some body ∧ IsTrimmed body
  covered (front : Text) (c : Char) (back : Text) : cs = front ++ c :: back → isBlank c = false →
    ∃! r, r ∈ rs ∧ r.start ≤ byteLength front ∧ byteLength front + c.utf8Size ≤ r.stop

variable {titles : Titles} {cs front held back : Text} {pieces : List Text} {start stop : Nat}
  {bs ks ks' : List Nat} {r r' : Span} {rs rs' : List Span}

theorem pieceEnds_append (start : Nat) (held piece : Text) (pieces : List Text) :
    pieceEnds start ((held ++ piece) :: pieces) =
      (start + byteLength held + byteLength piece) ::
        pieceEnds (start + byteLength held + byteLength piece) pieces := by
  rw [pieceEnds, byteLength_append, Nat.add_assoc]

theorem cutMarked_ne_nil {cs : List (Char × Bool)} {piece : Text} (h : piece ∈ (cutMarked cs).2) :
    piece ≠ [] := by
  induction cs with
  | nil => cases h
  | cons c cs ih =>
    obtain ⟨c, marked⟩ := c
    cases marked with
    | false => exact ih h
    | true =>
      rcases List.mem_cons.mp h with rfl | h
      · exact List.cons_ne_nil _ _
      · exact ih h

theorem lt_of_mem_pieceEnds (hpieces : ∀ piece ∈ pieces, piece ≠ []) {b : Nat}
    (hb : b ∈ pieceEnds start pieces) : start < b := by
  induction pieces generalizing start with
  | nil => cases hb
  | cons piece pieces ih =>
    have hpos := byteLength_pos (hpieces piece List.mem_cons_self)
    rcases List.mem_cons.mp hb with rfl | hb
    · omega
    · have hlt := ih (fun p hp ↦ hpieces p (List.mem_cons_of_mem piece hp)) hb
      omega

theorem pairwise_pieceEnds (start : Nat) (hpieces : ∀ piece ∈ pieces, piece ≠ []) :
    (start :: pieceEnds start pieces).Pairwise (· < ·) := by
  induction pieces generalizing start with
  | nil => exact List.pairwise_singleton _ start
  | cons piece pieces ih =>
    refine List.pairwise_cons.mpr ⟨fun b hb ↦ lt_of_mem_pieceEnds hpieces hb, ?_⟩
    exact ih _ fun p hp ↦ hpieces p (List.mem_cons_of_mem piece hp)

theorem getLast?_pieceEnds (start : Nat) (pieces : List Text) :
    (start :: pieceEnds start pieces).getLast? = some (start + byteLength pieces.flatten) := by
  induction pieces generalizing start with
  | nil => rfl
  | cons piece pieces ih =>
    rw [pieceEnds, List.getLast?_cons_cons, ih, List.flatten_cons, byteLength_append, Nat.add_assoc]

theorem keeps_joinTitles (hcs : cs = front ++ (held ++ pieces.flatten)) :
    Keeps titles cs (byteLength front) (pieceEnds (byteLength front + byteLength held) pieces)
      (pieceEnds (byteLength front) (joinTitles titles held pieces)) := by
  fun_induction joinTitles titles held pieces generalizing front with
  | case1 held => exact .nil
  | case2 held piece =>
    rw [pieceEnds_append]
    exact .last
  | case3 held piece next pieces hends ih =>
    have htail := @ih front (by rw [hcs, List.flatten_cons, List.append_assoc])
    rw [byteLength_append, ← Nat.add_assoc] at htail
    exact .joined (slice?_held hcs) ((endsInTitle_iff _ _).mpr hends) htail
  | case4 held piece next pieces hends ih =>
    have hrest : cs = front ++ (held ++ piece) ++ ([] ++ (next :: pieces).flatten) := by
      rw [hcs, List.flatten_cons]
      simp only [List.append_assoc, List.nil_append]
    have htail := ih hrest
    simp only [byteLength_append, byteLength_nil, Nat.add_zero, ← Nat.add_assoc] at htail
    rw [pieceEnds_append]
    exact .kept (slice?_held hcs) (fun h ↦ hends ((endsInTitle_iff _ _).mp h)) htail

theorem trims_trimmedSpans (hcs : cs = front ++ pieces.flatten) :
    Trims cs (byteLength front) (pieceEnds (byteLength front) pieces)
      (trimmedSpans (byteLength front) pieces) := by
  induction pieces generalizing front with
  | nil => exact .nil
  | cons piece pieces ih =>
    have hpiece := slice?_append front piece pieces.flatten
    have htail := @ih (front ++ piece) (by rw [hcs, List.flatten_cons, List.append_assoc])
    rw [← List.flatten_cons, ← hcs] at hpiece
    rw [byteLength_append] at htail
    rw [pieceEnds, trimmedSpans]
    cases hr : trimmedSpan? (byteLength front) piece with
    | none => exact .blank hpiece (trimmedSpan?_eq_none hr) htail
    | some r =>
      obtain ⟨us, body, vs, rfl, hus, hvs, hbody, hspan⟩ := trimmedSpan?_eq_some hr
      exact .text ⟨us, body, vs, hpiece, hus, hvs, hbody, hspan⟩ htail

theorem Keeps.unique (h : Keeps titles cs start bs ks) (h' : Keeps titles cs start bs ks') :
    ks = ks' := by
  induction h generalizing ks' with
  | nil =>
    cases h'
    rfl
  | last =>
    cases h'
    rfl
  | joined htext hends _ ih =>
    cases h' with
    | joined _ _ htail => exact ih htail
    | kept htext' hends' _ =>
      obtain rfl := Option.some.inj (htext.symm.trans htext')
      exact absurd hends hends'
  | kept htext hends _ ih =>
    cases h' with
    | joined htext' hends' _ =>
      obtain rfl := Option.some.inj (htext.symm.trans htext')
      exact absurd hends' hends
    | kept _ _ htail => exact congrArg _ (ih htail)

theorem TrimsTo.within (h : TrimsTo cs start stop r) (h' : TrimsTo cs start stop r') :
    r.start ≤ r'.start ∧ r'.stop ≤ r.stop := by
  obtain ⟨us, body, vs, hslice, hus, hvs, -, rfl⟩ := h
  obtain ⟨us', body', vs', hslice', -, -, hbody', rfl⟩ := h'
  have heq := Option.some.inj (hslice'.symm.trans hslice)
  constructor
  · obtain ⟨c, rest, rfl, hc⟩ := hbody'.head
    have hle := byteLength_le_of_front heq hus hc
    simp only
    omega
  · obtain ⟨front, c, rfl, hc⟩ := hbody'.last
    have heq' : us' ++ front ++ c :: vs' = us ++ body ++ vs := by simpa using heq
    have hle := le_byteLength_of_back heq' hvs hc
    simp only [byteLength_append, byteLength_cons, byteLength_nil] at hle ⊢
    omega

theorem TrimsTo.unique (h : TrimsTo cs start stop r) (h' : TrimsTo cs start stop r') : r = r' := by
  have hwithin := h.within h'
  have hwithin' := h'.within h
  obtain ⟨a, b⟩ := r
  obtain ⟨a', b'⟩ := r'
  simp only at hwithin hwithin'
  congr 1 <;> omega

theorem TrimsTo.not_blank {piece : Text} (h : TrimsTo cs start stop r)
    (hpiece : slice? cs ⟨start, stop⟩ = some piece) : ¬∀ c ∈ piece, isBlank c := by
  intro hblank
  obtain ⟨us, body, vs, hslice, -, -, hbody, -⟩ := h
  obtain ⟨c, rest, rfl, hc⟩ := hbody.head
  obtain rfl := Option.some.inj (hpiece.symm.trans hslice)
  simp [hblank c (by simp)] at hc

theorem Trims.unique (h : Trims cs start ks rs) (h' : Trims cs start ks rs') : rs = rs' := by
  induction h generalizing rs' with
  | nil =>
    cases h'
    rfl
  | blank hpiece hblank _ ih =>
    cases h' with
    | blank _ _ htail => exact ih htail
    | text htrims _ => exact absurd hblank (htrims.not_blank hpiece)
  | text htrims _ ih =>
    cases h' with
    | blank hpiece hblank _ => exact absurd hblank (htrims.not_blank hpiece)
    | text htrims' htail => rw [htrims.unique htrims', ih htail]

/-- Ranges that come one after the other have no byte in common. -/
theorem eq_of_ordered (hrs : rs.Pairwise fun r r' ↦ r.stop ≤ r'.start) (hr : r ∈ rs) (hr' : r' ∈ rs)
    (hlow : r.start < r'.stop) (hhigh : r'.start < r.stop) : r = r' := by
  have hapart : rs.Pairwise fun r r' ↦ r.stop ≤ r'.start ∨ r'.stop ≤ r.start := hrs.imp Or.inl
  have hsymm : Std.Symm fun r r' : Span ↦ r.stop ≤ r'.start ∨ r'.stop ≤ r.start :=
    ⟨fun _ _ ↦ Or.symm⟩
  by_cases heq : r = r'
  · exact heq
  · rcases hapart.forall hr hr' heq with hle | hle <;> omega

theorem coversText_split (s : Splitter) (cs : Text) : CoversText cs (s.split cs) := by
  have hordered : (s.split cs).Pairwise fun r r' ↦ r.stop ≤ r'.start := pairwise_trimmedSpans 0 _
  refine ⟨hordered, ?_, ?_⟩
  · intro r hr
    refine ⟨(split_bounds hr).1, ?_⟩
    obtain ⟨as, body, bs, hcut, hbody, rfl⟩ := exists_of_mem_trimmedSpans hr
    rw [s.flatten_pieces] at hcut
    rw [Nat.zero_add, hcut]
    exact ⟨body, slice?_append as body bs, hbody⟩
  · intro front c back hcs hc
    obtain ⟨r, hr, hstart, hstop⟩ := exists_trimmedSpan 0 ((s.flatten_pieces cs).trans hcs) hc
    rw [Nat.zero_add] at hstart hstop
    refine ⟨r, ⟨hr, hstart, hstop⟩, ?_⟩
    rintro r' ⟨hr', hstart', hstop'⟩
    have hsize := c.utf8Size_pos
    apply eq_of_ordered hordered hr' hr <;> omega

/-- The sentences are what is left of the text between the boundaries that are kept. -/
theorem split_coalesces (s : Splitter) (cs : Text) (spans : Array Span) :
    (0 :: pieceEnds 0 (candidates cs)).Pairwise (· < ·) ∧
      (0 :: pieceEnds 0 (candidates cs)).getLast? = some (byteLength cs) ∧
      (∀ rs, (∃ ks, Keeps s.rules.titles cs 0 (pieceEnds 0 (candidates cs)) ks ∧
        Trims cs 0 ks rs) ↔ rs = s.split cs) ∧
      CoversText cs (s.split cs) ∧
      (s.splitInto spans cs).toList = spans.toList ++ s.split cs := by
  have hkeeps : Keeps s.rules.titles cs 0 (pieceEnds 0 (candidates cs))
      (pieceEnds 0 (joinTitles s.rules.titles [] (candidates cs))) :=
    @keeps_joinTitles _ cs [] [] _ (candidates_flatten cs).symm
  have htrims : Trims cs 0 (pieceEnds 0 (joinTitles s.rules.titles [] (candidates cs)))
      (s.split cs) := @trims_trimmedSpans cs [] _ (s.flatten_pieces cs).symm
  refine ⟨?_, ?_, ?_, coversText_split s cs, s.toList_splitInto spans cs⟩
  · exact pairwise_pieceEnds 0 fun piece hpiece ↦ cutMarked_ne_nil hpiece
  · rw [getLast?_pieceEnds, candidates_flatten, Nat.zero_add]
  · intro rs
    constructor
    · rintro ⟨ks, hks, hrs⟩
      obtain rfl := hks.unique hkeeps
      exact hrs.unique htrims
    · rintro rfl
      exact ⟨_, hkeeps, htrims⟩

example : (Splitter.mk (.ofLocale "en".toList) (by decide +kernel)).split
    "Prof. Dr. Smith left. He slept.".toList = [⟨0, 21⟩, ⟨22, 31⟩] := by decide +kernel

end MarkupText
