import MarkupText.Proofs.Coalescing

namespace MarkupText

open Text

def endsFrom (titles : Titles) (front held : Text) (pieces : List Text) : List Nat :=
  pieceEnds (byteLength front) (joinTitles titles held pieces)

structure IsWord (text word : Text) : Prop where
  ne_nil : word ≠ []
  letters : ∀ c ∈ word, isBlank c = false
  blanks : ∃ back, text = word ++ back ∧ ∀ c ∈ back, isBlank c

def EndsInLetter (text : Text) : Prop := ∃ c, text.getLast? = some c ∧ isBlank c = false

/-- The text `held` begins right after `front` in the middle of a word. It is the rest of that word,
and as a word of its own it is a title. -/
structure CutTitle (titles : Titles) (front held : Text) : Prop where
  inside : EndsInLetter front
  title : ∃ word core, IsWord held word ∧ Unquoted word core ∧ core ∈ titles

def CutTitleAt (titles : Titles) (cs : Text) (r : Span) : Prop :=
  ∃ front held back, cs = front ++ (held ++ back) ∧ CutTitle titles front held ∧
    r = ⟨byteLength front, byteLength front + byteLength held⟩

/-- Two splitters have come equally far in a text. One holds `held` after `front`, the other
`held'` after `front'`. The other began no later, or else behind a cut title. -/
inductive Drift (titles : Titles) : Text → Text → Text → Text → Prop
  | behind (front xs held : Text) : Drift titles (front ++ xs) held front (xs ++ held)
  | ahead {front ys : Text} (held : Text) :
    CutTitle titles front ys → Drift titles front (ys ++ held) (front ++ ys) held

/-- Two splitters keep the boundaries `ends` after `start` and `ends'` after `start'`. The one keeps
`b`, or a cut title comes between `b` and the last boundary before it that the one keeps. Then the
other does not keep that one. -/
def KeptOrCut (titles : Titles) (cs : Text) (start : Nat) (ends : List Nat) (start' : Nat)
    (ends' : List Nat) (b : Nat) : Prop :=
  b ∈ ends ∨ ∃ a ∈ start :: ends, a ∉ start' :: ends' ∧ CutTitleAt titles cs ⟨a, b⟩ ∧
    ∀ k ∈ ends, k ≤ a ∨ b < k

variable {titles titles' : Titles} {cs front front' held held' back text word last : Text}
  {pieces : List Text} {r : Span} {b k : Nat}

namespace IsWord

theorem lastWord (h : IsWord text word) : LastWord text word := by
  obtain ⟨hne, hletters, back, htext, hback⟩ := h
  exact ⟨[], back, htext, hne, hletters, hback, nofun⟩

theorem append_blank (h : IsWord text word) (hheld : ∀ c ∈ held, isBlank c) :
    IsWord (text ++ held) word := by
  obtain ⟨hne, hletters, back, htext, hback⟩ := h
  refine ⟨hne, hletters, back ++ held, by simp [htext], ?_⟩
  intro c hc
  rcases List.mem_append.mp hc with hc | hc
  · exact hback c hc
  · exact hheld c hc

theorem append (h : IsWord text word) (htext : EndsInLetter text) (h' : IsWord held last) :
    IsWord (text ++ held) (word ++ last) := by
  obtain ⟨hne, hletters, blanks, hblanks, hall⟩ := h
  obtain ⟨-, hletters', back, hheld, hback⟩ := h'
  obtain ⟨c, hc, hletter⟩ := htext
  have hnil : blanks = [] := by
    cases hend : blanks.getLast? with
    | none => exact List.getLast?_eq_none_iff.mp hend
    | some d =>
      rw [hblanks, List.getLast?_append, hend, Option.some_or] at hc
      obtain rfl := Option.some.inj hc
      simp [hall d (List.mem_of_getLast? hend)] at hletter
  refine ⟨by simp [hne], ?_, back, by simp [hblanks, hnil, hheld], hback⟩
  intro c hc
  rcases List.mem_append.mp hc with hc | hc
  · exact hletters c hc
  · exact hletters' c hc

end IsWord

namespace LastWord

theorem unique (h : LastWord text word) (h' : LastWord text last) : word = last :=
  Option.some.inj ((lastWord_iff.mp h).symm.trans (lastWord_iff.mp h'))

/-- A word stays the last one when text comes before it, unless that text runs into it. -/
theorem append_left (h : LastWord text word) (xs : Text) :
    LastWord (xs ++ text) word ∨ EndsInLetter xs ∧ IsWord text word := by
  obtain ⟨front, back, htext, hne, hletters, hback, hfront⟩ := h
  by_cases hrun : EndsInLetter (xs ++ front)
  · right
    obtain ⟨c, hc, hletter⟩ := hrun
    rw [List.getLast?_append] at hc
    cases hlast : front.getLast? with
    | some d =>
      rw [hlast, Option.some_or] at hc
      obtain rfl := Option.some.inj hc
      simp [hfront d hlast] at hletter
    | none =>
      rw [hlast, Option.none_or] at hc
      rw [List.getLast?_eq_none_iff.mp hlast] at htext
      exact ⟨⟨c, hc, hletter⟩, hne, hletters, back, htext, hback⟩
  · left
    refine ⟨xs ++ front, back, by simp [htext], hne, hletters, hback, ?_⟩
    intro c hc
    by_contra hletter
    exact hrun ⟨c, hc, by simpa using hletter⟩

end LastWord

namespace EndsInTitle

theorem mono (hsub : titles ⊆ titles') (h : EndsInTitle titles text) :
    EndsInTitle titles' text := by
  obtain ⟨word, core, hword, hcore, hmem⟩ := h
  exact ⟨word, core, hword, hcore, hsub hmem⟩

/-- Text in front undoes a title only where it runs into it. -/
theorem cutTitle {xs : Text} (h : EndsInTitle titles held) (hxs : ¬EndsInTitle titles (xs ++ held))
    (front : Text) : CutTitle titles (front ++ xs) held ∧ xs ≠ [] := by
  obtain ⟨word, core, hword, hcore, hmem⟩ := h
  rcases hword.append_left xs with hlast | hcut
  · exact absurd ⟨word, core, hlast, hcore, hmem⟩ hxs
  · obtain ⟨⟨c, hc, hletter⟩, hheld⟩ := hcut
    refine ⟨⟨⟨c, ?_, hletter⟩, word, core, hheld, hcore, hmem⟩, ?_⟩
    · rw [List.getLast?_append, hc, Option.some_or]
    · intro hnil
      simp [hnil] at hc

end EndsInTitle

namespace CutTitle

theorem ne_nil (h : CutTitle titles front held) : held ≠ [] := by
  obtain ⟨-, word, core, ⟨hne, -, back, hheld, -⟩, -⟩ := h
  simp [hheld, hne]

/-- A title at the end of more text is all in that text, or it is still the rest of one word. -/
theorem append (h : CutTitle titles front text) (hends : EndsInTitle titles (text ++ held))
    (hheld : ¬EndsInTitle titles held) : CutTitle titles front (text ++ held) := by
  obtain ⟨hinside, rest, core, hrest, hcore, hmem⟩ := h
  by_cases hblank : ∀ c ∈ held, isBlank c
  · exact ⟨hinside, rest, core, hrest.append_blank hblank, hcore, hmem⟩
  · obtain ⟨word, core', hword, hcore', hmem'⟩ := hends
    obtain ⟨last, hlast⟩ := exists_lastWord hblank
    rcases hlast.append_left text with hlast' | hrun
    · obtain rfl := hword.unique hlast'
      exact absurd ⟨word, core', hlast, hcore', hmem'⟩ hheld
    · have hjoined := hrest.append hrun.1 hrun.2
      obtain rfl := hword.unique hjoined.lastWord
      exact ⟨hinside, rest ++ last, core', hjoined, hcore', hmem'⟩

end CutTitle

theorem CutTitleAt.start_lt_stop (h : CutTitleAt titles cs r) : r.start < r.stop := by
  obtain ⟨front, held, back, -, hcut, hspan⟩ := h
  have hpos := byteLength_pos hcut.ne_nil
  simp only [hspan]
  omega

namespace Drift

theorem meet (h : Drift titles front held front' held') : front' ++ held' = front ++ held := by
  cases h <;> simp

theorem append (h : Drift titles front held front' held') (piece : Text) :
    Drift titles front (held ++ piece) front' (held' ++ piece) := by
  cases h with
  | behind _ xs _ =>
    rw [List.append_assoc]
    exact .behind front' xs (held ++ piece)
  | ahead _ hcut =>
    rw [List.append_assoc]
    exact .ahead (held' ++ piece) hcut

theorem cutTitle (hsub : titles ⊆ titles') (h : Drift titles front held front' held')
    (hends : EndsInTitle titles held) (hkept : ¬EndsInTitle titles' held') :
    CutTitle titles front held ∧ byteLength front ≠ byteLength front' := by
  have hkept' : ¬EndsInTitle titles held' := fun hends' ↦ hkept (hends'.mono hsub)
  cases h with
  | behind _ xs _ =>
    obtain ⟨hcut, hne⟩ := hends.cutTitle hkept' front'
    have hpos := byteLength_pos hne
    refine ⟨hcut, ?_⟩
    rw [byteLength_append]
    omega
  | ahead _ hcut =>
    have hpos := byteLength_pos hcut.ne_nil
    refine ⟨hcut.append hends hkept', ?_⟩
    rw [byteLength_append]
    omega

end Drift

theorem byteLength_lt_append {piece : Text} (front held : Text) (hpiece : piece ≠ []) :
    byteLength front < byteLength (front ++ (held ++ piece)) := by
  have hpos := byteLength_pos hpiece
  simp only [byteLength_append]
  omega

theorem endsFrom_single (titles : Titles) (front held piece : Text) :
    endsFrom titles front held [piece] = [byteLength (front ++ (held ++ piece))] := by
  simp [endsFrom, joinTitles, pieceEnds]

theorem endsFrom_joined {piece next : Text} (h : EndsInTitle titles (held ++ piece)) :
    endsFrom titles front held (piece :: next :: pieces) =
      endsFrom titles front (held ++ piece) (next :: pieces) := by
  rw [endsFrom, joinTitles, if_pos ((endsInTitle_iff _ _).mp h), endsFrom]

theorem endsFrom_kept {piece next : Text} (h : ¬EndsInTitle titles (held ++ piece)) :
    endsFrom titles front held (piece :: next :: pieces) =
      byteLength (front ++ (held ++ piece)) ::
        endsFrom titles (front ++ (held ++ piece)) [] (next :: pieces) := by
  rw [endsFrom, joinTitles, if_neg (fun hends ↦ h ((endsInTitle_iff _ _).mpr hends)), pieceEnds,
    ← byteLength_append, endsFrom]

theorem endsFrom_sublist (titles : Titles) (front held : Text) (pieces : List Text) :
    (endsFrom titles front held pieces).Sublist (pieceEnds (byteLength (front ++ held)) pieces) := by
  induction pieces generalizing front held with
  | nil => exact .slnil
  | cons piece pieces ih =>
    have hstop : byteLength (front ++ held) + byteLength piece =
        byteLength (front ++ (held ++ piece)) := by
      rw [← byteLength_append, List.append_assoc]
    rw [pieceEnds, hstop]
    cases pieces with
    | nil =>
      rw [endsFrom_single]
      exact .refl _
    | cons next pieces =>
      by_cases h : EndsInTitle titles (held ++ piece)
      · rw [endsFrom_joined h]
        exact (ih front (held ++ piece)).cons _
      · have hrest := ih (front ++ (held ++ piece)) []
        rw [List.append_nil] at hrest
        rw [endsFrom_kept h]
        exact hrest.cons_cons _

theorem lt_of_mem_endsFrom (hpieces : ∀ piece ∈ pieces, piece ≠ [])
    (hk : k ∈ endsFrom titles front held pieces) : byteLength (front ++ held) < k :=
  lt_of_mem_pieceEnds hpieces ((endsFrom_sublist titles front held pieces).subset hk)

namespace KeptOrCut

variable {start start' e : Nat} {ends ends' : List Nat}

theorem of_cutTitle (hcut : CutTitle titles front held) (hcs : cs = front ++ (held ++ back))
    (hends : ∀ k ∈ ends, byteLength (front ++ held) < k)
    (hends' : byteLength front ∉ start' :: ends') :
    KeptOrCut titles cs (byteLength front) ends start' ends' (byteLength (front ++ held)) := by
  refine .inr ⟨_, List.mem_cons_self, hends', ?_, fun k hk ↦ .inr (hends k hk)⟩
  exact ⟨front, held, back, hcs, hcut, by rw [byteLength_append]⟩

/-- The one keeps a boundary more, before the others. -/
theorem cons (h : KeptOrCut titles cs e ends start' ends' b) (hends : ∀ k ∈ ends, e < k)
    (start : Nat) : KeptOrCut titles cs start (e :: ends) start' ends' b := by
  rcases h with hmem | hcut
  · exact .inl (List.mem_cons_of_mem e hmem)
  · obtain ⟨a, ha, hnot, hcut, hgap⟩ := hcut
    refine .inr ⟨a, List.mem_cons_of_mem start ha, hnot, hcut, ?_⟩
    have hle : e ≤ a := by
      rcases List.mem_cons.mp ha with heq | ha
      · exact Nat.le_of_eq heq.symm
      · exact Nat.le_of_lt (hends a ha)
    intro k hk
    rcases List.mem_cons.mp hk with heq | hk
    · exact .inl (heq ▸ hle)
    · exact hgap k hk

/-- The other keeps a boundary more, before the others. -/
theorem cons_other (h : KeptOrCut titles cs start ends e ends' b) (hne : start ≠ start')
    (hends : ∀ k ∈ ends, start' < k) :
    KeptOrCut titles cs start ends start' (e :: ends') b := by
  rcases h with hmem | hcut
  · exact .inl hmem
  · obtain ⟨a, ha, hnot, hcut, hgap⟩ := hcut
    have hapart : a ≠ start' := by
      rcases List.mem_cons.mp ha with heq | ha
      · exact heq ▸ hne
      · exact Nat.ne_of_gt (hends a ha)
    refine .inr ⟨a, ha, ?_, hcut, hgap⟩
    exact fun hmem ↦ (List.mem_cons.mp hmem).elim hapart hnot

end KeptOrCut

/-- What the splitter with more titles keeps, from the same place of a text on. -/
theorem keptOrCut_endsFrom (hsub : titles ⊆ titles') (hcs : cs = front ++ (held ++ pieces.flatten))
    (hpieces : ∀ piece ∈ pieces, piece ≠ []) (hdrift : Drift titles front held front' held')
    (hb : b ∈ endsFrom titles' front' held' pieces) :
    KeptOrCut titles cs (byteLength front) (endsFrom titles front held pieces)
      (byteLength front') (endsFrom titles' front' held' pieces) b := by
  induction pieces generalizing front held front' held' with
  | nil => cases hb
  | cons piece pieces ih =>
    have hnext := hdrift.append piece
    have hmeet := hnext.meet
    cases pieces with
    | nil =>
      left
      rw [endsFrom_single] at hb ⊢
      rwa [← hmeet]
    | cons next pieces =>
      have hrest : ∀ p ∈ next :: pieces, p ≠ [] := fun p hp ↦
        hpieces p (List.mem_cons_of_mem piece hp)
      have hcs' : cs = front ++ ((held ++ piece) ++ (next :: pieces).flatten) := by
        rw [hcs, List.flatten_cons, List.append_assoc]
      have hcs'' : cs = (front ++ (held ++ piece)) ++ ([] ++ (next :: pieces).flatten) := by
        rw [hcs', List.nil_append, List.append_assoc front]
      have hpiece := hpieces piece List.mem_cons_self
      have hstart := byteLength_lt_append front held hpiece
      have hstart' := hmeet ▸ byteLength_lt_append front' held' hpiece
      have hlater {ts : Titles} {xs ys : Text} (hxs : xs ++ ys = front ++ (held ++ piece)) :
          ∀ k ∈ endsFrom ts xs ys (next :: pieces), byteLength (front ++ (held ++ piece)) < k :=
        fun k hk ↦ hxs ▸ lt_of_mem_endsFrom hrest hk
      have hlast {ts : Titles} := @hlater ts (front ++ (held ++ piece)) [] (List.append_nil _)
      by_cases hends : EndsInTitle titles (held ++ piece)
      · by_cases hends' : EndsInTitle titles' (held' ++ piece)
        · rw [endsFrom_joined hends'] at hb
          rw [endsFrom_joined hends, endsFrom_joined hends']
          exact ih hcs' hrest hnext hb
        · obtain ⟨hcut, hne⟩ := hnext.cutTitle hsub hends hends'
          rw [endsFrom_kept hends', hmeet] at hb
          rw [endsFrom_joined hends, endsFrom_kept hends', hmeet]
          rcases List.mem_cons.mp hb with heq | hb
          · subst heq
            apply KeptOrCut.of_cutTitle hcut hcs' (hlater rfl)
            intro hmem
            rcases List.mem_cons.mp hmem with heq | hmem
            · exact hne heq
            · rcases List.mem_cons.mp hmem with heq | hmem
              · exact Nat.ne_of_lt hstart heq
              · exact Nat.lt_asymm hstart (hlast _ hmem)
          · have hdrift' := Drift.ahead [] hcut
            rw [List.append_nil] at hdrift'
            apply (ih hcs' hrest hdrift' hb).cons_other hne
            exact fun k hk ↦ Nat.lt_trans hstart' (hlater rfl k hk)
      · rw [endsFrom_kept hends]
        by_cases hends' : EndsInTitle titles' (held' ++ piece)
        · have hdrift' := @Drift.behind titles front' (held' ++ piece) []
          rw [hmeet, List.append_nil] at hdrift'
          rw [endsFrom_joined hends'] at hb ⊢
          exact (ih hcs'' hrest hdrift' hb).cons hlast _
        · have hdrift' := @Drift.behind titles (front ++ (held ++ piece)) [] []
          rw [List.append_nil, List.append_nil] at hdrift'
          rw [endsFrom_kept hends', hmeet] at hb ⊢
          rcases List.mem_cons.mp hb with heq | hb
          · exact .inl (heq ▸ List.mem_cons_self)
          · have hkept := (ih hcs'' hrest hdrift' hb).cons_other (Nat.ne_of_gt hstart')
              fun k hk ↦ Nat.lt_trans hstart' (hlast k hk)
            exact hkept.cons hlast _

end MarkupText
