import MarkupText.Proofs.CutTitles

namespace MarkupText

open Text

def Splitter.ends (s : Splitter) (cs : Text) : List Nat :=
  endsFrom s.rules.titles [] [] (candidates cs)

variable {titles : Titles} {cs : Text} {pieces : List Text} {s s' : Splitter} {r r' : Span}
  {b k offset : Nat}

theorem le_of_mem_pieceEnds (hk : k ∈ pieceEnds offset pieces) : offset ≤ k := by
  induction pieces generalizing offset with
  | nil => cases hk
  | cons piece pieces ih =>
    rcases List.mem_cons.mp hk with heq | hk
    · omega
    · have hle := ih hk
      omega

/-- No piece ends inside what is left of one. -/
theorem not_inside_of_mem_pieceEnds (hr : r ∈ trimmedSpans offset pieces)
    (hk : k ∈ pieceEnds offset pieces) : k ≤ r.start ∨ r.stop ≤ k := by
  induction pieces generalizing offset with
  | nil => cases hk
  | cons piece pieces ih =>
    rcases List.mem_append.mp hr with hr | hr
    · right
      have hstop := (trimmedSpan?_bounds (Option.mem_toList.mp hr)).2.2
      rcases List.mem_cons.mp hk with heq | hk
      · exact heq ▸ hstop
      · exact Nat.le_trans hstop (le_of_mem_pieceEnds hk)
    · rcases List.mem_cons.mp hk with heq | hk
      · exact .inl (heq ▸ (trimmedSpans_bounds hr).1)
      · exact ih hr hk

theorem exists_pieceEnd_between (hr : r ∈ trimmedSpans offset pieces)
    (hr' : r' ∈ trimmedSpans offset pieces) (hle : r.stop ≤ r'.start) :
    ∃ k ∈ pieceEnds offset pieces, r.stop ≤ k ∧ k ≤ r'.start := by
  induction pieces generalizing offset with
  | nil => cases hr
  | cons piece pieces ih =>
    have hlt := (trimmedSpans_bounds hr).2.1
    have hlt' := (trimmedSpans_bounds hr').2.1
    rcases List.mem_append.mp hr with hr | hr
    · have hstop := (trimmedSpan?_bounds (Option.mem_toList.mp hr)).2.2
      rcases List.mem_append.mp hr' with hr' | hr'
      · obtain rfl := Option.some.inj
          ((Option.mem_toList.mp hr).symm.trans (Option.mem_toList.mp hr'))
        omega
      · exact ⟨_, List.mem_cons_self, hstop, (trimmedSpans_bounds hr').1⟩
    · have hstart := (trimmedSpans_bounds hr).1
      rcases List.mem_append.mp hr' with hr' | hr'
      · have hstop := (trimmedSpan?_bounds (Option.mem_toList.mp hr')).2.2
        omega
      · obtain ⟨k, hk, hbetween⟩ := ih hr hr'
        exact ⟨k, List.mem_cons_of_mem _ hk, hbetween⟩

namespace Splitter

/-- A range from one character that is not blank to another lies in one sentence if no boundary
between them is kept. -/
theorem exists_contains_iff (hr : r ∈ s.split cs) :
    (∃ r' ∈ s'.split cs, r'.start ≤ r.start ∧ r.stop ≤ r'.stop) ↔
      ∀ k ∈ s'.ends cs, k ≤ r.start ∨ r.stop ≤ k := by
  constructor
  · intro h k hk
    obtain ⟨r', hr', hstart, hstop⟩ := h
    rcases not_inside_of_mem_pieceEnds hr' hk with hle | hle
    · exact .inl (Nat.le_trans hle hstart)
    · exact .inr (Nat.le_trans hstop hle)
  · intro h
    have hcovers := coversText_split s' cs
    obtain ⟨-, body, hslice, hbody⟩ := (coversText_split s cs).parts r hr
    obtain ⟨front, back, hcs, hstart, hstop⟩ := slice?_eq_some_iff.mp hslice
    obtain ⟨c, rest, hhead, hc⟩ := hbody.head
    obtain ⟨most, d, hlast, hd⟩ := hbody.last
    obtain ⟨u, ⟨hu, hulow, huhigh⟩, -⟩ := hcovers.covered front c (rest ++ back)
      (by simp [hcs, hhead]) hc
    obtain ⟨v, ⟨hv, hvlow, hvhigh⟩, -⟩ := hcovers.covered (front ++ most) d back
      (by simp [hcs, hlast]) hd
    have hsize := c.utf8Size_pos
    have hsize' := d.utf8Size_pos
    have hlength : byteLength body = byteLength most + d.utf8Size := by simp [hlast]
    have hlength' : byteLength body = c.utf8Size + byteLength rest := by simp [hhead]
    rw [byteLength_append] at hvlow hvhigh
    rcases Nat.lt_or_ge v.start u.stop with hlt | hge
    · have hmeet : u.start < v.stop := by omega
      obtain rfl := eq_of_ordered hcovers.ordered hu hv hmeet hlt
      exact ⟨u, hu, by omega, by omega⟩
    · obtain ⟨k, hk, hlow, hhigh⟩ := exists_pieceEnd_between hu hv hge
      rcases h k hk with hle | hle <;> omega

theorem keptOrCut_ends (hsub : s.rules.titles ⊆ s'.rules.titles) (hb : b ∈ s'.ends cs) :
    b ∈ s.ends cs ∨ ∃ a ∈ s.ends cs, a ∉ s'.ends cs ∧ CutTitleAt s.rules.titles cs ⟨a, b⟩ ∧
      ∀ k ∈ s.ends cs, k ≤ a ∨ b < k := by
  have hcs : cs = [] ++ ([] ++ (candidates cs).flatten) := (candidates_flatten cs).symm
  have hkept := keptOrCut_endsFrom hsub hcs (fun piece hpiece ↦ cutMarked_ne_nil hpiece)
    (.behind [] [] []) hb
  rcases hkept with hmem | hcut
  · exact .inl hmem
  · obtain ⟨a, ha, hnot, hcut, hgap⟩ := hcut
    refine .inr ⟨a, ?_, fun hmem ↦ hnot (List.mem_cons_of_mem _ hmem), hcut, hgap⟩
    rcases List.mem_cons.mp ha with heq | ha
    · exact absurd heq fun heq ↦ hnot (heq ▸ List.mem_cons_self)
    · exact ha

/-- The sentence that has the boundary behind a cut title inside begins with that title. -/
theorem start_eq_of_cutTitleAt (hr : r ∈ s.split cs) {a : Nat} (ha : a ∈ s.ends cs)
    (hcut : CutTitleAt titles cs ⟨a, b⟩) (hgap : ∀ k ∈ s.ends cs, k ≤ a ∨ b < k)
    (hlow : r.start < b) (hhigh : b < r.stop) : r.start = a := by
  obtain ⟨front, held, back, hcs, ⟨-, word, core, ⟨hne, hletters, blanks, hheld, -⟩, -⟩, hspan⟩ := hcut
  obtain ⟨rfl, rfl⟩ := Span.mk.inj hspan
  obtain ⟨c, rest, rfl⟩ := List.exists_cons_of_ne_nil hne
  have hcovers := coversText_split s cs
  obtain ⟨u, ⟨hu, hulow, huhigh⟩, -⟩ := hcovers.covered front c (rest ++ blanks ++ back)
    (by simp [hcs, hheld]) (hletters c List.mem_cons_self)
  have hsize := c.utf8Size_pos
  have hlength : byteLength held = c.utf8Size + byteLength (rest ++ blanks) := by
    simp [hheld]
  have hinside := not_inside_of_mem_pieceEnds hr ha
  by_cases heq : u = r
  · subst heq
    omega
  · have hmeet : ¬(u.start < r.stop ∧ r.start < u.stop) := fun hmeet ↦
      heq (eq_of_ordered hcovers.ordered hu hr hmeet.1 hmeet.2)
    obtain ⟨k, hk, hklow, hkhigh⟩ := exists_pieceEnd_between hu hr (by omega)
    rcases hgap k hk with hle | hlt <;> omega

end Splitter

/-- More titles only ever join sentences, but for one that begins in the middle of a word, at a
boundary that they join, where the rest of that word is a title by itself. -/
theorem split_nests (s s' : Splitter) (hsub : s.rules.titles ⊆ s'.rules.titles) (cs : Text) :
    (∀ b ∈ s'.ends cs, b ∈ s.ends cs ∨
      ∃ a ∈ s.ends cs, a ∉ s'.ends cs ∧ CutTitleAt s.rules.titles cs ⟨a, b⟩) ∧
    ∀ r ∈ s.split cs, (∃ r' ∈ s'.split cs, r'.start ≤ r.start ∧ r.stop ≤ r'.stop) ↔
      ¬(r.start ∈ s.ends cs ∧ r.start ∉ s'.ends cs ∧
        ∃ b ∈ s'.ends cs, b < r.stop ∧ CutTitleAt s.rules.titles cs ⟨r.start, b⟩) := by
  constructor
  · intro b hb
    rcases Splitter.keptOrCut_ends hsub hb with hmem | hcut
    · exact .inl hmem
    · obtain ⟨a, ha, hnot, hcut, -⟩ := hcut
      exact .inr ⟨a, ha, hnot, hcut⟩
  · intro r hr
    rw [Splitter.exists_contains_iff hr]
    constructor
    · intro h hcut
      obtain ⟨-, -, b, hb, hlt, hcut⟩ := hcut
      have hlow : r.start < b := hcut.start_lt_stop
      rcases h b hb with hle | hle <;> omega
    · intro h b hb
      by_contra hinside
      have hlow : r.start < b := by omega
      have hhigh : b < r.stop := by omega
      rcases Splitter.keptOrCut_ends hsub hb with hmem | hcut
      · exact hinside (not_inside_of_mem_pieceEnds hr hmem)
      · obtain ⟨a, ha, hnot, hcut, hgap⟩ := hcut
        obtain rfl := Splitter.start_eq_of_cutTitleAt hr ha hcut hgap hlow hhigh
        exact h ⟨ha, hnot, b, hb, hhigh, hcut⟩

theorem split_nests_titles :
    (["Dr.".toList] : Titles) ⊆ ["Dr.".toList, "Prof.".toList] ∧
    ∃ r' ∈ Splitter.split ⟨⟨"en".toList, ["Dr.".toList, "Prof.".toList]⟩, by decide⟩
      "Prof. Dr. Smith left. He slept.".toList, r'.start ≤ 6 ∧ 21 ≤ r'.stop := by
  have hsub : (["Dr.".toList] : Titles) ⊆ ["Dr.".toList, "Prof.".toList] := by decide
  have hr : ⟨6, 21⟩ ∈ Splitter.split ⟨⟨"en".toList, ["Dr.".toList]⟩, by decide⟩
      "Prof. Dr. Smith left. He slept.".toList := by decide +kernel
  have hends : Splitter.ends ⟨⟨"en".toList, ["Dr.".toList, "Prof.".toList]⟩, by decide⟩
      "Prof. Dr. Smith left. He slept.".toList = [22, 31] := by decide +kernel
  refine ⟨hsub, ((split_nests _ _ hsub _).2 _ hr).mpr ?_⟩
  intro h
  obtain ⟨-, -, b, hb, hlt, -⟩ := h
  rw [hends] at hb
  have hcases : b = 22 ∨ b = 31 := by simpa using hb
  have hlt' : b < 21 := hlt
  omega

/-- With `Mr.` a title as well, `"Mr."Dr.` is the word that is looked at, and `Dr.` no longer joins
what comes after it. -/
theorem not_split_nests : ∃ (s s' : Splitter) (cs : Text) (r : Span),
    s.rules.titles ⊆ s'.rules.titles ∧ r ∈ s.split cs ∧
      ∀ r' ∈ s'.split cs, ¬(r'.start ≤ r.start ∧ r.stop ≤ r'.stop) := by
  refine ⟨⟨⟨"en".toList, ["Dr.".toList]⟩, by decide⟩,
    ⟨⟨"en".toList, ["Dr.".toList, "Mr.".toList]⟩, by decide⟩,
    "Call \"Mr.\"Dr. Smith came.".toList, ⟨10, 25⟩, ?_⟩
  decide +kernel

end MarkupText
