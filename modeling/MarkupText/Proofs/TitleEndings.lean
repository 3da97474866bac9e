import MarkupText.Proofs.TitleWords

namespace MarkupText

open Text

def Titles.isBare (word : Text) : Bool :=
  !word.head?.any isQuote && !word.getLast?.any isQuote

def EndsInWord (text core : Text) : Prop :=
  ∃ front qs qs' back, text = front ++ (qs ++ core ++ qs') ++ back ∧
    (∀ c, front.getLast? = some c → isBlank c) ∧ (∀ c ∈ qs, Titles.isQuote c) ∧
    (∀ c ∈ qs', Titles.isQuote c) ∧ ∀ c ∈ back, isBlank c

variable {s : Splitter} {titles : Titles} {text word : Text} {c : Char}

theorem Rules.isTitle_iff : Rules.isTitle word ↔ word ≠ [] ∧ ∀ c ∈ word, isBlank c = false := by
  simp [Rules.isTitle]

theorem Splitter.isTitle_of_mem (hword : word ∈ s.rules.titles) : Rules.isTitle word := by
  have haccepted := s.error?_rules
  unfold Rules.error? at haccepted
  split at haccepted
  · have hnone := List.find?_eq_none.mp (Option.map_eq_none_iff.mp haccepted) word hword
    simpa using hnone
  · cases haccepted

theorem Titles.isBare_iff : Titles.isBare word ↔
    (∀ c, word.head? = some c → isQuote c = false) ∧
      ∀ c, word.getLast? = some c → isQuote c = false := by
  simp only [isBare, Bool.and_eq_true, Bool.not_eq_true', Option.any_eq_false]

theorem isBlank_of_isQuote (hc : Titles.isQuote c) : isBlank c = false := by
  have hcases : c = '"' ∨ c = '\'' ∨ c = '\u201C' ∨ c = '\u201D' ∨ c = '\u2018' ∨ c = '\u2019' := by
    simpa [Titles.isQuote, or_assoc] using hc
  rcases hcases with h | h | h | h | h | h <;> subst h <;> decide

/-- Quotes around a word make it no less the last word of a text. -/
theorem lastWord_of_endsInWord {front qs qs' back : Text} (hword : Rules.isTitle word)
    (hfront : ∀ c, front.getLast? = some c → isBlank c) (hqs : ∀ c ∈ qs, Titles.isQuote c)
    (hqs' : ∀ c ∈ qs', Titles.isQuote c) (hback : ∀ c ∈ back, isBlank c) :
    LastWord (front ++ (qs ++ word ++ qs') ++ back) (qs ++ word ++ qs') := by
  obtain ⟨hne, hletters⟩ := Rules.isTitle_iff.mp hword
  refine ⟨front, back, List.append_assoc .., by simp [hne], ?_, hback, hfront⟩
  intro c hc
  simp only [List.mem_append] at hc
  rcases hc with (hc | hc) | hc
  · exact isBlank_of_isQuote (hqs c hc)
  · exact hletters c hc
  · exact isBlank_of_isQuote (hqs' c hc)

theorem endsInTitle_iff_bare (htitles : ∀ t ∈ titles, Rules.isTitle t) :
    EndsInTitle titles text ↔ ∃ t ∈ titles, Titles.isBare t ∧ EndsInWord text t := by
  constructor
  · intro h
    obtain ⟨word, core, hword, hcore, hmem⟩ := h
    obtain ⟨front, back, htext, -, -, hback, hfront⟩ := hword
    obtain ⟨qs, qs', hquoted, hqs, hqs', hhead, hlast⟩ := hcore
    refine ⟨core, hmem, Titles.isBare_iff.mpr ⟨hhead, hlast⟩, front, qs, qs', back, ?_, hfront,
      hqs, hqs', hback⟩
    simp only [htext, hquoted, List.append_assoc]
  · intro h
    obtain ⟨t, hmem, hbare, front, qs, qs', back, htext, hfront, hqs, hqs', hback⟩ := h
    obtain ⟨hhead, hlast⟩ := Titles.isBare_iff.mp hbare
    subst htext
    refine ⟨qs ++ t ++ qs', t, ?_, ?_, hmem⟩
    · exact lastWord_of_endsInWord (htitles t hmem) hfront hqs hqs' hback
    · exact ⟨qs, qs', List.append_assoc .., hqs, hqs', hhead, hlast⟩

theorem endsInTitle_self (hword : Rules.isTitle word) :
    EndsInTitle titles word ↔ Titles.stripQuotes word ∈ titles := by
  have hlast : LastWord word word := by
    have h := @lastWord_of_endsInWord word [] [] [] [] hword nofun nofun nofun nofun
    simpa using h
  constructor
  · intro h
    obtain ⟨last, core, hword', hcore, hmem⟩ := h
    obtain rfl := Option.some.inj ((lastWord_iff.mp hword').symm.trans (lastWord_iff.mp hlast))
    rwa [unquoted_iff.mp hcore]
  · intro h
    exact ⟨word, _, hlast, unquoted_iff.mpr rfl, h⟩

/-- Of the titles that the rules allow, those without a quote at either end are found wherever a
text ends in them, and the others nowhere. -/
theorem endsWith_iff_bare (s : Splitter) (text : Text) :
    (s.rules.titles.endsWith text ↔
      ∃ t ∈ s.rules.titles, Titles.isBare t ∧ EndsInWord text t) ∧
    (s.rules.titles.endsWith text =
      Titles.endsWith (s.rules.titles.filter Titles.isBare) text) ∧
    ∀ t ∈ s.rules.titles, (Titles.isBare t → s.rules.titles.endsWith t) ∧
      (s.rules.titles.endsWith t ↔ Titles.stripQuotes t ∈ s.rules.titles) := by
  have htitles : ∀ t ∈ s.rules.titles, Rules.isTitle t := fun t ht ↦ s.isTitle_of_mem ht
  have hiff : s.rules.titles.endsWith text ↔
      ∃ t ∈ s.rules.titles, Titles.isBare t ∧ EndsInWord text t :=
    (endsInTitle_iff _ _).symm.trans (endsInTitle_iff_bare htitles)
  refine ⟨hiff, ?_, ?_⟩
  · have hfilter : ∀ t ∈ s.rules.titles.filter Titles.isBare, Rules.isTitle t := by
      intro t ht
      exact htitles t (List.mem_filter.mp ht).1
    apply Bool.eq_iff_iff.mpr
    rw [hiff, ← endsInTitle_iff, endsInTitle_iff_bare hfilter]
    simp only [List.mem_filter, and_assoc, and_self_left]
  · intro t ht
    have hself := (endsInTitle_iff s.rules.titles t).symm.trans (endsInTitle_self (htitles t ht))
    refine ⟨?_, hself⟩
    intro hbare
    obtain ⟨hhead, hlast⟩ := Titles.isBare_iff.mp hbare
    have hstrip : Unquoted t t := ⟨[], [], by simp, nofun, nofun, hhead, hlast⟩
    rw [hself, unquoted_iff.mp hstrip]
    exact ht

theorem endsWith_iff_bare_quoted :
    "Dr.".toList ∈ (["Dr.".toList, "'Mr.'".toList] : Titles) ∧ Titles.isBare "Dr.".toList ∧
      EndsInWord "Ask “Dr.” ".toList "Dr.".toList ∧
      Titles.endsWith ["Dr.".toList, "'Mr.'".toList] "Ask “Dr.” ".toList := by
  have hword : EndsInWord "Ask “Dr.” ".toList "Dr.".toList := by
    refine ⟨"Ask ".toList, ['“'], ['”'], [' '], by decide, ?_, ?_, ?_, ?_⟩
    · intro c hc
      obtain rfl := Option.some.inj hc
      decide
    · exact List.forall_mem_singleton.mpr (by decide)
    · exact List.forall_mem_singleton.mpr (by decide)
    · exact List.forall_mem_singleton.mpr (by decide)
  have h := endsWith_iff_bare
    ⟨⟨"en".toList, ["Dr.".toList, "'Mr.'".toList]⟩, by decide⟩ "Ask “Dr.” ".toList
  exact ⟨by decide, by decide, hword, h.1.mpr ⟨_, List.mem_cons_self, by decide, hword⟩⟩

/-- A title may be written with quotes around it, and then no text ends in it, not even its own. -/
theorem not_endsWith_quoted : ∃ (s : Splitter) (t : Text),
    t ∈ s.rules.titles ∧ EndsInWord t t ∧ s.rules.titles.endsWith t = false := by
  refine ⟨⟨⟨"en".toList, ["\"Dr.\"".toList]⟩, by decide⟩, "\"Dr.\"".toList, ?_, ?_, ?_⟩
  · decide
  · exact ⟨[], [], [], [], by decide, nofun, nofun, nofun, nofun⟩
  · decide

end MarkupText
