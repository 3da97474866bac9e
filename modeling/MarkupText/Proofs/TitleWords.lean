import MarkupText.Proofs.Trimming

namespace MarkupText

open Text

/-- The last of the longest runs of characters of `text` that are not blank is `word`. -/
def LastWord (text word : Text) : Prop :=
  ∃ front back, text = front ++ (word ++ back) ∧ word ≠ [] ∧ (∀ c ∈ word, isBlank c = false) ∧
    (∀ c ∈ back, isBlank c) ∧ ∀ c, front.getLast? = some c → isBlank c

def Unquoted (word core : Text) : Prop :=
  ∃ qs qs', word = qs ++ (core ++ qs') ∧ (∀ c ∈ qs, Titles.isQuote c) ∧
    (∀ c ∈ qs', Titles.isQuote c) ∧ (∀ c, core.head? = some c → Titles.isQuote c = false) ∧
    ∀ c, core.getLast? = some c → Titles.isQuote c = false

/-- The last word of `text` is a title, whatever quotes are around it. -/
def EndsInTitle (titles : Titles) (text : Text) : Prop :=
  ∃ word core, LastWord text word ∧ Unquoted word core ∧ core ∈ titles

variable {p : Char → Bool} {text word core cs ds : Text} {c : Char}

namespace Text

theorem words_append_blank (hc : isBlank c) (cs ds : Text) :
    words (cs ++ c :: ds) = words cs ++ words ds := by
  rw [words, List.splitOnP_append_cons cs ds hc, List.filter_append, words, words]

theorem words_append_of_blank (cs : Text) (hds : ∀ c ∈ ds, isBlank c) :
    words (cs ++ ds) = words cs := by
  induction ds generalizing cs with
  | nil => rw [List.append_nil]
  | cons c ds ih =>
    have hrest (cs : Text) : words (cs ++ ds) = words cs :=
      ih cs fun d hd ↦ hds d (List.mem_cons_of_mem c hd)
    rw [words_append_blank (hds c List.mem_cons_self), ← List.nil_append ds, hrest]
    exact List.append_nil (words cs)

theorem words_of_not_blank (hne : word ≠ []) (hword : ∀ c ∈ word, isBlank c = false) :
    words word = [word] := by
  rw [words, List.splitOnP_eq_singleton hword]
  simp [hne]

theorem dropWhile_of_head (h : ∀ c, cs.head? = some c → p c = false) : cs.dropWhile p = cs := by
  cases cs with
  | nil => rfl
  | cons c cs => exact List.dropWhile_cons_of_neg (by simp [h c rfl])

theorem dropEndWhile_eq (hds : ∀ c ∈ ds, p c) (hcs : ∀ c, cs.getLast? = some c → p c = false) :
    dropEndWhile p (cs ++ ds) = cs := by
  have hpos : ∀ c ∈ ds.reverse, p c := fun c hc ↦ hds c (List.mem_reverse.mp hc)
  have hhead : ∀ c, cs.reverse.head? = some c → p c = false := fun c hc ↦
    hcs c (List.head?_reverse ▸ hc)
  rw [dropEndWhile, List.reverse_append, List.dropWhile_append_of_pos hpos,
    dropWhile_of_head hhead, List.reverse_reverse]

end Text

theorem LastWord.getLast?_words (h : LastWord text word) : (words text).getLast? = some word := by
  obtain ⟨front, back, rfl, hne, hword, hback, hfront⟩ := h
  have hwords : ∃ ws, words (front ++ word) = ws ++ [word] := by
    cases hlast : front.getLast? with
    | none =>
      rw [List.getLast?_eq_none_iff.mp hlast]
      exact ⟨[], words_of_not_blank hne hword⟩
    | some c =>
      obtain ⟨front, rfl⟩ := List.getLast?_eq_some_iff.mp hlast
      refine ⟨words front, ?_⟩
      rw [List.append_assoc, List.singleton_append, words_append_blank (hfront c hlast),
        words_of_not_blank hne hword]
  obtain ⟨ws, hws⟩ := hwords
  rw [← List.append_assoc, words_append_of_blank _ hback, hws, List.getLast?_concat]

theorem exists_lastWord (htext : ¬∀ c ∈ text, isBlank c) : ∃ word, LastWord text word := by
  obtain ⟨back, hback, hblank⟩ := exists_ending isBlank text
  obtain ⟨word, hword, hletters⟩ := exists_ending (!isBlank ·) (dropEndWhile isBlank text)
  refine ⟨word, dropEndWhile (!isBlank ·) (dropEndWhile isBlank text), back,
    ?_, ?_, ?_, hblank, ?_⟩
  · exact hback.trans ((congrArg (· ++ back) hword).trans (List.append_assoc ..))
  · rintro rfl
    rw [List.append_nil] at hword
    cases hend : (dropEndWhile isBlank text).getLast? with
    | none =>
      rw [List.getLast?_eq_none_iff.mp hend, List.nil_append] at hback
      exact htext (hback ▸ hblank)
    | some c =>
      have hc := getLast?_dropEndWhile hend
      rw [hword] at hend
      simpa [hc] using getLast?_dropEndWhile hend
  · intro c hc
    simpa using hletters c hc
  · intro c hc
    simpa using getLast?_dropEndWhile hc

theorem lastWord_iff : LastWord text word ↔ (words text).getLast? = some word := by
  constructor
  · exact LastWord.getLast?_words
  · intro h
    have htext : ¬∀ c ∈ text, isBlank c := by
      intro hblank
      rw [← List.nil_append text, words_append_of_blank [] hblank] at h
      cases h
    obtain ⟨last, hlast⟩ := exists_lastWord htext
    obtain rfl := Option.some.inj (hlast.getLast?_words.symm.trans h)
    exact hlast

theorem unquoted_iff : Unquoted word core ↔ Titles.stripQuotes word = core := by
  constructor
  · rintro ⟨qs, qs', rfl, hqs, hqs', hhead, hlast⟩
    rw [Titles.stripQuotes, List.dropWhile_append_of_pos hqs]
    cases core with
    | nil =>
      have hnil : (qs' ++ []).dropWhile Titles.isQuote = [] := List.dropWhile_append_of_pos hqs'
      rw [List.append_nil] at hnil
      rw [List.nil_append, hnil]
      rfl
    | cons c core =>
      have hstop : ∀ d, (c :: core ++ qs').head? = some d → Titles.isQuote d = false := hhead
      rw [dropWhile_of_head hstop, dropEndWhile_eq hqs' hlast]
  · rintro rfl
    obtain ⟨qs', hrest, hqs'⟩ := exists_ending Titles.isQuote (word.dropWhile Titles.isQuote)
    refine ⟨word.takeWhile Titles.isQuote, qs', ?_, ?_, hqs', ?_, ?_⟩
    · rw [Titles.stripQuotes, ← hrest, List.takeWhile_append_dropWhile]
    · exact fun c hc ↦ List.all_eq_true.mp List.all_takeWhile c hc
    · intro c hc
      obtain ⟨rest, hcore⟩ := List.head?_eq_some_iff.mp hc
      rw [← Titles.stripQuotes, hcore] at hrest
      exact head_dropWhile hrest
    · exact fun c hc ↦ getLast?_dropEndWhile hc

theorem endsInTitle_iff (titles : Titles) (text : Text) :
    EndsInTitle titles text ↔ titles.endsWith text := by
  rw [Titles.endsWith, Option.any_eq_true]
  constructor
  · rintro ⟨word, core, hword, hcore, hmem⟩
    refine ⟨word, lastWord_iff.mp hword, ?_⟩
    rw [unquoted_iff.mp hcore]
    exact List.contains_iff_mem.mpr hmem
  · rintro ⟨word, hword, hmem⟩
    exact ⟨word, _, lastWord_iff.mpr hword, unquoted_iff.mpr rfl, List.contains_iff_mem.mp hmem⟩

end MarkupText
