import MarkupText.Proofs.Separators
import MarkupText.Proofs.TitleWords

namespace MarkupText.Text

inductive HasWords : Text → List Text → Prop
  | blank {cs : Text} : (∀ c ∈ cs, isBlank c) → HasWords cs []
  | word {gap word rest : Text} {ws : List Text} : (∀ c ∈ gap, isBlank c) → word ≠ [] →
      (∀ c ∈ word, isBlank c = false) → (∀ c ∈ rest.head?, isBlank c) → HasWords rest ws →
      HasWords (gap ++ (word ++ rest)) (word :: ws)

structure IsSqueezed (cs : Text) : Prop where
  eq_space : ∀ c ∈ cs, isBlank c → c = ' '
  single (front back : Text) : cs ≠ front ++ ' ' :: ' ' :: back
  head_ne : cs.head? ≠ some ' '
  getLast_ne : cs.getLast? ≠ some ' '

/-- `ds` has the words of `cs` in their order, one space apart. -/
structure Squeezes (cs ds : Text) : Prop where
  hasWords_iff (ws : List Text) : HasWords ds ws ↔ HasWords cs ws
  exists_words : ∃ ws, HasWords cs ws ∧ ds = [' '].intercalate ws
  isSqueezed : IsSqueezed ds

variable {cs ds buffer word : Text} {ws : List Text}

theorem words_blank_append (hcs : ∀ c ∈ cs, isBlank c) (ds : Text) :
    words (cs ++ ds) = words ds := by
  induction cs with
  | nil => rfl
  | cons c cs ih =>
    obtain ⟨hc, hcs⟩ := List.forall_mem_cons.mp hcs
    exact (words_append_blank hc [] (cs ++ ds)).trans (ih hcs)

theorem words_word_append (hne : word ≠ []) (hword : ∀ c ∈ word, isBlank c = false)
    (hds : ∀ c ∈ ds.head?, isBlank c) : words (word ++ ds) = word :: words ds := by
  cases ds with
  | nil =>
    rw [List.append_nil, words_of_not_blank hne hword]
    rfl
  | cons c ds =>
    have hc : isBlank c := hds c rfl
    have htail : words (c :: ds) = words ds := words_append_blank hc [] ds
    rw [words_append_blank hc, words_of_not_blank hne hword, htail]
    rfl

theorem words_of_blank (hcs : ∀ c ∈ cs, isBlank c) : words cs = [] :=
  words_append_of_blank [] hcs

namespace HasWords

theorem words_eq (h : HasWords cs ws) : words cs = ws := by
  induction h with
  | blank hcs => exact words_of_blank hcs
  | word hgap hne hword hrest _ ih =>
    rw [words_blank_append hgap, words_word_append hne hword hrest, ih]

theorem of_mem (h : HasWords cs ws) : ∀ word ∈ ws, word ≠ [] ∧ ∀ c ∈ word, isBlank c = false := by
  induction h with
  | blank _ => exact nofun
  | word _ hne hword _ _ ih => exact List.forall_mem_cons.mpr ⟨⟨hne, hword⟩, ih⟩

/-- A text has room for its words with one blank before each, the first of which may be missing. -/
theorem length_le (h : HasWords cs ws) : (ws.flatMap (' ' :: ·)).length ≤ cs.length + 1 ∧
    ((∀ c ∈ cs.head?, isBlank c) → (ws.flatMap (' ' :: ·)).length ≤ cs.length) := by
  induction h with
  | blank _ => exact ⟨Nat.zero_le _, fun _ ↦ Nat.zero_le _⟩
  | @word gap word rest ws hgap hne hword hrest _ ih =>
    have hlength := ih.2 hrest
    rw [List.flatMap_cons, List.length_append, List.length_cons, List.length_append,
      List.length_append]
    refine ⟨by omega, fun hhead ↦ ?_⟩
    cases gap with
    | nil =>
      obtain ⟨c, word, rfl⟩ := List.exists_cons_of_ne_nil hne
      simpa [hhead c rfl] using hword c List.mem_cons_self
    | cons c gap =>
      rw [List.length_cons]
      omega

end HasWords

theorem forall_mem_takeWhile (p : Char → Bool) (cs : Text) : ∀ c ∈ cs.takeWhile p, p c :=
  List.all_eq_true.mp List.all_takeWhile

theorem hasWords_words (cs : Text) : HasWords cs (words cs) := by
  induction hn : cs.length using Nat.strongRecOn generalizing cs with
  | ind n ih =>
    have hgap := forall_mem_takeWhile isBlank cs
    have hcut : cs.takeWhile isBlank ++ cs.dropWhile isBlank = cs := List.takeWhile_append_dropWhile
    cases htail : cs.dropWhile isBlank with
    | nil =>
      rw [htail, List.append_nil] at hcut
      rw [hcut] at hgap
      exact words_of_blank hgap ▸ .blank hgap
    | cons c tail =>
      have hc : (!isBlank c) = true := by rw [head_dropWhile htail, Bool.not_false]
      have hword : ∀ d ∈ (c :: tail).takeWhile (!isBlank ·), isBlank d = false := fun d hd ↦
        Bool.not_eq_true' _ ▸ forall_mem_takeWhile (!isBlank ·) (c :: tail) d hd
      have hne : (c :: tail).takeWhile (!isBlank ·) ≠ [] := by
        rw [List.takeWhile_cons, if_pos hc]
        exact List.cons_ne_nil _ _
      have hrest : ∀ d ∈ ((c :: tail).dropWhile (!isBlank ·)).head?, isBlank d := by
        intro d hd
        obtain ⟨rest, hrest⟩ := List.head?_eq_some_iff.mp hd
        simpa using head_dropWhile hrest
      have hsplit : (c :: tail).takeWhile (!isBlank ·) ++ (c :: tail).dropWhile (!isBlank ·) =
          c :: tail := List.takeWhile_append_dropWhile
      rw [htail, ← hsplit] at hcut
      have hlt : ((c :: tail).dropWhile (!isBlank ·)).length < n := by
        have hpos := List.length_pos_iff.mpr hne
        rw [← hn, ← hcut, List.length_append, List.length_append]
        omega
      rw [← hcut, words_blank_append hgap, words_word_append hne hword hrest]
      exact .word hgap hne hword hrest (ih _ hlt _ rfl)

theorem hasWords_iff : HasWords cs ws ↔ words cs = ws := by
  constructor
  · exact HasWords.words_eq
  · intro h
    exact h ▸ hasWords_words cs

theorem foldl_addWord (hne : buffer ≠ []) (ws : List Text) :
    ws.foldl addWord buffer = buffer ++ ws.flatMap (' ' :: ·) := by
  induction ws generalizing buffer with
  | nil => exact (List.append_nil buffer).symm
  | cons word ws ih =>
    have hadd : addWord buffer word = buffer ++ ' ' :: word := by
      rw [addWord, if_neg (by simpa using hne)]
    rw [List.foldl_cons, hadd, ih (by simp), List.flatMap_cons, List.append_assoc]

/-- What the buffer held does not matter. -/
theorem squeezeInto_eq (buffer cs : Text) :
    squeezeInto buffer cs = [' '].intercalate (words cs) := by
  rw [squeezeInto, List.take_zero]
  cases hws : words cs with
  | nil => rfl
  | cons word ws =>
    have hne := ((hasWords_words cs).of_mem word (hws ▸ List.mem_cons_self)).1
    rw [List.foldl_cons, intercalate_cons]
    exact foldl_addWord hne ws

theorem squeeze_eq (cs : Text) : squeeze cs = [' '].intercalate (words cs) := squeezeInto_eq [] cs

theorem words_intercalate (hws : ∀ word ∈ ws, word ≠ [] ∧ ∀ c ∈ word, isBlank c = false) :
    words ([' '].intercalate ws) = ws := by
  induction ws with
  | nil => rfl
  | cons word ws ih =>
    obtain ⟨⟨hne, hword⟩, hws⟩ := List.forall_mem_cons.mp hws
    cases ws with
    | nil =>
      rw [intercalate_cons, List.flatMap_nil, List.append_nil]
      exact words_of_not_blank hne hword
    | cons word' ws =>
      rw [List.intercalate_cons_cons, List.append_assoc, words_word_append hne hword,
        List.singleton_append]
      · have hskip := words_append_blank (c := ' ') rfl [] ([' '].intercalate (word' :: ws))
        exact congrArg (word :: ·) (hskip.trans (ih hws))
      · intro c hc
        obtain rfl := Option.some.inj hc
        rfl

theorem words_squeeze (cs : Text) : words (squeeze cs) = words cs := by
  rw [squeeze_eq]
  exact words_intercalate (hasWords_words cs).of_mem

theorem squeeze_squeeze (cs : Text) : squeeze (squeeze cs) = squeeze cs := by
  rw [squeeze_eq (squeeze cs), words_squeeze, squeeze_eq]

theorem length_squeeze_le (cs : Text) : (squeeze cs).length ≤ cs.length := by
  rw [squeeze_eq]
  cases hws : words cs with
  | nil => exact Nat.zero_le _
  | cons word ws =>
    have hle := (hasWords_words cs).length_le.1
    rw [hws, List.flatMap_cons, List.length_append, List.length_cons] at hle
    rw [intercalate_cons, List.length_append]
    omega

/-- No shorter text has the words that a squeezed text has. -/
theorem length_squeeze_le_of_words (h : words ds = words cs) :
    (squeeze cs).length ≤ ds.length := by
  rw [squeeze_eq, ← h, ← squeeze_eq]
  exact length_squeeze_le ds

theorem isSqueezed_squeeze (cs : Text) : IsSqueezed (squeeze cs) := by
  have hwords := words_squeeze cs
  have hspace : isBlank ' ' := rfl
  constructor
  · intro c hc hblank
    rw [squeeze_eq] at hc
    rcases mem_intercalate hc with heq | ⟨word, hword, hc⟩
    · exact heq
    · have hletter := ((hasWords_words cs).of_mem word hword).2 c hc
      rw [hletter] at hblank
      cases hblank
  · intro front back heq
    have hshort : words (front ++ ' ' :: back) = words cs := by
      rw [← hwords, heq, words_append_blank hspace, words_append_blank hspace]
      exact congrArg (words front ++ ·) (words_append_blank hspace [] back).symm
    have hle := length_squeeze_le_of_words hshort
    rw [heq, List.length_append, List.length_append] at hle
    simp only [List.length_cons] at hle
    omega
  · intro hhead
    obtain ⟨back, heq⟩ := List.head?_eq_some_iff.mp hhead
    have hshort : words back = words cs := by
      rw [← hwords, heq]
      exact (words_append_blank hspace [] back).symm
    have hle := length_squeeze_le_of_words hshort
    rw [heq, List.length_cons] at hle
    omega
  · intro hlast
    obtain ⟨front, heq⟩ := List.getLast?_eq_some_iff.mp hlast
    have hshort : words front = words cs := by
      rw [← hwords, heq, words_append_of_blank front (by simp [hspace])]
    have hle := length_squeeze_le_of_words hshort
    rw [heq, List.length_append, List.length_singleton] at hle
    omega

theorem squeezes_squeeze (cs : Text) : Squeezes cs (squeeze cs) where
  hasWords_iff ws := by rw [hasWords_iff, hasWords_iff, words_squeeze]
  exists_words := ⟨words cs, hasWords_words cs, squeeze_eq cs⟩
  isSqueezed := isSqueezed_squeeze cs

end MarkupText.Text
