import MarkupText.Proofs.PlainLexer

namespace MarkupText

open Text

variable {cs : Text} {c : Char} {n k : Nat}

namespace Lexeme

theorem length_takeWhile_take (p : Char → Bool) (cs : Text) (n : Nat) :
    ((cs.take n).takeWhile p).length = min n (cs.takeWhile p).length := by
  rw [← List.take_takeWhile, List.length_take]

/-- A run of text goes on for as long as there is text. -/
theorem ofText_take (c : Char) (cs : Text) (n : Nat) :
    ofText c (cs.take n) = { ofText c cs with more := min n (ofText c cs).more } := by
  rw [ofText, length_takeWhile_take]
  rfl

/-- A character that was read is still there. -/
theorem getElem?_take_iff {d : Char} (h : cs[k]? = some d → k < n) :
    (cs.take n)[k]? = some d ↔ cs[k]? = some d := by
  rw [List.getElem?_take]
  split
  · rfl
  · rename_i hlt
    exact ⟨nofun, fun hget ↦ absurd (h hget) hlt⟩

theorem ofDigits_take {form : Reference} {isDigit : Char → Bool} {lead : Nat}
    (h : (ofDigits form isDigit lead cs).more ≤ lead + n) :
    ofDigits form isDigit lead (cs.take n) = ofDigits form isDigit lead cs := by
  cases hdigits : (cs.takeWhile isDigit).length with
  | zero => simp [ofDigits, length_takeWhile_take, hdigits]
  | succ k =>
    simp only [ofDigits, hdigits] at h
    have hle : k + 1 ≤ n := by omega
    have hsemi : cs[k + 1]? = some ';' → k + 1 < n := by
      intro hget
      rw [if_pos hget] at h
      omega
    simp only [ofDigits, length_takeWhile_take, hdigits, Nat.min_eq_right hle,
      getElem?_take_iff hsemi]

theorem ofName_take (h : (ofName cs).more ≤ n) : ofName (cs.take n) = ofName cs := by
  simp only [ofName, length_takeWhile_take] at h ⊢
  by_cases hname : cs.head?.any Char.isAlpha ∧ cs[(cs.takeWhile Char.isAlphanum).length]? = some ';'
  · rw [if_pos hname] at h
    have hle : (cs.takeWhile Char.isAlphanum).length + 1 ≤ n := h
    have hhead : (cs.take n).head? = cs.head? := by
      rw [List.head?_take, if_neg (by omega)]
    simp only [Nat.min_eq_right (Nat.le_of_succ_le hle), hhead, getElem?_take_iff fun _ ↦ hle]
  · rw [if_neg hname, if_neg]
    rintro ⟨hhead, hsemi⟩
    rw [List.head?_take] at hhead
    rw [List.getElem?_take] at hsemi
    split at hsemi
    · rename_i hlt
      refine hname ⟨?_, ?_⟩
      · split at hhead
        · cases hhead
        · exact hhead
      · rwa [Nat.min_eq_right (by omega)] at hsemi
    · cases hsemi

theorem ofDigits_cases (form : Reference) (isDigit : Char → Bool) (lead : Nat) (cs : Text) :
    ofDigits form isDigit lead cs = stray ∨
      (ofDigits form isDigit lead cs).kind = .reference form := by
  unfold ofDigits
  split
  · exact .inl rfl
  · exact .inr rfl

theorem ofReference_cases (cs : Text) :
    ofReference cs = stray ∨ ∃ form, (ofReference cs).kind = .reference form := by
  unfold ofReference
  split
  · exact (ofDigits_cases _ _ _ _).imp_right fun h ↦ ⟨_, h⟩
  · exact (ofDigits_cases _ _ _ _).imp_right fun h ↦ ⟨_, h⟩
  · exact (ofDigits_cases _ _ _ _).imp_right fun h ↦ ⟨_, h⟩
  · unfold ofName
    dsimp only
    split
    · exact .inr ⟨_, rfl⟩
    · exact .inl rfl

/-- Every reference has two characters after the `&` at least. -/
theorem ofReference_eq_stray (h : (ofReference cs).more ≤ 1 ∨ cs.length ≤ 1) :
    ofReference cs = stray := by
  rcases ofReference_cases cs with hstray | ⟨form, hkind⟩
  · exact hstray
  · obtain ⟨hlow, hhigh, -⟩ := ofReference_more hkind
    have hleast : 2 ≤ leastMore form := by cases form <;> decide
    omega

theorem ofReference_take (h : (ofReference cs).more ≤ n) :
    ofReference (cs.take n) = ofReference cs := by
  obtain hn | ⟨k, rfl⟩ : n ≤ 1 ∨ ∃ k, n = k + 2 := by
    rcases n with _ | _ | k
    · exact .inl (by omega)
    · exact .inl (by omega)
    · exact .inr ⟨k, rfl⟩
  · rw [ofReference_eq_stray (.inl (Nat.le_trans h hn)), ofReference_eq_stray (.inr ?_)]
    rw [List.length_take]
    omega
  · rcases cs with _ | ⟨c, _ | ⟨d, ds⟩⟩
    · rfl
    · rfl
    · rw [List.take_succ_cons, List.take_succ_cons]
      by_cases hc : c = '#'
      · subst hc
        by_cases hx : d = 'x'
        · subst hx
          exact ofDigits_take (Nat.add_comm k 2 ▸ h)
        · by_cases hX : d = 'X'
          · subst hX
            exact ofDigits_take (Nat.add_comm k 2 ▸ h)
          · have hdecimal (es : Text) :
                ofReference ('#' :: d :: es) = ofDigits .decimal Char.isDigit 1 (d :: es) := by
              rw [ofReference] <;> simp [hx, hX]
            rw [hdecimal] at h
            rw [hdecimal, hdecimal, ← List.take_succ_cons]
            exact ofDigits_take (by omega)
      · have hnamed (es : Text) : ofReference (c :: d :: es) = ofName (c :: d :: es) := by
          rw [ofReference] <;> simp [hc]
        rw [hnamed] at h
        rw [hnamed, hnamed, ← List.take_succ_cons, ← List.take_succ_cons]
        exact ofName_take h

theorem commentEnd?_take (h : commentEnd? cs = some k) (hn : k + 3 ≤ n) :
    commentEnd? (cs.take n) = some k := by
  induction cs generalizing k n with
  | nil => cases h
  | cons c cs ih =>
    obtain ⟨n, rfl⟩ : ∃ j, n = j + 1 := ⟨n - 1, by omega⟩
    rw [List.take_succ_cons, commentEnd?, ← List.take_succ_cons]
    have hdashes : ['-', '-', '>'].isPrefixOf ((c :: cs).take (n + 1)) =
        ['-', '-', '>'].isPrefixOf (c :: cs) := by
      rw [Bool.eq_iff_iff, List.isPrefixOf_iff_prefix, List.isPrefixOf_iff_prefix,
        List.prefix_take_iff]
      exact and_iff_left (by simp only [List.length_cons, List.length_nil]; omega)
    rw [commentEnd?] at h
    rw [hdashes]
    split at h
    · rename_i hdash
      rw [if_pos hdash, h]
    · rename_i hdash
      obtain ⟨j, hj, rfl⟩ := Option.map_eq_some_iff.mp h
      rw [if_neg hdash, ih hj (by omega)]
      rfl

theorem isPrefixOf_take {ds : Text} (h : ds.length ≤ n) :
    ds.isPrefixOf (cs.take n) = ds.isPrefixOf cs := by
  rw [Bool.eq_iff_iff, List.isPrefixOf_iff_prefix, List.isPrefixOf_iff_prefix,
    List.prefix_take_iff]
  exact and_iff_left h

def commentParts (cs : Text) : Nat × Nat :=
  if ['>'].isPrefixOf cs then (0, 1)
  else if ['-', '>'].isPrefixOf cs then (0, 2)
  else match commentEnd? cs with
    | some n => (n, 3)
    | none => (cs.length, 0)

theorem ofComment_eq (cs : Text) : ofComment cs =
    { kind := .ofComment (trim (cs.take (commentParts cs).1))
      more := 3 + (commentParts cs).1 + (commentParts cs).2 } := rfl

theorem commentParts_take (h : (commentParts cs).1 + (commentParts cs).2 ≤ n) :
    commentParts (cs.take n) = commentParts cs := by
  have hshort {ds : Text} (hds : ¬ ds.isPrefixOf cs) : ¬ ds.isPrefixOf (cs.take n) := by
    rw [List.isPrefixOf_iff_prefix] at hds ⊢
    exact fun hbegins ↦ hds (hbegins.trans (List.take_prefix n cs))
  unfold commentParts at h ⊢
  split at h
  · rename_i hempty
    rw [isPrefixOf_take h, if_pos hempty, if_pos hempty]
  · rename_i hempty
    rw [if_neg hempty, if_neg (hshort hempty)]
    split at h
    · rename_i hdash
      rw [isPrefixOf_take h, if_pos hdash, if_pos hdash]
    · rename_i hdash
      rw [if_neg hdash, if_neg (hshort hdash)]
      split at h
      · rename_i k hend
        rw [commentEnd?_take hend h]
      · rename_i hend
        rw [List.take_of_length_le h, hend]

theorem ofComment_take (h : (ofComment cs).more ≤ 3 + n) :
    ofComment (cs.take n) = ofComment cs := by
  rw [ofComment_eq] at h
  rw [ofComment_eq, ofComment_eq, commentParts_take (by simp only at h; omega), List.take_take,
    Nat.min_eq_left (by simp only at h; omega)]

end Lexeme

theorem firstClose_take (h : firstClose cs = some k) (hk : k < n) :
    firstClose (cs.take n) = some k := by
  rw [firstClose, List.findIdx?_take, ← firstClose, h]
  simp [Option.guard, hk]

theorem firstClose_take_eq_none (h : firstClose cs = none) (n : Nat) :
    firstClose (cs.take n) = none := by
  rw [firstClose, List.findIdx?_take, ← firstClose, h]
  rfl

namespace PlainLexer

theorem ofDeclaration_take (h : (ofDeclaration cs).more ≤ n) :
    ofDeclaration (cs.take n) = ofDeclaration cs := by
  unfold ofDeclaration at h ⊢
  cases hclose : firstClose cs with
  | none => rw [firstClose_take_eq_none hclose]
  | some k =>
    rw [hclose] at h
    rw [firstClose_take hclose h]

theorem afterSlash_take (h : (afterSlash (cs.take n)).head?.any Char.isAlpha) :
    (afterSlash cs).head?.any Char.isAlpha := by
  have hhead {ds : Text} {k : Nat} (h : (ds.take k).head?.any Char.isAlpha) :
      ds.head?.any Char.isAlpha := by
    rw [List.head?_take] at h
    split at h
    · cases h
    · exact h
  rcases cs with _ | ⟨c, cs⟩
  · exact absurd h (by simp [afterSlash])
  · rcases n with _ | n
    · exact absurd h (by simp [afterSlash])
    · rw [List.take_succ_cons] at h
      by_cases hc : c = '/'
      · subst hc
        exact hhead h
      · have hslash (ds : Text) : afterSlash (c :: ds) = c :: ds := by
          rw [afterSlash]
          simp [hc]
        rw [hslash] at h ⊢
        exact h

theorem tagClose_eq_none_iff {givenUp : Bool} : tagClose givenUp cs = none ↔ '>' ∉ cs := by
  rw [← Option.not_isSome_iff_eq_none, ← ScanState.firstClose_isSome_iff givenUp, firstClose,
    List.findIdx?_isSome, List.any_eq_true]
  simp

theorem ofTag_eq_stray_of_name {givenUp : Bool} (h : elementName? (afterSlash cs) = none) :
    (ofTag givenUp cs).1 = .stray := by
  unfold ofTag
  simp only [h]

theorem ofTag_eq_stray_of_close {givenUp : Bool} (h : '>' ∉ cs) :
    (ofTag givenUp cs).1 = .stray := by
  unfold ofTag
  dsimp only
  split
  · rfl
  · rename_i name hname
    obtain ⟨slash, hslash, -⟩ := exists_slash cs
    have hrest : '>' ∉ (afterSlash cs).drop name.length := by
      intro hmem
      exact h (hslash ▸ List.mem_append_right slash (List.mem_of_mem_drop hmem))
    rw [tagClose_eq_none_iff.mpr hrest]

variable {givenUp givenUp' : Bool} {offset : Nat}

theorem elementName?_take_eq_none (h : elementName? (afterSlash cs) = none) (n : Nat) :
    elementName? (afterSlash (cs.take n)) = none := by
  unfold elementName? at h ⊢
  rw [if_neg]
  intro hhead
  rw [if_pos (afterSlash_take hhead)] at h
  cases h

def tagLexeme (name : Text) (more : Nat) (cs : Text) : Lexeme :=
  let edge : Edge := if cs.head? = some '/' then .closing else .opening
  { kind := .ofTag name edge
    more
    raw := if edge = .opening ∧ cs[more - 2]? ≠ some '/' then
      rawElements.find? (Text.sameCaseless name) else none }

theorem tagLexeme_take {name : Text} {more : Nat} (h : more ≤ n) (hpos : 0 < more) :
    tagLexeme name more (cs.take n) = tagLexeme name more cs := by
  have hhead : (cs.take n).head? = cs.head? := by rw [List.head?_take, if_neg (by omega)]
  have hlast : (cs.take n)[more - 2]? = cs[more - 2]? := by
    rw [List.getElem?_take, if_pos (by omega)]
  rw [tagLexeme, hhead, hlast]
  rfl

theorem ofTag_eq {slash name rest : Text} (hcs : cs = slash ++ (name ++ rest))
    (hslash : slash = [] ∧ cs.head? ≠ some '/' ∨ slash = ['/'] ∧ cs.head? = some '/')
    (hname : elementName? (name ++ rest) = some name) (hclose : tagClose givenUp rest = some k) :
    (ofTag givenUp cs).1 = tagLexeme name (slash.length + 1 + name.length + k) cs := by
  have hafter : afterSlash cs = name ++ rest := by
    rcases hslash with ⟨rfl, -⟩ | ⟨rfl, -⟩
    · rw [hcs]
      exact afterSlash_of_elementName? hname
    · rw [hcs]
      rfl
  unfold ofTag
  simp only [hafter, hname, List.drop_left, hclose, lead_eq hslash]
  rfl

theorem ofTag_cases (givenUp : Bool) (cs : Text) :
    (ofTag givenUp cs).1 = .stray ∨ ∃ name more, (ofTag givenUp cs).1 = tagLexeme name more cs := by
  unfold ofTag
  dsimp only
  split
  · exact .inl rfl
  · split
    · exact .inl rfl
    · exact .inr ⟨_, _, rfl⟩

/-- A tag that is whole is read as before, if its end is still found where it was. -/
theorem ofTag_take (h : (ofTag givenUp cs).1.more ≤ n)
    (hends : ((ofTag givenUp cs).1.token '<' cs offset).isTag →
      ((ofTag givenUp cs).1.token '<' cs offset).EndsBy (tagClose givenUp')
        ((cs.take n).drop (ofTag givenUp cs).1.more)) :
    (ofTag givenUp' (cs.take n)).1 = (ofTag givenUp cs).1 := by
  obtain ⟨slash, hslash, hcase⟩ := exists_slash cs
  cases hname : elementName? (afterSlash cs) with
  | none => rw [ofTag_eq_stray_of_name hname,
      ofTag_eq_stray_of_name (elementName?_take_eq_none hname n)]
  | some name =>
    obtain ⟨rest, hrest, hhead, hchars, -⟩ := elementName?_eq_some_iff.mp hname
    have hcs : cs = slash ++ (name ++ rest) := hrest ▸ hslash
    rw [hrest] at hname
    cases hclose : tagClose givenUp rest with
    | none =>
      have hmem : '>' ∉ cs := by
        have hrest' := tagClose_eq_none_iff.mp hclose
        have hname' : '>' ∉ name := fun hmem ↦ absurd (hchars _ hmem) (by decide)
        have hslash' : '>' ∉ slash := by rcases hcase with ⟨rfl, -⟩ | ⟨rfl, -⟩ <;> simp
        simp [hcs, hrest', hname', hslash']
      rw [ofTag_eq_stray_of_close hmem,
        ofTag_eq_stray_of_close fun h ↦ hmem (List.mem_of_mem_take h)]
    | some k =>
      have hlt : k < rest.length :=
        (List.getElem?_eq_some_iff.mp (ScanState.getElem?_tagClose hclose)).1
      have hlexeme := ofTag_eq hcs hcase hname hclose
      rw [hlexeme] at h hends ⊢
      have hmore : slash.length + 1 + name.length + k ≤ n := h
      obtain ⟨j, rfl⟩ : ∃ j, n = slash.length + (name.length + j) :=
        ⟨n - slash.length - name.length, by omega⟩
      have htake : cs.take (slash.length + (name.length + j)) = slash ++ (name ++ rest.take j) := by
        rw [hcs, List.take_length_add_append, List.take_length_add_append]
      have htext : ((tagLexeme name (slash.length + 1 + name.length + k) cs).token '<' cs
          offset).text = '<' :: (slash ++ (name ++ rest.take (k + 1))) := by
        have hcount : slash.length + 1 + name.length + k =
            slash.length + (name.length + (k + 1)) := by omega
        rw [Lexeme.token, tagLexeme, hcount, hcs]
        simp only [List.take_length_add_append]
      have hslash' : slash = [] ∨ slash = ['/'] := hcase.imp And.left And.left
      obtain ⟨hname', hafter⟩ := Token.name?_of_text htext hslash' (elementName?_take hname (k + 1))
      have htag := hends (Token.isTag_of_ofTag rfl (Option.isSome_of_eq_some hname'))
      have htail : (cs.take (slash.length + (name.length + j))).drop
          (slash.length + 1 + name.length + k) = (rest.take j).drop (k + 1) := by
        rw [htake, show slash.length + 1 + name.length + k =
          slash.length + (name.length + (k + 1)) by omega, List.drop_length_add_append,
          List.drop_length_add_append]
      have hjoin : rest.take (k + 1) ++ (rest.take j).drop (k + 1) = rest.take j := by
        have htake' : rest.take (k + 1) = (rest.take j).take (k + 1) := by
          rw [List.take_take, Nat.min_eq_left (by omega)]
        rw [htake', List.take_append_drop]
      have hclose' : tagClose givenUp' (rest.take j) = some k := by
        have hends' : (tagClose givenUp' (rest.take (k + 1) ++ (rest.take j).drop (k + 1))).map
            (· + 1) = some (rest.take (k + 1)).length := by
          rwa [Token.EndsBy, hafter, show (tagLexeme name (slash.length + 1 + name.length + k)
            cs).more = slash.length + 1 + name.length + k from rfl, htail] at htag
        rw [hjoin, List.length_take, Nat.min_eq_left (by omega)] at hends'
        obtain ⟨i, hi, hik⟩ := Option.map_eq_some_iff.mp hends'
        rw [hi, Nat.succ.inj hik]
      have hcase' : slash = [] ∧ (cs.take (slash.length + (name.length + j))).head? ≠ some '/' ∨
          slash = ['/'] ∧ (cs.take (slash.length + (name.length + j))).head? = some '/' := by
        rwa [List.head?_take, if_neg (by omega)]
      rw [ofTag_eq htake hcase' (elementName?_take hname j) hclose',
        tagLexeme_take hmore (by omega)]

theorem ofMarkup_take (h : (ofMarkup givenUp cs).1.more ≤ n)
    (hends : ((ofMarkup givenUp cs).1.token '<' cs offset).isTag →
      ((ofMarkup givenUp cs).1.token '<' cs offset).EndsBy (tagClose givenUp')
        ((cs.take n).drop (ofMarkup givenUp cs).1.more)) :
    (ofMarkup givenUp' (cs.take n)).1 = (ofMarkup givenUp cs).1 := by
  by_cases hcomment : ['!', '-', '-'].isPrefixOf cs
  · have hread (g : Bool) : ofMarkup g cs = (.ofComment (cs.drop 3), g) := if_pos hcomment
    rw [hread] at h ⊢
    obtain ⟨j, rfl⟩ : ∃ j, n = 3 + j := by
      refine ⟨n - 3, ?_⟩
      simp only [Lexeme.ofComment_eq] at h
      omega
    have hcomment' : ['!', '-', '-'].isPrefixOf (cs.take (3 + j)) := by
      rwa [Lexeme.isPrefixOf_take (Nat.le_add_right 3 j)]
    rw [show ofMarkup givenUp' (cs.take (3 + j)) = _ from if_pos hcomment', List.drop_take,
      Nat.add_sub_cancel_left]
    exact Lexeme.ofComment_take h
  · have hcomment' : ¬ ['!', '-', '-'].isPrefixOf (cs.take n) := by
      rw [List.isPrefixOf_iff_prefix] at hcomment ⊢
      exact fun hbegins ↦ hcomment (hbegins.trans (List.take_prefix n cs))
    unfold ofMarkup at h hends ⊢
    rw [if_neg hcomment] at h hends ⊢
    rw [if_neg hcomment']
    by_cases hdeclaration : cs.head?.any fun c ↦ c == '!' || c == '?'
    · rw [if_pos hdeclaration] at h ⊢
      rcases n with _ | n
      · exact ofDeclaration_take h
      · rw [List.head?_take, if_neg (Nat.succ_ne_zero n), if_pos hdeclaration]
        exact ofDeclaration_take h
    · rw [if_neg hdeclaration] at h hends ⊢
      rcases n with _ | n
      · exact ofTag_take h hends
      · rw [List.head?_take, if_neg (Nat.succ_ne_zero n), if_neg hdeclaration]
        exact ofTag_take h hends

end PlainLexer

namespace Lexeme

variable {name : Text}

theorem closesRaw_iff : closesRaw name cs ↔ ∃ ds, cs = '<' :: '/' :: ds ∧
    sameCaseless (ds.take name.length) name ∧ ¬ (ds.drop name.length).head?.any isNameChar := by
  unfold closesRaw
  split
  · simp
  · rename_i hne
    simp only [Bool.false_eq_true, false_iff]
    rintro ⟨ds, rfl, -⟩
    exact hne ds rfl

theorem rawLength_spec (name cs : Text) :
    (∀ i < rawLength name cs, closesRaw name (cs.drop i) = false) ∧
      rawLength name cs ≤ cs.length ∧
      (rawLength name cs < cs.length → closesRaw name (cs.drop (rawLength name cs))) := by
  induction cs with
  | nil => exact ⟨nofun, Nat.le_refl 0, nofun⟩
  | cons c cs ih =>
    rw [rawLength]
    split
    · rename_i hcloses
      exact ⟨nofun, Nat.zero_le _, fun _ ↦ hcloses⟩
    · rename_i hcloses
      obtain ⟨hfree, hle, hstop⟩ := ih
      refine ⟨?_, Nat.succ_le_succ hle, ?_⟩
      · intro i hi
        cases i with
        | zero => simpa using hcloses
        | succ i => exact hfree i (Nat.lt_of_succ_lt_succ hi)
      · intro hlt
        exact hstop (Nat.lt_of_succ_lt_succ hlt)

theorem rawLength_eq (hfree : ∀ i < k, closesRaw name (cs.drop i) = false)
    (hstop : closesRaw name (cs.drop k)) : rawLength name cs = k := by
  obtain ⟨hfree', hle, hstop'⟩ := rawLength_spec name cs
  have hk : k < cs.length := by
    obtain ⟨ds, hds, -⟩ := closesRaw_iff.mp hstop
    have hlen := congrArg List.length hds
    rw [List.length_drop, List.length_cons] at hlen
    omega
  rcases Nat.lt_trichotomy (rawLength name cs) k with hlt | heq | hgt
  · have hcloses := hstop' (Nat.lt_trans hlt hk)
    rw [hfree _ hlt] at hcloses
    cases hcloses
  · exact heq
  · rw [hfree' k hgt] at hstop
    cases hstop

theorem toLower_ne_of_mem {ds : Text} (hname : name ∈ rawElements) (h : sameCaseless ds name) :
    '<' ∉ ds ∧ ds.length = name.length := by
  have hlower : ds.map Char.toLower = name.map Char.toLower := beq_iff_eq.mp h
  refine ⟨fun hmem ↦ ?_, by simpa using congrArg List.length hlower⟩
  have hmem' : Char.toLower '<' ∈ name.map Char.toLower := hlower ▸ List.mem_map_of_mem hmem
  have hraw : ∀ name ∈ rawElements, Char.toLower '<' ∉ name.map Char.toLower := by decide
  exact hraw name hname hmem'

/-- A closing tag that the end of the text makes of something longer has no `<` after its own. -/
theorem closesRaw_of_take {i : Nat} (hname : name ∈ rawElements)
    (h : closesRaw name ((cs.take n).drop i)) :
    closesRaw name (cs.drop i) ∨ ∀ j, i < j → j < n → cs[j]? ≠ some '<' := by
  obtain ⟨ds, hds, hsame, hnext⟩ := closesRaw_iff.mp h
  obtain ⟨hfree, hlen⟩ := toLower_ne_of_mem hname hsame
  rw [List.drop_take] at hds
  have hlonger : 2 ≤ n - i ∧ 2 ≤ (cs.drop i).length := by
    have hcount := congrArg List.length hds
    rw [List.length_take, List.length_cons, List.length_cons] at hcount
    omega
  obtain ⟨q, hq⟩ : ∃ q, n - i = q + 2 := ⟨n - i - 2, by omega⟩
  obtain ⟨es, hes⟩ : ∃ es, cs.drop i = '<' :: '/' :: es := by
    rcases hrest : cs.drop i with _ | ⟨c, _ | ⟨d, es⟩⟩
    · simp [hrest] at hlonger
    · simp [hrest] at hlonger
    · rw [hrest, hq, List.take_succ_cons, List.take_succ_cons] at hds
      simp only [List.cons.injEq] at hds
      obtain ⟨rfl, rfl, -⟩ := hds
      exact ⟨es, rfl⟩
  have htake : es.take q = ds := by
    rw [hes, hq, List.take_succ_cons, List.take_succ_cons] at hds
    exact (List.cons.inj (List.cons.inj hds).2).2
  rcases Nat.lt_or_ge name.length q with hlt | hge
  · refine .inl (closesRaw_iff.mpr ⟨es, hes, ?_, ?_⟩)
    · rwa [← htake, List.take_take, Nat.min_eq_left (Nat.le_of_lt hlt)] at hsame
    · rwa [← htake, List.drop_take, List.head?_take, if_neg (by omega)] at hnext
  · refine .inr ?_
    intro j hij hjn hget
    rw [List.take_of_length_le (by rw [← htake, List.length_take]; omega)] at hfree
    obtain ⟨k, rfl⟩ : ∃ k, j = i + (k + 1) := ⟨j - i - 1, by omega⟩
    rw [← List.getElem?_drop, hes, List.getElem?_cons_succ] at hget
    rcases k with _ | k
    · cases hget
    · rw [List.getElem?_cons_succ] at hget
      refine hfree (htake ▸ List.mem_of_getElem? ((List.getElem?_take_of_lt ?_).trans hget))
      omega

/-- Raw text whose closing tag is left ends where it did. -/
theorem rawLength_take (hname : name ∈ rawElements) (h : rawLength name cs = k) (hk : k < n)
    (hn : n ≤ cs.length)
    (hkeeps : closesRaw name (cs.drop k) → closesRaw name ((cs.take n).drop k)) :
    rawLength name (cs.take n) = k := by
  obtain ⟨hfree, -, hstop⟩ := rawLength_spec name cs
  rw [h] at hfree hstop
  have hcloses := hstop (Nat.lt_of_lt_of_le hk hn)
  refine rawLength_eq ?_ (hkeeps hcloses)
  intro i hi
  refine Bool.eq_false_iff.mpr ?_
  intro hi'
  rcases closesRaw_of_take hname hi' with hi' | hnone
  · rw [hfree i hi] at hi'
    cases hi'
  · obtain ⟨ds, hds, -⟩ := closesRaw_iff.mp hcloses
    refine hnone k hi hk ?_
    rw [← List.head?_drop, hds, List.head?_cons]

end Lexeme

def KeepsClosings (ds es : Text) : Prop :=
  ∀ name ∈ rawElements, ∀ as bs, ds = as ++ bs → bs ≠ [] →
    Lexeme.closesRaw name (bs ++ es) → Lexeme.closesRaw name bs

theorem KeepsClosings.of_append {as ds es : Text} (h : KeepsClosings (as ++ ds) es) :
    KeepsClosings ds es := by
  rintro name hname front bs rfl
  exact h name hname (as ++ front) bs (List.append_assoc ..).symm

theorem KeepsClosings.drop (h : KeepsClosings (cs.take n) (cs.drop n)) {name : Text}
    (hname : name ∈ rawElements) (hk : k < n) (hn : n ≤ cs.length)
    (hcloses : Lexeme.closesRaw name (cs.drop k)) :
    Lexeme.closesRaw name ((cs.take n).drop k) := by
  have hlen : (cs.take n).length = n := by rw [List.length_take, Nat.min_eq_left hn]
  refine h name hname ((cs.take n).take k) _ (List.take_append_drop k _).symm ?_ ?_
  · intro hnil
    have hle := List.drop_eq_nil_iff.mp hnil
    omega
  · rwa [← List.drop_append_of_le_length (by omega), List.take_append_drop]

namespace PlainLexer

theorem readOutsideRaw_take (h : (readOutsideRaw givenUp c cs).1.more ≤ n)
    (hends : ((readOutsideRaw givenUp c cs).1.token c cs offset).isTag →
      ((readOutsideRaw givenUp c cs).1.token c cs offset).EndsBy (tagClose givenUp')
        ((cs.take n).drop (readOutsideRaw givenUp c cs).1.more)) :
    (readOutsideRaw givenUp' c (cs.take n)).1 = (readOutsideRaw givenUp c cs).1 := by
  unfold readOutsideRaw at h hends ⊢
  by_cases hlt : c = '<'
  · subst hlt
    exact ofMarkup_take h hends
  · rw [if_neg hlt] at h hends ⊢
    rw [if_neg hlt]
    by_cases hand : c = '&'
    · rw [if_pos hand] at h ⊢
      rw [if_pos hand]
      exact Lexeme.ofReference_take h
    · rw [if_neg hand] at h ⊢
      rw [if_neg hand]
      simp only [Lexeme.ofText_take]
      rw [Nat.min_eq_right h]

variable {raw : Option Text}

/-- What is read whole is read as before where less text follows, if tags and raw texts still end
where they did. -/
theorem read_take (offset : Nat) (hraw : ∀ name ∈ raw, name ∈ rawElements) (hn : n ≤ cs.length)
    (h : (read raw givenUp c cs).1.more ≤ n)
    (hrawText : (read raw givenUp c cs).1.kind = .rawText → (read raw givenUp c cs).1.more < n)
    (hkeeps : KeepsClosings (c :: cs.take n) (cs.drop n))
    (hends : ((read raw givenUp c cs).1.token c cs offset).isTag →
      ((read raw givenUp c cs).1.token c cs offset).EndsBy (tagClose givenUp')
        ((cs.take n).drop (read raw givenUp c cs).1.more)) :
    (read raw givenUp' c (cs.take n)).1 = (read raw givenUp c cs).1 := by
  cases raw with
  | none => exact readOutsideRaw_take h hends
  | some name =>
    have hname := hraw name rfl
    have hkeeps' : KeepsClosings ((c :: cs).take (n + 1)) ((c :: cs).drop (n + 1)) := hkeeps
    have hlength {k : Nat} (hk : Lexeme.rawLength name (c :: cs) = k) (hlt : k < n + 1) :
        Lexeme.rawLength name (c :: cs.take n) = k := by
      rw [← List.take_succ_cons]
      exact Lexeme.rawLength_take hname hk hlt (Nat.succ_le_succ hn)
        (KeepsClosings.drop hkeeps' hname hlt (Nat.succ_le_succ hn))
    unfold read at h hrawText hends ⊢
    simp only [Option.map_some, Option.getD_some] at h hrawText hends ⊢
    cases hk : Lexeme.rawLength name (c :: cs) with
    | zero =>
      rw [hlength hk (Nat.succ_pos n)]
      simp only [hk] at h hends
      exact readOutsideRaw_take h hends
    | succ k =>
      simp only [hk] at hrawText
      rw [hlength hk (Nat.succ_lt_succ (hrawText trivial))]

end PlainLexer

end MarkupText
