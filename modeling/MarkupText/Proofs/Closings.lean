import MarkupText.Proofs.Breaks
import MarkupText.Proofs.ByteOffsets
import MarkupText.Proofs.Restarts

namespace MarkupText

open Text

variable {cs ds es front ws xs zs name : Text} {c d e : Char} {n : Nat}

def isClosingChar (c : Char) : Bool := c == '/' || c.isAlpha

theorem isClosingChar_iff : isClosingChar c ↔ c = '/' ∨ c.isUpper ∨ c.isLower := by
  rw [isClosingChar, Bool.or_eq_true, beq_iff_eq, isAlpha_iff]

theorem isClosingChar_of_toLower (hname : name ∈ rawElements) (h : c.toLower ∈ name) :
    isClosingChar c := by
  have hlower : ∀ name ∈ rawElements, name.all Char.isLower := by decide
  refine isClosingChar_iff.mpr (.inr ?_)
  cases hupper : c.isUpper with
  | true => exact .inl rfl
  | false =>
    have hsame : c.toLower = c := dif_neg (of_decide_eq_false hupper)
    rw [hsame] at h
    exact .inr (List.all_eq_true.mp (hlower name hname) c h)

theorem isBlank_of_isClosingChar (h : isClosingChar c) : isBlank c = false := by
  rcases isClosingChar_iff.mp h with rfl | h
  · decide
  · rw [isUpper_iff, isLower_iff] at h
    simp only [isBlank, Bool.or_eq_false_iff, Bool.and_eq_false_iff, decide_eq_false_iff_not,
      beq_eq_false_iff_ne]
    omega

theorem canEnd_of_isClosingChar (h : isClosingChar c) :
    (BreakClass.ofChar c).canEnd = false := by
  rcases isClosingChar_iff.mp h with rfl | h
  · decide
  · have hascii : c.toNat < 0x80 := by
      rw [isUpper_iff, isLower_iff] at h
      omega
    rw [BreakClass.ofChar, if_pos hascii]
    unfold BreakClass.ofAscii
    cases hupper : c.isUpper with
    | true => rfl
    | false =>
      rw [if_neg Bool.false_ne_true, if_pos (by simpa [hupper] using h)]
      rfl

/-- The closing tag of a raw element is cut off whole, or after its `<` or a character that may
follow there. -/
theorem closesRaw_cut (hname : name ∈ rawElements) (hds : ds ≠ [])
    (h : Lexeme.closesRaw name (ds ++ es)) : Lexeme.closesRaw name ds ∨
      ∃ bs, ds = '<' :: bs ∧ (∀ b ∈ bs, isClosingChar b) ∧ es.head?.any isClosingChar := by
  obtain ⟨rest, hrest, hsame, hnext⟩ := Lexeme.closesRaw_iff.mp h
  have hlower : (rest.take name.length).map Char.toLower = name.map Char.toLower :=
    beq_iff_eq.mp hsame
  have hlen : (rest.take name.length).length = name.length := by
    simpa using congrArg List.length hlower
  have hchars : ∀ b ∈ '/' :: rest.take name.length, isClosingChar b := by
    have hname' : ∀ name ∈ rawElements, name.map Char.toLower = name := by decide
    intro b hb
    rcases List.mem_cons.mp hb with rfl | hb
    · rfl
    · refine isClosingChar_of_toLower hname ?_
      rw [← hname' name hname, ← hlower]
      exact List.mem_map_of_mem hb
  obtain ⟨d, bs, rfl⟩ := List.exists_cons_of_ne_nil hds
  obtain ⟨rfl, hbs⟩ := List.cons.inj hrest
  have hcut : bs ++ es = ('/' :: rest.take name.length) ++ rest.drop name.length := by
    rw [List.cons_append, List.take_append_drop]
    exact hbs
  have hwhole (tail : Text) (hbs : bs = ('/' :: rest.take name.length) ++ tail)
      (htail : rest.drop name.length = tail ++ es) : Lexeme.closesRaw name ('<' :: bs) := by
    refine Lexeme.closesRaw_iff.mpr ⟨rest.take name.length ++ tail, by rw [hbs]; rfl, ?_, ?_⟩
    · rwa [List.take_append_of_le_length (Nat.le_of_eq hlen.symm),
        List.take_of_length_le (Nat.le_of_eq hlen)]
    · rw [List.drop_append_of_le_length (Nat.le_of_eq hlen.symm),
        List.drop_eq_nil_of_le (Nat.le_of_eq hlen), List.nil_append]
      cases tail with
      | nil => simp
      | cons b tail =>
        rw [htail] at hnext
        exact hnext
  rcases List.append_eq_append_iff.mp hcut with ⟨tail, hbs', htail⟩ | ⟨tail, hbs', htail⟩
  · cases tail with
    | nil => exact .inl (hwhole [] (by simpa using hbs'.symm) (by simpa using htail.symm))
    | cons b tail =>
      refine .inr ⟨bs, rfl, ?_, ?_⟩
      · exact fun b hb ↦ hchars b (hbs' ▸ List.mem_append_left _ hb)
      · rw [htail]
        exact hchars b (hbs' ▸ List.mem_append_right _ List.mem_cons_self)
  · exact .inl (hwhole tail hbs' htail)

theorem Lexeme.not_mem_ofDigits (front : Text) {form : Reference} {isDigit : Char → Bool}
    (hfront : '<' ∉ front) (hdigit : isDigit '<' = false) :
    '<' ∉ (front ++ cs).take (ofDigits form isDigit front.length cs).more := by
  have hdigits : '<' ∉ cs.takeWhile isDigit := by
    intro hmem
    have h := List.all_eq_true.mp List.all_takeWhile '<' hmem
    simp [hdigit] at h
  cases hn : (cs.takeWhile isDigit).length with
  | zero => simp [ofDigits, hn, stray]
  | succ n =>
    have htake : cs.take (n + 1) = cs.takeWhile isDigit := hn ▸ take_length_takeWhile isDigit cs
    simp only [ofDigits, hn]
    rw [Nat.add_assoc, List.take_length_add_append, List.mem_append, not_or]
    refine ⟨hfront, ?_⟩
    split
    · rename_i hsemi
      rw [List.take_add_one, hsemi, htake]
      simp [hdigits]
    · rwa [Nat.add_zero, htake]

/-- No reference holds a `<`. -/
theorem Lexeme.not_mem_ofReference (cs : Text) : '<' ∉ cs.take (ofReference cs).more := by
  unfold ofReference
  split
  · exact not_mem_ofDigits ['#', 'x'] (by decide) (by decide)
  · exact not_mem_ofDigits ['#', 'X'] (by decide) (by decide)
  · exact not_mem_ofDigits ['#'] (by decide) (by decide)
  · unfold ofName
    dsimp only
    split
    · rename_i hname
      rw [List.take_add_one, hname.2, take_length_takeWhile]
      simp only [Option.toList_some, List.mem_append, List.mem_singleton, not_or]
      refine ⟨fun hmem ↦ ?_, by decide⟩
      exact absurd (List.all_eq_true.mp List.all_takeWhile '<' hmem) (by decide)
    · simp [stray]

namespace PlainLexer

variable {us vs : List Token} {u : Token} {givenUp : Bool} {raw : Option Text} {offset : Nat}

theorem keepsClosings_of_reference {form : Reference} (hraw : ∀ name ∈ raw, name ∈ rawElements)
    (hts : tokensFrom raw givenUp offset cs = us ++ u :: vs) (hkind : u.kind = .reference form) :
    KeepsClosings (us.flatMap Token.text ++ u.text) es := by
  obtain ⟨raw', givenUp', offset', -, hstate⟩ := exists_state hraw hts
  obtain ⟨c, rest, -, rfl, -⟩ := exists_cons_of_tokensFrom hstate
  intro name hname as bs hcut hbs hcloses
  refine (closesRaw_cut hname hbs hcloses).resolve_right ?_
  rintro ⟨bs, rfl, hchars, -⟩
  have hread : (read raw' givenUp' c rest).1.kind = .reference form := hkind
  rw [← (reads_plain raw' givenUp' c rest).lexeme] at hread
  obtain ⟨rfl, hlexeme⟩ := Lexeme.read_reference hread
  rw [(reads_plain raw' givenUp' '&' rest).lexeme] at hlexeme
  have htext : us.flatMap Token.text ++ '&' :: rest.take (Lexeme.ofReference rest).more =
      as ++ '<' :: bs := by
    rw [← hcut, ← hlexeme]
    rfl
  have hfree := Lexeme.not_mem_ofReference rest
  generalize rest.take (Lexeme.ofReference rest).more = digits at htext hfree
  rcases List.append_eq_append_iff.mp htext with ⟨tail, rfl, htail⟩ | ⟨tail, -, htail⟩
  · cases tail with
    | nil => cases htail
    | cons b tail =>
      obtain ⟨rfl, rfl⟩ := List.cons.inj htail
      exact hfree (by simp)
  · cases tail with
    | nil => cases htail
    | cons b tail =>
      obtain ⟨rfl, rfl⟩ := List.cons.inj htail
      exact absurd (hchars '&' (by simp)) (by decide)

/-- Text is cut inside no closing tag where it is cut between characters of which the first could
end a sentence or the second is not shown after it. -/
theorem keepsClosings_of_copied (hraw : ∀ name ∈ raw, name ∈ rawElements)
    (hts : tokensFrom raw givenUp offset cs = us ++ u :: vs) (hcopied : u.kind.isCopied)
    (htext : u.text = xs ++ d :: zs)
    (hinside : ∀ e es, zs = e :: es → isBlank e = false → (BreakClass.ofChar d).canEnd)
    (hstray : ∀ v vs' e es, zs = [] → vs = v :: vs' → u.kind = .stray → v.kind = .text →
      v.text = e :: es → isBlank e = false → (BreakClass.ofChar d).canEnd) :
    KeepsClosings (us.flatMap Token.text ++ (xs ++ [d])) (zs ++ vs.flatMap Token.text) := by
  obtain ⟨raw', givenUp', offset', -, hstate⟩ := exists_state hraw hts
  obtain ⟨c, rest, hcs, rfl, hrest⟩ := exists_cons_of_tokensFrom hstate
  intro name hname as bs hcut hbs hcloses
  refine (closesRaw_cut hname hbs hcloses).resolve_right ?_
  rintro ⟨bs, rfl, hchars, hhead⟩
  obtain ⟨e, es, hes⟩ : ∃ e es, zs ++ vs.flatMap Token.text = e :: es := by
    cases hes : zs ++ vs.flatMap Token.text with
    | nil => simp [hes] at hhead
    | cons e es => exact ⟨e, es, rfl⟩
  rw [hes, List.head?_cons, Option.any_some] at hhead
  have he := isBlank_of_isClosingChar hhead
  have hd : d = '<' ∨ isClosingChar d := by
    have hlast := congrArg List.getLast? hcut
    rw [← List.append_assoc, List.getLast?_concat, List.getLast?_append_of_ne_nil _ hbs] at hlast
    rcases List.mem_cons.mp (List.mem_of_getLast? hlast.symm) with rfl | hmem
    · exact .inl rfl
    · exact .inr (hchars d hmem)
  have hend : (BreakClass.ofChar d).canEnd = false := by
    rcases hd with rfl | hd
    · decide
    · exact canEnd_of_isClosingChar hd
  have hblank : isBlank d = false := by
    rcases hd with rfl | hd
    · decide
    · exact isBlank_of_isClosingChar hd
  have hnext := congrArg (List.flatMap Token.text) hrest
  rw [flatMap_text_tokensFrom] at hnext
  cases zs with
  | cons z zs =>
    obtain ⟨rfl, -⟩ := List.cons.inj hes
    exact absurd (hinside z zs rfl he) (by simp [hend])
  | nil =>
    rw [List.nil_append, hnext] at hes
    have hmarkup : e ≠ '<' ∧ e ≠ '&' := by
      constructor <;> rintro rfl <;> exact absurd hhead (by decide)
    rcases read_isCopied hcopied with hlexeme | ⟨-, -, -, hlexeme⟩
    · have hkind : (read raw' givenUp' c rest).1.kind = .stray := by rw [hlexeme]; rfl
      rw [hes, hlexeme, tokensFrom_cons,
        show Lexeme.stray.raw = none from rfl, read_text hmarkup.1 hmarkup.2] at hrest
      refine absurd (hstray _ _ e _ rfl hrest hkind ?_ rfl he) (by simp [hend])
      simp [Lexeme.token, Lexeme.ofText, he]
    · rw [hlexeme, Lexeme.ofText, drop_length_takeWhile] at hes
      have hstop := head_dropWhile hes
      have hd : isBlank d = isBlank c := by
        rw [hlexeme, Lexeme.token, Lexeme.ofText, take_length_takeWhile] at htext
        have hmem : d ∈ c :: rest.takeWhile _ := htext ▸ (by simp : d ∈ xs ++ d :: [])
        rcases List.mem_cons.mp hmem with rfl | hmem
        · rfl
        · have hrun := List.all_eq_true.mp List.all_takeWhile d hmem
          simp only [Bool.and_eq_true, beq_iff_eq] at hrun
          exact hrun.2
      simp [hmarkup, he, ← hd, hblank] at hstop

end PlainLexer

end MarkupText
