import MarkupText.Extraction
import MarkupText.Proofs.Lossless

namespace MarkupText

theorem utf8Size_eq_one {c : Char} (hc : c.toNat < 128) : c.utf8Size = 1 := by
  rw [Char.utf8Size_eq_one_iff, UInt32.le_iff_toNat_le]
  exact Nat.le_of_lt_succ hc

theorem utf8Size_le_three {c : Char} (hc : c.toNat ≤ Reference.maxCode) : c.utf8Size ≤ 3 := by
  have hval : c.val ≤ 0xFFFF := by rwa [UInt32.le_iff_toNat_le]
  unfold Char.utf8Size
  dsimp only
  split
  · decide
  · split
    · decide
    · exact Nat.le_of_eq (if_pos hval)

namespace Reference

theorem number?_le {radix value n : Nat} {cs : Text} (h : number? radix value cs = some n)
    (hvalue : value ≤ maxCode) : n ≤ maxCode := by
  fun_induction number? radix value cs with
  | case1 value => exact Option.some.inj h ▸ hvalue
  | case2 value cs => exact Option.some.inj h ▸ hvalue
  | case3 => cases h
  | case4 => cases h
  | case5 value c cs hc d hd next hnext ih => exact ih h (by omega)

theorem toNat_of_charOfCode? {n : Nat} {c : Char} (h : charOfCode? n = some c) :
    c.toNat = n := by
  obtain ⟨hvalid, h⟩ := Option.dite_none_right_eq_some.mp h
  obtain ⟨-, h⟩ := Option.ite_none_left_eq_some.mp h
  exact Option.some.inj h ▸ rfl

theorem digitsChar_toNat_le (radix : Nat) (cs : Text) :
    (digitsChar radix cs).toNat ≤ maxCode := by
  unfold digitsChar
  cases hc : (number? radix 0 cs).bind charOfCode? with
  | none => decide
  | some c =>
    obtain ⟨n, hn, hchar⟩ := Option.bind_eq_some_iff.mp hc
    rw [Option.getD_some, toNat_of_charOfCode? hchar]
    exact number?_le hn (by decide)

theorem number?_singleton_lt {radix n : Nat} {c : Char} (hradix : 0 < radix)
    (h : number? radix 0 [c] = some n) : n < radix := by
  rw [number?] at h
  split at h
  · exact Option.some.inj h ▸ hradix
  · split at h
    · cases h
    · rename_i d hd
      obtain ⟨hd, hlt⟩ := Option.filter_eq_some_iff.mp hd
      simp only [Nat.zero_mul, Nat.zero_add, number?] at h
      split at h
      · cases h
      · simpa [← Option.some.inj h] using hlt

theorem digitsChar_singleton_lt {radix : Nat} (hradix : 0 < radix) (hle : radix ≤ 128)
    (c : Char) : (digitsChar radix [c]).toNat < 128 := by
  unfold digitsChar
  cases hc : (number? radix 0 [c]).bind charOfCode? with
  | none => decide
  | some d =>
    obtain ⟨n, hn, hchar⟩ := Option.bind_eq_some_iff.mp hc
    have hlt := number?_singleton_lt hradix hn
    rw [Option.getD_some, toNat_of_charOfCode? hchar]
    omega

theorem utf8Size_named_le {cs : Text} {c : Char} (h : namedChar? cs = some c) :
    c.utf8Size ≤ 2 := by
  have htable : ∀ p ∈ basicNames ++ latinTable, p.2.utf8Size ≤ 2 := by decide +kernel
  obtain ⟨l, r, hlist, -⟩ := List.lookup_eq_some_iff.mp h
  exact htable (_, c) (hlist ▸ List.mem_append_right l List.mem_cons_self)

end Reference

namespace Kind

theorem ofTag_ne_reference (name : Text) (edge : Edge) (form : Reference) :
    ofTag name edge ≠ .reference form := by
  unfold ofTag
  dsimp only
  repeat' split
  all_goals exact nofun

theorem ofComment_ne_reference (body : Text) (form : Reference) :
    ofComment body ≠ .reference form := by
  unfold ofComment
  dsimp only
  repeat' split
  all_goals exact nofun

end Kind

namespace Lexeme

theorem ofDeclaration_kind (s : TagSearch) (pos : Nat) (cs : Text) :
    (ofDeclaration s pos cs).1.kind = .declaration ∨
      (ofDeclaration s pos cs).1.kind = .stray := by
  unfold ofDeclaration
  dsimp only
  split
  · exact .inl rfl
  · exact .inr rfl

theorem ofTag_kind (s : TagSearch) (pos : Nat) (cs : Text) :
    (ofTag s pos cs).1.kind = .stray ∨
      ∃ name edge, (ofTag s pos cs).1.kind = .ofTag name edge := by
  unfold ofTag
  dsimp only
  split
  · exact .inl rfl
  · split
    · exact .inl rfl
    · exact .inr ⟨_, _, rfl⟩

theorem ofDigits_kind (form : Reference) (isDigit : Char → Bool) (lead : Nat) (cs : Text) :
    (ofDigits form isDigit lead cs).kind = .stray ∨
      (ofDigits form isDigit lead cs).kind = .reference form := by
  unfold ofDigits
  split
  · exact .inl rfl
  · exact .inr rfl

theorem ofReference_kind (cs : Text) :
    (ofReference cs).kind = .stray ∨ ∃ form, (ofReference cs).kind = .reference form := by
  unfold ofReference
  split
  · exact (ofDigits_kind _ _ _ _).imp_right fun h ↦ ⟨_, h⟩
  · exact (ofDigits_kind _ _ _ _).imp_right fun h ↦ ⟨_, h⟩
  · exact (ofDigits_kind _ _ _ _).imp_right fun h ↦ ⟨_, h⟩
  · unfold ofName
    dsimp only
    split
    · exact .inr ⟨_, rfl⟩
    · exact .inl rfl

theorem ofMarkup_ne_reference (s : TagSearch) (pos : Nat) (cs : Text) (form : Reference) :
    (ofMarkup s pos cs).1.kind ≠ .reference form := by
  unfold ofMarkup
  split
  · exact Kind.ofComment_ne_reference _ form
  · split
    · rcases ofDeclaration_kind s pos cs with h | h <;> rw [h] <;> exact nofun
    · rcases ofTag_kind s pos cs with h | ⟨name, edge, h⟩
      · rw [h]
        exact nofun
      · rw [h]
        exact Kind.ofTag_ne_reference name edge form

theorem ofText_ne_reference (c : Char) (cs : Text) (form : Reference) :
    (ofText c cs).kind ≠ .reference form := by
  unfold ofText
  dsimp only
  split <;> exact nofun

theorem read_reference {raw : Option Text} {s : TagSearch} {pos : Nat} {c : Char} {cs : Text}
    {form : Reference} (h : (read raw s pos c cs).1.kind = .reference form) :
    c = '&' ∧ (read raw s pos c cs).1 = ofReference cs := by
  unfold read at h ⊢
  split at h
  · cases h
  · split at h
    · exact absurd h (ofMarkup_ne_reference s pos cs form)
    · split at h
      · rename_i hand
        exact ⟨hand, by simp [hand]⟩
      · exact absurd h (ofText_ne_reference c cs form)

def leastMore : Reference → Nat
  | .decimal => 2
  | .hexadecimal => 3
  | .named => 2

theorem ofDigits_more {form form' : Reference} {isDigit : Char → Bool} {lead : Nat} {cs : Text}
    (h : (ofDigits form isDigit lead cs).kind = .reference form') :
    form' = form ∧ lead + 1 ≤ (ofDigits form isDigit lead cs).more ∧
      (ofDigits form isDigit lead cs).more ≤ lead + cs.length := by
  have hlen := (List.takeWhile_sublist (p := isDigit) (l := cs)).length_le
  cases hn : (cs.takeWhile isDigit).length with
  | zero => simp [ofDigits, hn, stray] at h
  | succ n =>
    simp only [ofDigits, hn] at h ⊢
    refine ⟨(Kind.reference.inj h).symm, by omega, ?_⟩
    split
    · rename_i hsemi
      have hlt := (List.getElem?_eq_some_iff.mp hsemi).1
      omega
    · omega

theorem ofName_more {form : Reference} {cs : Text} (h : (ofName cs).kind = .reference form) :
    form = .named ∧ 2 ≤ (ofName cs).more ∧ (ofName cs).more ≤ cs.length := by
  unfold ofName at h ⊢
  dsimp only at h ⊢
  split at h
  · rename_i hname
    rw [if_pos hname]
    obtain ⟨hhead, hsemi⟩ := hname
    have hlt := (List.getElem?_eq_some_iff.mp hsemi).1
    cases cs with
    | nil => simp at hhead
    | cons c cs =>
      have hc : c.isAlphanum := by simp_all [Char.isAlphanum]
      refine ⟨(Kind.reference.inj h).symm, ?_, hlt⟩
      simp [hc]
  · cases h

theorem ofReference_more {form : Reference} {cs : Text}
    (h : (ofReference cs).kind = .reference form) :
    leastMore form ≤ (ofReference cs).more ∧ (ofReference cs).more ≤ cs.length ∧
      (form ≠ .named → cs.head? = some '#') := by
  unfold ofReference at h ⊢
  split at h
  · obtain ⟨rfl, hlow, hhigh⟩ := ofDigits_more h
    exact ⟨hlow, by simp only [List.length_cons]; omega, fun _ ↦ rfl⟩
  · obtain ⟨rfl, hlow, hhigh⟩ := ofDigits_more h
    exact ⟨hlow, by simp only [List.length_cons]; omega, fun _ ↦ rfl⟩
  · obtain ⟨rfl, hlow, hhigh⟩ := ofDigits_more h
    exact ⟨hlow, by simp only [List.length_cons]; omega, fun _ ↦ rfl⟩
  · obtain ⟨rfl, hlow, hhigh⟩ := ofName_more h
    exact ⟨hlow, hhigh, fun hform ↦ absurd rfl hform⟩

end Lexeme

/-- A reference is longer than what it stands for, however many digits it has. -/
theorem utf8Size_lt_length {m : Text} {t : Token} {form : Reference} {c : Char}
    (ht : t ∈ tokens m) (hkind : t.kind = .reference form) (hc : form.char? t.text = some c) :
    c.utf8Size < t.length := by
  obtain ⟨raw, s, pos, d, cs, hread, htext⟩ := exists_read_of_mem ht
  obtain ⟨rfl, hlex⟩ := Lexeme.read_reference (hread ▸ hkind)
  rw [hlex] at hread htext
  obtain ⟨hlow, hhigh, hhash⟩ := Lexeme.ofReference_more (hread ▸ hkind)
  have hlen := Text.length_le_byteLength t.text
  have hmore : t.text.length = (Lexeme.ofReference cs).more + 1 := by
    rw [htext, List.length_cons, List.length_take, Nat.min_eq_left hhigh]
  unfold Token.length
  cases form with
  | named =>
    have hsize := Reference.utf8Size_named_le hc
    simp only [Lexeme.leastMore] at hlow
    omega
  | hexadecimal =>
    cases hc
    have hsize := utf8Size_le_three (Reference.digitsChar_toNat_le 16
      (Reference.afterX (Reference.afterHash t.text)))
    simp only [Lexeme.leastMore] at hlow
    unfold Reference.hexadecimalChar
    omega
  | decimal =>
    cases hc
    have hsize := utf8Size_le_three (Reference.digitsChar_toNat_le 10
      (Reference.afterHash t.text))
    simp only [Lexeme.leastMore] at hlow
    unfold Reference.decimalChar
    rcases Nat.eq_or_lt_of_le hlow with htwo | hmany
    · obtain ⟨ds, rfl⟩ := List.head?_eq_some_iff.mp (hhash nofun)
      rw [← htwo] at htext
      cases ds with
      | nil => simp only [List.length_singleton] at hhigh; omega
      | cons d ds =>
        have hdigit : Reference.afterHash t.text = [d] := by rw [htext]; rfl
        have hone := utf8Size_eq_one (Reference.digitsChar_singleton_lt
          (by decide : 0 < 10) (by decide) d)
        rw [hdigit]
        omega
    · omega

end MarkupText
