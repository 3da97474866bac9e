import Mathlib.Data.List.Induction
import Mathlib.Data.Nat.Digits.Defs
import MarkupText.Proofs.Numerals

namespace MarkupText

open Text

namespace Reference

def afterLead (cs : Text) : Text := if ['&', '#'].isPrefixOf cs then cs.drop 2 else cs

def decimalDigits (cs : Text) : Text := (afterLead cs).takeWhile (· ≠ ';')

def hexadecimalDigits (cs : Text) : Text :=
  let tail := afterLead cs
  (if tail.head? = some 'x' ∨ tail.head? = some 'X' then tail.tail else tail).takeWhile (· ≠ ';')

/-- Digits of the radix, at least one, of which letters may be in either case, have the value `n`
with the first digit as the most significant. -/
def IsWriting (radix n : Nat) (digits : Text) : Prop :=
  digits ≠ [] ∧ ∃ vs : List Nat, (∀ v ∈ vs, v < radix) ∧ lower digits = vs.map Nat.digitChar ∧
    Nat.ofDigits radix vs.reverse = n

/-- The numbers that a numeric reference can name: not 0, two bytes at most and no surrogate. -/
def IsCode (n : Nat) : Prop := 1 ≤ n ∧ n ≤ 0xFFFF ∧ ¬(0xD800 ≤ n ∧ n ≤ 0xDFFF)

def decimalLeads : List Text := [[], ['&', '#']]

def hexadecimalLeads : List Text :=
  decimalLeads.flatMap fun lead ↦ [[], ['x'], ['X']].map (lead ++ ·)

structure DecodesTo (radix : Nat) (digits : Text) (c : Char) : Prop where
  toNat_eq (n : Nat) : IsWriting radix n digits → IsCode n → c.toNat = n
  eq_space : (∀ n, IsWriting radix n digits → ¬IsCode n) → c = ' '

/-- `number?` in words of 32 bits. It has no result where a product or a sum overflows. -/
def wordNumber? (radix value : BitVec 32) : Text → Option (Option (BitVec 32))
  | [] => some (some value)
  | c :: cs =>
    if c = ';' then some (some value)
    else match (digitValue? c).filter (· < radix.toNat) with
      | none => some none
      | some d =>
        if value.umulOverflow radix || (value * radix).uaddOverflow (.ofNat 32 d) then none
        else
          let next := value * radix + .ofNat 32 d
          if maxCode < next.toNat then some none else wordNumber? radix next cs

variable {radix n m value v : Nat} {vs : List Nat} {digits cs : Text} {c d : Char}

theorem wordNumber?_eq (hradix : radix ≤ 16) (hvalue : value ≤ maxCode) (cs : Text) :
    wordNumber? (.ofNat 32 radix) (.ofNat 32 value) cs =
      some ((number? radix value cs).map (.ofNat 32)) := by
  have hword {k : Nat} (hk : k < 2 ^ 32) : (BitVec.ofNat 32 k).toNat = k := Nat.mod_eq_of_lt hk
  induction cs generalizing value with
  | nil => rfl
  | cons c cs ih =>
    rw [wordNumber?, number?, hword (by omega)]
    split
    · rfl
    · cases hd : (digitValue? c).filter (· < radix) with
      | none => rfl
      | some d =>
        have hlt : d < radix := of_decide_eq_true (Option.filter_eq_some_iff.mp hd).2
        have hsmall : value ≤ 0xFFFF := hvalue
        have hproduct : value * radix ≤ 0xFFFF * 16 := Nat.mul_le_mul hvalue hradix
        have hmul : (BitVec.ofNat 32 value).umulOverflow (.ofNat 32 radix) = false := by
          rw [BitVec.umulOverflow, hword (by omega), hword (by omega)]
          exact decide_eq_false (by omega)
        have hadd : (BitVec.ofNat 32 (value * radix)).uaddOverflow (.ofNat 32 d) = false := by
          rw [BitVec.uaddOverflow, hword (by omega), hword (by omega)]
          exact decide_eq_false (by omega)
        have hsum : (BitVec.ofNat 32 (value * radix + d)).toNat = value * radix + d :=
          hword (by omega)
        simp only [← BitVec.ofNat_mul, ← BitVec.ofNat_add, hmul, hadd, hsum, Bool.or_self,
          Bool.false_eq_true, if_false]
        split
        · rfl
        · rename_i hle
          exact ih (Nat.not_lt.mp hle)

theorem charOfCode?_eq_some_iff : charOfCode? n = some c ↔ n ≠ 0 ∧ c.toNat = n := by
  constructor
  · intro h
    obtain ⟨hvalid, hne⟩ := Option.dite_none_right_eq_some.mp h
    exact ⟨(Option.ite_none_left_eq_some.mp hne).1, toNat_of_charOfCode? h⟩
  · intro h
    obtain ⟨hne, rfl⟩ := h
    exact charOfCode?_toNat hne

theorem toLower_of_digitValue? (h : digitValue? c = some v) : c.toLower = Nat.digitChar v := by
  have htable : ∀ k < 128, ∀ v ∈ digitValue? (Char.ofNat k),
      (Char.ofNat k).toLower = Nat.digitChar v := by decide +kernel
  have hcode : c.toNat < 128 := by
    rw [digitValue?_eq] at h
    grind
  exact Char.ofNat_toNat c ▸ htable c.toNat hcode v (by rwa [Char.ofNat_toNat])

theorem hasValues_iff (hradix : radix ≤ 16) : HasValues radix digits vs ↔
    (∀ v ∈ vs, v < radix) ∧ lower digits = vs.map Nat.digitChar := by
  rw [HasValues, and_comm]
  refine and_congr_right fun hlt ↦ ⟨?_, ?_⟩
  · intro h
    induction digits generalizing vs with
    | nil =>
      obtain rfl := List.map_eq_nil_iff.mp h.symm
      rfl
    | cons c digits ih =>
      obtain ⟨v, vs', rfl, hv, hvs⟩ := List.map_eq_cons_iff.mp h.symm
      exact congrArg₂ List.cons (toLower_of_digitValue? hv.symm)
        (ih (List.forall_mem_cons.mp hlt).2 hvs.symm)
  · intro h
    calc digits.map digitValue? = (lower digits).map digitValue? := by
          rw [lower, List.map_map]
          exact List.map_congr_left fun c _ ↦ (digitValue?_toLower c).symm
      _ = vs.map some := by
          rw [h, List.map_map]
          exact List.map_congr_left fun v hv ↦
            digitValue?_digitChar v (Nat.lt_of_lt_of_le (hlt v hv) hradix)

theorem positional_eq_ofDigits (radix : Nat) (vs : List Nat) :
    positional radix 0 vs = Nat.ofDigits radix vs.reverse := by
  induction vs using List.reverseRecOn with
  | nil => rfl
  | append_singleton vs v ih =>
    rw [positional] at ih
    rw [positional, List.foldl_append, List.foldl_cons, List.foldl_nil, ih, List.reverse_append,
      List.reverse_singleton, List.singleton_append, Nat.ofDigits_cons, Nat.mul_comm, Nat.add_comm]

theorem isWriting_iff (hradix : radix ≤ 16) : IsWriting radix n digits ↔
    digits ≠ [] ∧ ∃ vs, HasValues radix digits vs ∧ positional radix 0 vs = n := by
  simp only [IsWriting, hasValues_iff hradix, positional_eq_ofDigits, and_assoc]

theorem IsWriting.unique (hradix : radix ≤ 16) (h : IsWriting radix n digits)
    (h' : IsWriting radix m digits) : n = m := by
  obtain ⟨-, vs, hvs, rfl⟩ := (isWriting_iff hradix).mp h
  obtain ⟨-, vs', hvs', rfl⟩ := (isWriting_iff hradix).mp h'
  have hmap : vs.map some = vs'.map some := hvs.1.symm.trans hvs'.1
  rw [(List.map_inj_right fun _ _ ↦ Option.some.inj).mp hmap]

theorem isWriting_of_isNumeral (hradix : 1 < radix) (hle : radix ≤ 16)
    (h : IsNumeral radix n digits) : IsWriting radix n digits :=
  (isWriting_iff hle).mpr ⟨h.ne_nil, h.exists_values hradix hle⟩

theorem isCode_toNat_iff : IsCode c.toNat ↔ c.toNat ≠ 0 ∧ c.toNat ≤ maxCode := by
  have hvalid : c.toNat.isValidChar := c.valid
  rw [IsCode, maxCode]
  unfold Nat.isValidChar at hvalid
  omega

theorem exists_toNat_of_isCode (h : IsCode n) : ∃ c : Char, c.toNat = n := by
  have hvalid : n.isValidChar := by
    obtain ⟨hpos, hle, hno⟩ := h
    unfold Nat.isValidChar
    omega
  exact ⟨Char.ofNatAux n hvalid, rfl⟩

/-- The early exit changes nothing: it is taken only where the value names no character. -/
theorem decodes_digitsChar (hradix : 0 < radix) (hle : radix ≤ 16) (cs : Text) :
    DecodesTo radix (cs.takeWhile (· ≠ ';')) (digitsChar radix cs) := by
  constructor
  · intro n hwriting hcode
    obtain ⟨c, rfl⟩ := exists_toNat_of_isCode hcode
    obtain ⟨hne, hmax⟩ := isCode_toNat_iff.mp hcode
    have hvs := ((isWriting_iff hle).mp hwriting).2
    have hnumber := (number?_eq_some_iff hradix (Nat.zero_le _)).mpr ⟨hmax, hvs⟩
    rw [digitsChar, hnumber, Option.bind_some, charOfCode?_toNat hne, Option.getD_some]
  · intro hnone
    cases hc : (number? radix 0 cs).bind charOfCode? with
    | none => rw [digitsChar, hc, Option.getD_none, substitute]
    | some c =>
      obtain ⟨n, hnumber, hchar⟩ := Option.bind_eq_some_iff.mp hc
      obtain ⟨hne, rfl⟩ := charOfCode?_eq_some_iff.mp hchar
      obtain ⟨hmax, vs, hvs, hvalue⟩ := (number?_eq_some_iff hradix (Nat.zero_le _)).mp hnumber
      have hdigits : cs.takeWhile (· ≠ ';') ≠ [] := by
        intro hnil
        rw [hnil, hasValues_nil] at hvs
        subst hvs
        exact hne hvalue.symm
      have hwriting := (isWriting_iff hle).mpr ⟨hdigits, vs, hvs, hvalue⟩
      exact absurd (isCode_toNat_iff.mpr ⟨hne, hmax⟩) (hnone _ hwriting)

theorem afterLead_eq (cs : Text) : afterLead cs = afterHash cs := by
  unfold afterHash
  split
  · rfl
  · rename_i hne
    apply if_neg
    intro h
    obtain ⟨rest, rfl⟩ := List.isPrefixOf_iff_prefix.mp h
    exact hne rest rfl

theorem afterX_eq (cs : Text) :
    afterX cs = if cs.head? = some 'x' ∨ cs.head? = some 'X' then cs.tail else cs := by
  unfold afterX
  split
  · rfl
  · rfl
  · rename_i hsmall hlarge
    rw [if_neg]
    intro h
    rcases h with h | h
    · obtain ⟨rest, rfl⟩ := List.head?_eq_some_iff.mp h
      exact hsmall rest rfl
    · obtain ⟨rest, rfl⟩ := List.head?_eq_some_iff.mp h
      exact hlarge rest rfl

theorem decodes_decimalChar (cs : Text) : DecodesTo 10 (decimalDigits cs) (decimalChar cs) := by
  rw [decimalDigits, afterLead_eq]
  exact decodes_digitsChar (by decide) (by decide) _

theorem decodes_hexadecimalChar (cs : Text) :
    DecodesTo 16 (hexadecimalDigits cs) (hexadecimalChar cs) := by
  rw [hexadecimalDigits, afterLead_eq]
  simp only [← afterX_eq]
  exact decodes_digitsChar (by decide) (by decide) _

/-- Two writings of one number stand for the same character, each in its own radix. -/
theorem DecodesTo.eq {radix' : Nat} {digits' : Text} (h : DecodesTo radix digits c)
    (h' : DecodesTo radix' digits' d) (hradix : radix ≤ 16) (hradix' : radix' ≤ 16)
    (hn : IsWriting radix n digits) (hn' : IsWriting radix' n digits') : c = d := by
  by_cases hcode : IsCode n
  · exact Char.toNat_inj.mp ((h.toNat_eq n hn hcode).trans (h'.toNat_eq n hn' hcode).symm)
  · rw [h.eq_space fun m hm ↦ hn.unique hradix hm ▸ hcode,
      h'.eq_space fun m hm ↦ hn'.unique hradix' hm ▸ hcode]

section Writing

variable {tail lead : Text}

theorem afterLead_append (hlead : lead ∈ decimalLeads) (h : ∀ c ∈ cs.head?, c ≠ '&') :
    afterLead (lead ++ cs) = cs := by
  obtain rfl | hlead := List.mem_cons.mp hlead
  · apply if_neg
    intro hprefix
    obtain ⟨rest, rfl⟩ := List.isPrefixOf_iff_prefix.mp hprefix
    exact h '&' rfl rfl
  · obtain rfl := List.mem_singleton.mp hlead
    rfl

theorem head_ne_of_isNumeral {q : Char} (h : IsNumeral radix n digits) (hradix : 1 < radix)
    (hle : radix ≤ 16) (hq : digitValue? q = none) : ∀ c ∈ (digits ++ tail).head?, c ≠ q := by
  obtain ⟨d, digits, rfl⟩ := List.exists_cons_of_ne_nil h.ne_nil
  intro c hc
  obtain rfl := Option.some.inj hc
  exact h.ne_of_mem hradix hle hq _ List.mem_cons_self

theorem decimalDigits_writing (h : IsNumeral 10 n digits) (htail : ∀ c ∈ tail.head?, c = ';')
    (hlead : lead ∈ decimalLeads) : decimalDigits (lead ++ (digits ++ tail)) = digits := by
  have hhead : ∀ c ∈ (digits ++ tail).head?, c ≠ '&' :=
    head_ne_of_isNumeral h (by decide) (by decide) (by decide)
  rw [decimalDigits, afterLead_append hlead hhead, h.takeWhile_append (by decide) (by decide) htail]

theorem hexadecimalDigits_writing (h : IsNumeral 16 n digits)
    (htail : ∀ c ∈ tail.head?, c = ';') (hlead : lead ∈ hexadecimalLeads) :
    hexadecimalDigits (lead ++ (digits ++ tail)) = digits := by
  have hhead {q : Char} (hq : digitValue? q = none) : ∀ c ∈ (digits ++ tail).head?, c ≠ q :=
    head_ne_of_isNumeral h (by decide) (by decide) hq
  have hrest := h.takeWhile_append (by decide) (by decide) htail
  obtain ⟨lead, houter, hmark⟩ := List.mem_flatMap.mp hlead
  obtain ⟨mark, hmark, rfl⟩ := List.mem_map.mp hmark
  have hmark : mark = [] ∨ mark = ['x'] ∨ mark = ['X'] := by simpa using hmark
  rw [hexadecimalDigits, List.append_assoc]
  rcases hmark with rfl | rfl | rfl
  · rw [List.nil_append, afterLead_append houter (hhead (by decide)), if_neg, hrest]
    intro hx
    rcases hx with hx | hx
    · exact hhead (by decide) 'x' hx rfl
    · exact hhead (by decide) 'X' hx rfl
  · rw [afterLead_append houter (by simp)]
    exact hrest
  · rw [afterLead_append houter (by simp)]
    exact hrest

end Writing

/-- A numeric reference stands for the character of its exact value, or for a space where no
character has it. Words of 32 bits hold the value that far, and the radix does not matter. -/
theorem decodes_numeric :
    (∀ cs, DecodesTo 10 (decimalDigits cs) (decimalChar cs)) ∧
    (∀ cs, DecodesTo 16 (hexadecimalDigits cs) (hexadecimalChar cs)) ∧
    (∀ radix ∈ [10, 16], ∀ cs,
      wordNumber? (.ofNat 32 radix) 0 cs = some ((number? radix 0 cs).map (.ofNat 32))) ∧
    ∀ (n : Nat) (ds hs tail tail' : Text), IsNumeral 10 n ds → IsNumeral 16 n hs →
      (∀ c ∈ tail.head?, c = ';') → (∀ c ∈ tail'.head?, c = ';') →
      ∀ lead ∈ decimalLeads, ∀ lead' ∈ hexadecimalLeads,
        decimalChar (lead ++ (ds ++ tail)) = hexadecimalChar (lead' ++ (hs ++ tail')) := by
  refine ⟨decodes_decimalChar, decodes_hexadecimalChar, ?_, ?_⟩
  · intro radix hradix cs
    apply wordNumber?_eq
    · revert radix
      decide
    · exact Nat.zero_le _
  · intro n ds hs tail tail' hds hhs htail htail' lead hlead lead' hlead'
    apply DecodesTo.eq (n := n) (decodes_decimalChar _) (decodes_hexadecimalChar _)
    · decide
    · decide
    · rw [decimalDigits_writing hds htail hlead]
      exact isWriting_of_isNumeral (by decide) (by decide) hds
    · rw [hexadecimalDigits_writing hhs htail' hlead']
      exact isWriting_of_isNumeral (by decide) (by decide) hhs

end Reference

end MarkupText
