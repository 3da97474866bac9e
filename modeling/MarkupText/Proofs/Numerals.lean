import MarkupText.Proofs.LetterCase

namespace MarkupText

open Text

/-- The digits, of which letters may be in either case, write `n` with any number of zeros first. -/
def IsNumeral (radix n : Nat) (digits : Text) : Prop :=
  ∃ zeros, lower digits = List.replicate zeros '0' ++ Nat.toDigits radix n

def positional (radix value : Nat) (vs : List Nat) : Nat :=
  vs.foldl (fun n v ↦ n * radix + v) value

def HasValues (radix : Nat) (digits : Text) (vs : List Nat) : Prop :=
  digits.map digitValue? = vs.map some ∧ ∀ v ∈ vs, v < radix

variable {radix n value v : Nat} {vs : List Nat} {digits tail : Text} {c q : Char}

theorem hasValues_nil : HasValues radix [] vs ↔ vs = [] := by
  constructor
  · intro h
    exact List.map_eq_nil_iff.mp h.1.symm
  · intro h
    subst h
    exact ⟨rfl, List.forall_mem_nil _⟩

theorem hasValues_cons : HasValues radix (c :: digits) vs ↔
    ∃ v vs', vs = v :: vs' ∧ (digitValue? c).filter (· < radix) = some v ∧
      HasValues radix digits vs' := by
  simp only [Option.filter_eq_some_iff, decide_eq_true_eq]
  constructor
  · intro h
    obtain ⟨v, vs', rfl, hv, hvs⟩ := List.map_eq_cons_iff.mp h.1.symm
    obtain ⟨hlt, hvslt⟩ := List.forall_mem_cons.mp h.2
    exact ⟨v, vs', rfl, ⟨hv.symm, hlt⟩, hvs.symm, hvslt⟩
  · intro h
    obtain ⟨v, vs', rfl, hv, hvs⟩ := h
    refine ⟨?_, List.forall_mem_cons.mpr ⟨hv.2, hvs.2⟩⟩
    rw [List.map_cons, List.map_cons, hv.1, hvs.1]

theorem digitValue?_toLower (c : Char) : digitValue? c.toLower = digitValue? c := by
  rcases toLower_cases c with hsame | ⟨hupper, hcode⟩
  · rw [hsame]
  · rw [isUpper_iff] at hupper
    rw [digitValue?_eq, digitValue?_eq, hcode]
    grind

theorem digitValue?_digitChar : ∀ v < 16, digitValue? (Nat.digitChar v) = some v := by decide

theorem isDigit_of_digitValue? (h : digitValue? c = some v) (hv : v < 10) : c.isDigit := by
  rw [digitValue?_eq] at h
  rw [isDigit_iff]
  split at h
  · assumption
  · split at h
    · cases h
      omega
    · split at h
      · cases h
        omega
      · cases h

theorem le_positional (hradix : 0 < radix) (value : Nat) (vs : List Nat) :
    value ≤ positional radix value vs := by
  induction vs generalizing value with
  | nil => exact Nat.le_refl value
  | cons v vs ih =>
    have hmul := Nat.le_mul_of_pos_right value hradix
    exact Nat.le_trans (by omega) (ih (value * radix + v))

theorem positional_zeros (radix zeros : Nat) (vs : List Nat) :
    positional radix 0 (List.replicate zeros 0 ++ vs) = positional radix 0 vs := by
  induction zeros with
  | zero => rfl
  | succ zeros ih =>
    rw [List.replicate_succ, List.cons_append, positional, List.foldl_cons, Nat.zero_mul]
    exact ih

theorem exists_values (hradix : 1 < radix) (hle : radix ≤ 16) (n : Nat) :
    ∃ vs, HasValues radix (Nat.toDigits radix n) vs ∧ positional radix 0 vs = n := by
  induction n using Nat.strongRecOn with
  | ind n ih =>
    by_cases hn : n < radix
    · refine ⟨[n], ⟨?_, ?_⟩, ?_⟩
      · rw [Nat.toDigits_of_lt_base hn, List.map_singleton, digitValue?_digitChar n (by omega)]
        rfl
      · exact fun v hv ↦ List.mem_singleton.mp hv ▸ hn
      · rw [positional, List.foldl_cons, List.foldl_nil, Nat.zero_mul, Nat.zero_add]
    · obtain ⟨vs, ⟨hvs, hlt⟩, hvalue⟩ := ih (n / radix) (Nat.div_lt_self (by omega) hradix)
      have hmod := Nat.mod_lt n (by omega : 0 < radix)
      refine ⟨vs ++ [n % radix], ⟨?_, ?_⟩, ?_⟩
      · rw [Nat.toDigits_of_base_le hradix (by omega), List.map_append, hvs, List.map_singleton,
          digitValue?_digitChar _ (by omega), List.map_append, List.map_singleton]
      · intro v hv
        rcases List.mem_append.mp hv with hv | hv
        · exact hlt v hv
        · exact List.mem_singleton.mp hv ▸ hmod
      · rw [positional] at hvalue
        rw [positional, List.foldl_append, hvalue, List.foldl_cons, List.foldl_nil,
          Nat.div_add_mod']

namespace IsNumeral

theorem exists_values (h : IsNumeral radix n digits) (hradix : 1 < radix) (hle : radix ≤ 16) :
    ∃ vs, HasValues radix digits vs ∧ positional radix 0 vs = n := by
  obtain ⟨zeros, hdigits⟩ := h
  obtain ⟨vs, ⟨hvs, hlt⟩, hvalue⟩ := MarkupText.exists_values hradix hle n
  have hlower : (lower digits).map digitValue? = digits.map digitValue? := by
    rw [lower, List.map_map]
    exact List.map_congr_left fun c _ ↦ digitValue?_toLower c
  refine ⟨List.replicate zeros 0 ++ vs, ⟨?_, ?_⟩, ?_⟩
  · rw [← hlower, hdigits, List.map_append, List.map_append, hvs, List.map_replicate,
      List.map_replicate]
    rfl
  · intro v hv
    rcases List.mem_append.mp hv with hv | hv
    · rw [List.eq_of_mem_replicate hv]
      omega
    · exact hlt v hv
  · rw [positional_zeros, hvalue]

theorem ne_nil (h : IsNumeral radix n digits) : digits ≠ [] := by
  rintro rfl
  obtain ⟨zeros, hdigits⟩ := h
  exact Nat.toDigits_ne_nil (List.append_eq_nil_iff.mp hdigits.symm).2

theorem exists_value (h : IsNumeral radix n digits) (hradix : 1 < radix) (hle : radix ≤ 16)
    (hc : c ∈ digits) : ∃ v, digitValue? c = some v ∧ v < radix := by
  obtain ⟨vs, ⟨hvs, hlt⟩, -⟩ := h.exists_values hradix hle
  have hmem : digitValue? c ∈ vs.map some := hvs ▸ List.mem_map_of_mem hc
  obtain ⟨v, hv, hcv⟩ := List.mem_map.mp hmem
  exact ⟨v, hcv.symm, hlt v hv⟩

theorem ne_of_mem (h : IsNumeral radix n digits) (hradix : 1 < radix) (hle : radix ≤ 16)
    (hq : digitValue? q = none) : ∀ c ∈ digits, c ≠ q := by
  intro c hc heq
  obtain ⟨v, hv, -⟩ := h.exists_value hradix hle hc
  rw [heq, hq] at hv
  cases hv

theorem takeWhile_append (h : IsNumeral radix n digits) (hradix : 1 < radix) (hle : radix ≤ 16)
    (htail : ∀ c ∈ tail.head?, c = ';') : (digits ++ tail).takeWhile (· ≠ ';') = digits := by
  rw [List.takeWhile_append_of_pos fun c hc ↦
    decide_eq_true (h.ne_of_mem hradix hle (by decide) c hc)]
  cases tail with
  | nil => exact List.append_nil digits
  | cons c tail =>
    obtain rfl := htail c rfl
    exact List.append_nil digits

end IsNumeral

namespace Reference

/-- Digits that are given up early have a value that is too great. -/
theorem number?_eq_some_iff (hradix : 0 < radix) (hvalue : value ≤ maxCode) {cs : Text} :
    number? radix value cs = some n ↔ n ≤ maxCode ∧
      ∃ vs, HasValues radix (cs.takeWhile (· ≠ ';')) vs ∧ positional radix value vs = n := by
  have hstop {value : Nat} (hvalue : value ≤ maxCode) : some value = some n ↔ n ≤ maxCode ∧
      ∃ vs, HasValues radix [] vs ∧ positional radix value vs = n := by
    simp only [hasValues_nil, exists_eq_left, Option.some.injEq]
    exact ⟨fun h ↦ ⟨h ▸ hvalue, h⟩, And.right⟩
  fun_induction number? radix value cs with
  | case1 value => exact hstop hvalue
  | case2 value cs => exact hstop hvalue
  | case3 value c cs hc hnone =>
    constructor
    · intro h
      cases h
    · intro h
      obtain ⟨-, vs, hvs, -⟩ := h
      rw [List.takeWhile_cons, if_pos (decide_eq_true hc)] at hvs
      obtain ⟨v, vs', -, hv, -⟩ := hasValues_cons.mp hvs
      rw [hnone] at hv
      cases hv
  | case4 value c cs hc d hd next hnext =>
    constructor
    · intro h
      cases h
    · intro h
      obtain ⟨hle, vs, hvs, rfl⟩ := h
      rw [List.takeWhile_cons, if_pos (decide_eq_true hc)] at hvs
      obtain ⟨v, vs', rfl, hv, -⟩ := hasValues_cons.mp hvs
      obtain rfl := Option.some.inj (hd.symm.trans hv)
      exact absurd (Nat.le_trans (le_positional hradix next vs') hle) (Nat.not_le.mpr hnext)
  | case5 value c cs hc d hd next hnext ih =>
    refine (ih (Nat.not_lt.mp hnext)).trans (and_congr_right fun _ ↦ ?_)
    rw [List.takeWhile_cons, if_pos (decide_eq_true hc)]
    constructor
    · intro h
      obtain ⟨vs, hvs, hn⟩ := h
      exact ⟨d :: vs, hasValues_cons.mpr ⟨d, vs, rfl, hd, hvs⟩, hn⟩
    · intro h
      obtain ⟨vs, hvs, hn⟩ := h
      obtain ⟨v, vs', rfl, hv, htail⟩ := hasValues_cons.mp hvs
      obtain rfl := Option.some.inj (hd.symm.trans hv)
      exact ⟨vs', htail, hn⟩

theorem charOfCode?_toNat (hc : c.toNat ≠ 0) : charOfCode? c.toNat = some c := by
  have hvalid : c.toNat.isValidChar := c.valid
  rw [charOfCode?, dif_pos hvalid, if_neg hc]
  exact congrArg some (Char.ext rfl)

/-- A numeral of a character's code stands for that character. -/
theorem digitsChar_of_numeral (h : IsNumeral radix c.toNat digits) (hradix : 1 < radix)
    (hle : radix ≤ 16) (hc : 1 ≤ c.toNat) (hcode : c.toNat ≤ maxCode) :
    digitsChar radix (digits ++ [';']) = c := by
  obtain ⟨vs, hvs, hvalue⟩ := h.exists_values hradix hle
  have hnumber : number? radix 0 (digits ++ [';']) = some c.toNat := by
    apply (number?_eq_some_iff (by omega) (Nat.zero_le _)).mpr
    rw [h.takeWhile_append hradix hle (by simp)]
    exact ⟨hcode, vs, hvs, hvalue⟩
  rw [digitsChar, hnumber, Option.bind_some, charOfCode?_toNat (by omega), Option.getD_some]

end Reference

end MarkupText
