import MarkupText.Proofs.ByteOffsets
import MarkupText.Proofs.Digits
import MarkupText.Proofs.References
import MarkupText.Text.Blank

namespace MarkupText

/-- The class does not tell the two cases of a letter apart. -/
def Caseless (p : Char → Bool) : Prop := ∀ c : Char, p c.toLower = p c

variable {p : Char → Bool} {c q : Char} {cs ds : Text}

theorem toLower_cases (c : Char) :
    c.toLower = c ∨ c.isUpper ∧ c.toLower.toNat = c.toNat + 32 := by
  unfold Char.toLower
  split
  · rename_i hupper
    refine .inr ⟨decide_eq_true hupper, ?_⟩
    have hle : c.val.toNat ≤ 90 := UInt32.le_iff_toNat_le.mp hupper.2
    change (c.val + 32).toNat = c.val.toNat + 32
    rw [UInt32.toNat_add, show (32 : UInt32).toNat = 32 from rfl]
    omega
  · exact .inl rfl

/-- A class of codes that takes in both cases of each letter or none does not tell them apart. -/
theorem Caseless.of_code {P : Nat → Prop} (hp : ∀ c : Char, p c ↔ P c.toNat)
    (hP : ∀ n, 65 ≤ n → n ≤ 90 → (P (n + 32) ↔ P n)) : Caseless p := by
  intro c
  apply Bool.eq_iff_iff.mpr
  rcases toLower_cases c with hsame | ⟨hupper, hcode⟩
  · rw [hsame]
  · rw [Text.isUpper_iff] at hupper
    rw [hp, hp, hcode]
    exact hP c.toNat hupper.1 hupper.2

theorem Caseless.or {p' : Char → Bool} (h : Caseless p) (h' : Caseless p') :
    Caseless fun c ↦ p c || p' c :=
  fun c ↦ by simp only [h c, h' c]

theorem Caseless.and {p' : Char → Bool} (h : Caseless p) (h' : Caseless p') :
    Caseless fun c ↦ p c && p' c :=
  fun c ↦ by simp only [h c, h' c]

/-- Two characters of which one is no letter are the same in both cases or in none. -/
theorem toLower_eq_iff (hq : q.isAlpha = false) : c.toLower = q ↔ c = q := by
  rcases toLower_cases c with hsame | ⟨hupper, hcode⟩
  · rw [hsame]
  · rw [Bool.eq_false_iff, ne_eq, Text.isAlpha_iff, Text.isUpper_iff, Text.isLower_iff] at hq
    rw [Text.isUpper_iff] at hupper
    refine iff_of_false ?_ ?_
    · rintro rfl
      omega
    · rintro rfl
      omega

theorem caseless_beq (hq : q.isAlpha = false) : Caseless (· == q) :=
  fun _ ↦ Bool.eq_iff_iff.mpr (by rw [beq_iff_eq, beq_iff_eq, toLower_eq_iff hq])

theorem caseless_bne (hq : q.isAlpha = false) : Caseless (· != q) :=
  fun c ↦ congrArg (!·) (caseless_beq hq c)

theorem caseless_isAlpha : Caseless Char.isAlpha := by
  apply Caseless.of_code (P := fun n ↦ 65 ≤ n ∧ n ≤ 90 ∨ 97 ≤ n ∧ n ≤ 122)
  · intro c
    rw [Text.isAlpha_iff, Text.isUpper_iff, Text.isLower_iff]
  · intro n
    omega

theorem caseless_isDigit : Caseless Char.isDigit := by
  apply Caseless.of_code (P := fun n ↦ 48 ≤ n ∧ n ≤ 57)
  · intro c
    exact Text.isDigit_iff
  · intro n
    omega

theorem caseless_isAlphanum : Caseless Char.isAlphanum := caseless_isAlpha.or caseless_isDigit

theorem caseless_isNameChar : Caseless isNameChar :=
  ((caseless_isAlphanum.or (caseless_beq rfl)).or (caseless_beq rfl)).or (caseless_beq rfl)

theorem caseless_isBlank : Caseless Text.isBlank := by
  apply Caseless.of_code (P := fun n ↦ 0x9 ≤ n ∧ n ≤ 0xD ∨ n = 0x20 ∨ n = 0x85 ∨ n = 0xA0 ∨
    n = 0x1680 ∨ 0x2000 ≤ n ∧ n ≤ 0x200A ∨ n = 0x2028 ∨ n = 0x2029 ∨ n = 0x202F ∨ n = 0x205F ∨
    n = 0x3000)
  · intro c
    simp only [Text.isBlank, Bool.or_eq_true, Bool.and_eq_true, decide_eq_true_eq, beq_iff_eq,
      or_assoc]
  · intro n
    omega

theorem caseless_isGap : Caseless TagSearch.isGap :=
  ((((caseless_beq rfl).or (caseless_beq rfl)).or (caseless_beq rfl)).or (caseless_beq rfl)).or
    (caseless_beq rfl)

theorem caseless_isQuote : Caseless ScanState.isQuote := (caseless_beq rfl).or (caseless_beq rfl)

theorem caseless_isHexDigit : Caseless Text.isHexDigit := by
  apply Caseless.of_code
    (P := fun n ↦ 48 ≤ n ∧ n ≤ 57 ∨ 97 ≤ n ∧ n ≤ 102 ∨ 65 ≤ n ∧ n ≤ 70)
  · intro c
    exact Text.isHexDigit_iff
  · intro n
    omega

theorem utf8Size_toLower (c : Char) : c.toLower.utf8Size = c.utf8Size := by
  rcases toLower_cases c with hsame | ⟨hupper, hcode⟩
  · rw [hsame]
  · rw [Text.isUpper_iff] at hupper
    rw [utf8Size_eq_one (by omega), utf8Size_eq_one (by omega)]

theorem toLower_toLower (c : Char) : c.toLower.toLower = c.toLower := by
  rcases toLower_cases c with hsame | ⟨hupper, hcode⟩
  · rw [hsame, hsame]
  · refine (toLower_cases c.toLower).resolve_right ?_
    rintro ⟨hupper', -⟩
    rw [Text.isUpper_iff] at hupper hupper'
    omega

namespace Text

theorem length_lower (cs : Text) : (lower cs).length = cs.length := List.length_map _

theorem byteLength_lower (cs : Text) : byteLength (lower cs) = byteLength cs := by
  induction cs with
  | nil => rfl
  | cons c cs ih =>
    change c.toLower.utf8Size + byteLength (lower cs) = c.utf8Size + byteLength cs
    rw [utf8Size_toLower, ih]

theorem take_lower (n : Nat) (cs : Text) : (lower cs).take n = lower (cs.take n) :=
  List.map_take.symm

theorem drop_lower (n : Nat) (cs : Text) : (lower cs).drop n = lower (cs.drop n) :=
  List.map_drop.symm

theorem tail_lower (cs : Text) : (lower cs).tail = lower cs.tail := List.map_tail.symm

theorem takeWhile_lower (hp : Caseless p) (cs : Text) :
    (lower cs).takeWhile p = lower (cs.takeWhile p) := by
  rw [lower, List.takeWhile_map, show p ∘ Char.toLower = p from funext hp]
  rfl

theorem dropWhile_lower (hp : Caseless p) (cs : Text) :
    (lower cs).dropWhile p = lower (cs.dropWhile p) := by
  rw [lower, List.dropWhile_map, show p ∘ Char.toLower = p from funext hp]
  rfl

theorem head?_any_lower (hp : Caseless p) (cs : Text) :
    (lower cs).head?.any p = cs.head?.any p := by
  cases cs with
  | nil => rfl
  | cons c cs => exact hp c

theorem getElem?_lower_eq_iff (hq : q.isAlpha = false) (n : Nat) :
    (lower cs)[n]? = some q ↔ cs[n]? = some q := by
  rw [lower, List.getElem?_map, Option.map_eq_some_iff]
  simp only [toLower_eq_iff hq, exists_eq_right]

theorem head?_lower_eq_iff (hq : q.isAlpha = false) :
    (lower cs).head? = some q ↔ cs.head? = some q := by
  rw [List.head?_eq_getElem?, List.head?_eq_getElem?, getElem?_lower_eq_iff hq]

theorem mem_lower_iff (hq : q.isAlpha = false) : q ∈ lower cs ↔ q ∈ cs := by
  rw [lower, List.mem_map]
  simp only [toLower_eq_iff hq, exists_eq_right]

theorem isPrefixOf_lower (hds : ds.all (!·.isAlpha)) :
    ds.isPrefixOf (lower cs) = ds.isPrefixOf cs := by
  induction ds generalizing cs with
  | nil => rfl
  | cons d ds ih =>
    cases cs with
    | nil => rfl
    | cons c cs =>
      rw [List.all_cons, Bool.and_eq_true, Bool.not_eq_true'] at hds
      have hd : (d == c.toLower) = (d == c) := by
        rw [Bool.beq_comm, Bool.beq_comm (a := d)]
        exact caseless_beq hds.1 c
      rw [List.isPrefixOf, ← ih hds.2, ← hd]
      rfl

theorem lower_lower (cs : Text) : lower (lower cs) = lower cs := by
  rw [lower, lower, List.map_map]
  exact List.map_congr_left fun c _ ↦ toLower_toLower c

theorem sameCaseless_lower (cs ds : Text) : sameCaseless (lower cs) ds = sameCaseless cs ds := by
  rw [sameCaseless, lower_lower, sameCaseless]

theorem trim_lower (cs : Text) : trim (lower cs) = lower (trim cs) := by
  have hreverse (ds : Text) : (lower ds).reverse = lower ds.reverse := List.map_reverse.symm
  rw [trim, trim, dropEndWhile, dropEndWhile, dropWhile_lower caseless_isBlank, hreverse,
    dropWhile_lower caseless_isBlank, hreverse]

end Text

end MarkupText
