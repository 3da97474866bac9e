import MarkupText.Proofs.ByteLexer
import MarkupText.Proofs.Digits
import MarkupText.Proofs.TagEnds

namespace MarkupText

namespace Text

variable {m cs ds : Text} {pos a b i : Nat} {c : Char}

@[simp] theorem byteOffset_zero (m : Text) : byteOffset m 0 = 0 := by
  rw [byteOffset, List.take_zero, byteLength_nil]

theorem byteOffset_add (m : Text) (pos n : Nat) :
    byteOffset m (pos + n) = byteOffset m pos + byteLength ((m.drop pos).take n) := by
  rw [byteOffset, List.take_add, byteLength_append]
  rfl

theorem byteOffset_length (m : Text) : byteOffset m m.length = byteLength m := by
  rw [byteOffset, List.take_length]

theorem byteOffset_succ (h : m[i]? = some c) :
    byteOffset m (i + 1) = byteOffset m i + c.utf8Size := by
  obtain ⟨hi, hc⟩ := List.getElem?_eq_some_iff.mp h
  rw [byteOffset_add, List.drop_eq_getElem_cons hi, hc]
  rfl

theorem byteOffset_mono (m : Text) (h : a ≤ b) : byteOffset m a ≤ byteOffset m b := by
  obtain ⟨n, rfl⟩ := Nat.exists_eq_add_of_le h
  rw [byteOffset_add]
  exact Nat.le_add_right _ _

theorem byteOffset_lt (ha : a < m.length) (h : a < b) : byteOffset m a < byteOffset m b := by
  have hpos := m[a].utf8Size_pos
  have hsucc := byteOffset_succ (List.getElem?_eq_getElem ha)
  have hle := byteOffset_mono m (Nat.succ_le_of_lt h)
  simp only [Nat.succ_eq_add_one] at hle
  omega

theorem byteOffset_le_iff (ha : a ≤ m.length) : byteOffset m a ≤ byteOffset m b ↔ a ≤ b := by
  refine ⟨fun h ↦ ?_, byteOffset_mono m⟩
  rcases Nat.lt_or_ge b a with hba | hab
  · exact absurd (byteOffset_lt (Nat.lt_of_lt_of_le hba ha) hba) (Nat.not_lt_of_le h)
  · exact hab

theorem byteOffset_lt_iff : byteOffset m pos < byteLength m ↔ pos < m.length := by
  rw [← byteOffset_length]
  refine ⟨fun h ↦ ?_, fun h ↦ byteOffset_lt h h⟩
  rcases Nat.lt_or_ge pos m.length with hlt | hge
  · exact hlt
  · exact absurd (byteOffset_mono m hge) (Nat.not_le_of_lt h)

theorem byteOffset_eq_of_le (h : m.length ≤ pos) : byteOffset m pos = byteLength m := by
  rw [byteOffset, List.take_of_length_le h]

/-- What starts a character can be cut off. -/
@[simp] theorem dropBytes?_byteOffset (m : Text) (pos : Nat) :
    dropBytes? (byteOffset m pos) m = some (m.drop pos) := by
  have h := dropBytes?_append (m.take pos) (m.drop pos)
  rwa [List.take_append_drop] at h

theorem charAt?_byteOffset (m : Text) (pos : Nat) :
    charAt? m (byteOffset m pos) = m[pos]? := by
  rw [charAt?, dropBytes?_byteOffset, Option.bind_some, List.head?_drop]

theorem byteOffset_add_of_front (h : ds <+: m.drop pos) :
    byteOffset m (pos + ds.length) = byteOffset m pos + byteLength ds := by
  rw [byteOffset_add, ← List.prefix_iff_eq_take.mp h]

theorem slice?_of_front (h : ds <+: m.drop pos) :
    slice? m ⟨byteOffset m pos, byteOffset m pos + byteLength ds⟩ = some ds := by
  obtain ⟨es, hes⟩ := h
  refine slice?_eq_some_iff.mpr ⟨m.take pos, es, ?_, rfl, rfl⟩
  rw [hes, List.take_append_drop]

def IsAscii (cs : Text) : Prop := ∀ c ∈ cs, c.toNat < 128

theorem IsAscii.byteLength (h : IsAscii cs) : byteLength cs = cs.length := by
  induction cs with
  | nil => rfl
  | cons c cs ih =>
    have hc := utf8Size_eq_one (h c List.mem_cons_self)
    rw [byteLength_cons, ih fun d hd ↦ h d (List.mem_cons_of_mem c hd), List.length_cons, hc,
      Nat.add_comm]

theorem IsAscii.byteOffset_add (h : IsAscii ds) (hds : ds <+: m.drop pos) :
    byteOffset m (pos + ds.length) = byteOffset m pos + ds.length := by
  rw [byteOffset_add_of_front hds, h.byteLength]

theorem IsAscii.takeWhile {p : Char → Bool} (hp : ∀ c, p c → c.toNat < 128) (cs : Text) :
    IsAscii (cs.takeWhile p) :=
  fun c hc ↦ hp c (List.all_eq_true.mp List.all_takeWhile c hc)

theorem isUpper_iff : c.isUpper ↔ 65 ≤ c.toNat ∧ c.toNat ≤ 90 := decide_eq_true_iff

theorem isLower_iff : c.isLower ↔ 97 ≤ c.toNat ∧ c.toNat ≤ 122 :=
  Bool.and_eq_true_iff.trans (and_congr decide_eq_true_iff decide_eq_true_iff)

theorem isAlpha_iff : c.isAlpha ↔ c.isUpper ∨ c.isLower := Bool.or_eq_true_iff

theorem isDigit_iff : c.isDigit ↔ 48 ≤ c.toNat ∧ c.toNat ≤ 57 :=
  Bool.and_eq_true_iff.trans (and_congr decide_eq_true_iff decide_eq_true_iff)

theorem toNat_lt_of_isAlphanum (h : c.isAlphanum) : c.toNat < 128 := by
  rw [Char.isAlphanum, Bool.or_eq_true, isAlpha_iff, isUpper_iff, isLower_iff, isDigit_iff] at h
  omega

theorem toNat_lt_of_isNameChar (h : isNameChar c) : c.toNat < 128 := by
  simp only [isNameChar, Bool.or_eq_true, beq_iff_eq] at h
  obtain ((h | rfl) | rfl) | rfl := h
  · exact toNat_lt_of_isAlphanum h
  · decide
  · decide
  · decide

theorem toNat_lt_of_isDigit (h : c.isDigit) : c.toNat < 128 := by
  refine toNat_lt_of_isAlphanum ?_
  rw [Char.isAlphanum, h, Bool.or_true]

theorem toNat_lt_of_isHexDigit (h : isHexDigit c) : c.toNat < 128 := by
  rw [isHexDigit_iff] at h
  omega

end Text

end MarkupText
