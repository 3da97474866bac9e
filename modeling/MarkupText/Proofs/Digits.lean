import MarkupText.Text.Basic

namespace MarkupText.Text

variable {c : Char}

theorem digitValue?_eq (c : Char) : digitValue? c =
    if 48 ≤ c.toNat ∧ c.toNat ≤ 57 then some (c.toNat - 48)
    else if 97 ≤ c.toNat ∧ c.toNat ≤ 102 then some (c.toNat - 97 + 10)
    else if 65 ≤ c.toNat ∧ c.toNat ≤ 70 then some (c.toNat - 65 + 10)
    else none := by
  have hle {a b : Char} : a ≤ b ↔ a.toNat ≤ b.toNat := UInt32.le_iff_toNat_le
  simp only [digitValue?, Bool.and_eq_true, decide_eq_true_eq, hle]
  rfl

theorem isHexDigit_iff : isHexDigit c ↔ 48 ≤ c.toNat ∧ c.toNat ≤ 57 ∨
    97 ≤ c.toNat ∧ c.toNat ≤ 102 ∨ 65 ≤ c.toNat ∧ c.toNat ≤ 70 := by
  rw [isHexDigit, digitValue?_eq]
  split
  · simp [*]
  · split
    · simp [*]
    · split <;> simp [*]

theorem isDigit_of_mem_ofNat {n : Nat} (hc : c ∈ ofNat n) : c.isDigit :=
  Nat.isDigit_of_mem_toDigits (by decide) (by decide) hc

theorem exists_ofNat (n : Nat) : ∃ d ds, ofNat n = d :: ds ∧ d.isDigit := by
  have hne : ofNat n ≠ [] := Nat.toDigits_ne_nil
  obtain ⟨d, ds, hds⟩ := List.exists_cons_of_ne_nil hne
  exact ⟨d, ds, hds, isDigit_of_mem_ofNat (hds ▸ List.mem_cons_self)⟩

end MarkupText.Text
