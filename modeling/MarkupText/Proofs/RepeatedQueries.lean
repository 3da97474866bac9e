import Mathlib.Data.List.Forall2
import Mathlib.Order.Bounds.Basic
import MarkupText.Proofs.Recalls

namespace MarkupText

variable {α : Type}

def askAll {σ π β : Type} (ask : σ → π → Option (β × σ)) (s : σ) : List π → Option (List β)
  | [] => some []
  | pos :: qs => do
    let (found, s) ← ask s pos
    return found :: (← askAll ask s qs)

namespace Recall

/-- What a search in `xs` from `pos` finds, and what is known after it. A position past the end has
an answer only if it is known already. -/
def ask (hit : α → Bool) (xs : List α) (known : Option Recall) (pos : Nat) :
    Option (Option Nat × Option Recall) :=
  if known.any (covers · pos) ∨ pos ≤ xs.length then
    let m := renew hit known pos (xs.drop pos)
    some (m.found, some m)
  else none

/-- A recall in words of 64 bits. Before the first search nothing has been found from the greatest
word on. -/
structure Cursor where
  asked : BitVec 64 := .allOnes 64
  found : Option (BitVec 64) := none

/-- `ask` in words. It has no result where a sum overflows. -/
def Cursor.ask (hit : α → Bool) (xs : List α) (m : Cursor) (pos : BitVec 64) :
    Option (Option (BitVec 64) × Cursor) :=
  if m.asked ≤ pos ∧ m.found.all (pos ≤ ·) then some (m.found, m)
  else if pos.toNat ≤ xs.length then
    match (xs.drop pos.toNat).findIdx? hit with
    | none => some (none, ⟨pos, none⟩)
    | some i =>
      if pos.uaddOverflow (.ofNat 64 i) then none
      else some (some (pos + .ofNat 64 i), ⟨pos, some (pos + .ofNat 64 i)⟩)
  else none

def hitsFrom (hit : α → Bool) (xs : List α) (pos : Nat) : Set Nat :=
  {i | pos ≤ i ∧ ∃ x, xs[i]? = some x ∧ hit x}

def IsFirst (hit : α → Bool) (xs : List α) (pos : Nat) : Option Nat → Prop
  | some i => IsLeast (hitsFrom hit xs pos) i
  | none => hitsFrom hit xs pos = ∅

variable {hit : α → Bool} {xs : List α} {known : Option Recall} {pos i : Nat} {qs : List Nat}

theorem isFirst_search (hit : α → Bool) (xs : List α) (pos : Nat) :
    IsFirst hit xs pos (search hit pos (xs.drop pos)) := by
  cases hfound : search hit pos (xs.drop pos) with
  | some i =>
    obtain ⟨n, hn, rfl⟩ := Option.map_eq_some_iff.mp hfound
    obtain ⟨hlt, hhit, hbefore⟩ := List.findIdx?_eq_some_iff_getElem.mp hn
    constructor
    · refine ⟨Nat.le_add_right pos n, (xs.drop pos)[n], ?_, hhit⟩
      rw [← List.getElem?_drop, List.getElem?_eq_getElem hlt]
    · intro j hj
      obtain ⟨hle, x, hx, hxhit⟩ := hj
      obtain ⟨k, rfl⟩ := Nat.exists_eq_add_of_le hle
      by_contra hlow
      rw [← List.getElem?_drop] at hx
      obtain ⟨hk, rfl⟩ := List.getElem?_eq_some_iff.mp hx
      exact hbefore k (by omega) hxhit
  | none =>
    have hnone := List.findIdx?_eq_none_iff.mp (Option.map_eq_none_iff.mp hfound)
    apply Set.eq_empty_of_forall_notMem
    intro j hj
    obtain ⟨hle, x, hx, hxhit⟩ := hj
    obtain ⟨k, rfl⟩ := Nat.exists_eq_add_of_le hle
    rw [← List.getElem?_drop] at hx
    rw [hnone x (List.mem_of_getElem? hx)] at hxhit
    cases hxhit

structure Kept (hit : α → Bool) (xs : List α) (known : Option Recall) : Prop where
  sound : Sound hit xs known
  asked_le : ∀ m ∈ known, m.asked ≤ xs.length

theorem kept_none (hit : α → Bool) (xs : List α) : Kept hit xs none := by
  constructor <;> intro m hm <;> cases hm

theorem Kept.found_lt (h : Kept hit xs known) {m : Recall} (hm : known = some m)
    (hi : m.found = some i) : i < xs.length := by
  rw [h.sound m hm] at hi
  obtain ⟨n, hn, rfl⟩ := Option.map_eq_some_iff.mp hi
  have hlt := (List.findIdx?_eq_some_iff_getElem.mp hn).1
  rw [List.length_drop] at hlt
  omega

/-- One answer is that of a search which knows nothing, and what is known after it is true again. -/
theorem ask_eq (h : Kept hit xs known) (hpos : pos ≤ xs.length) :
    ∃ known', ask hit xs known pos = some (search hit pos (xs.drop pos), known') ∧
      Kept hit xs known' := by
  obtain ⟨hfound, hsound⟩ := sound_renew h.sound pos
  refine ⟨some (renew hit known pos (xs.drop pos)), ?_, hsound, ?_⟩
  · rw [ask, if_pos (.inr hpos), ← hfound]
  · intro m hm
    obtain rfl := Option.some.inj hm
    unfold renew
    split
    · rename_i m hm
      exact h.asked_le m (Option.filter_eq_some_iff.mp hm).1
    · exact hpos

theorem askAll_eq (h : Kept hit xs known) (hqs : ∀ pos ∈ qs, pos ≤ xs.length) :
    askAll (ask hit xs) known qs = some (qs.map fun pos ↦ search hit pos (xs.drop pos)) := by
  induction qs generalizing known with
  | nil => rfl
  | cons pos qs ih =>
    obtain ⟨hpos, hqs⟩ := List.forall_mem_cons.mp hqs
    obtain ⟨known', hask, hkept⟩ := ask_eq h hpos
    simp only [askAll, hask, Option.bind_eq_bind, Option.bind_some, ih hkept hqs]
    rfl

namespace Cursor

def ofRecall? : Option Recall → Cursor
  | none => {}
  | some m => ⟨.ofNat 64 m.asked, m.found.map (.ofNat 64)⟩

theorem toNat_ofNat_of_le (hxs : xs.length < Nat.pow 2 64) (hi : i ≤ xs.length) :
    (BitVec.ofNat 64 i).toNat = i := Nat.mod_eq_of_lt (Nat.lt_of_le_of_lt hi hxs)

/-- A search that is made finds in words what it finds in numbers. -/
theorem ask_of_not_covers {m : Cursor} (hxs : xs.length < Nat.pow 2 64) (hpos : pos ≤ xs.length)
    (hm : ¬(m.asked ≤ .ofNat 64 pos ∧ m.found.all (.ofNat 64 pos ≤ ·))) :
    m.ask hit xs (.ofNat 64 pos) = some ((search hit pos (xs.drop pos)).map (.ofNat 64),
      ofRecall? (some ⟨pos, search hit pos (xs.drop pos)⟩)) := by
  have hword := toNat_ofNat_of_le hxs hpos
  rw [ask, if_neg hm, hword, if_pos hpos, search]
  cases hfound : (xs.drop pos).findIdx? hit with
  | none => rfl
  | some n =>
    have hlt := (List.findIdx?_eq_some_iff_getElem.mp hfound).1
    rw [List.length_drop] at hlt
    have hle : pos + n ≤ xs.length := by omega
    have hfits : (BitVec.ofNat 64 pos).uaddOverflow (.ofNat 64 n) = false := by
      rw [BitVec.uaddOverflow, hword, toNat_ofNat_of_le hxs (by omega)]
      exact decide_eq_false (Nat.not_le_of_lt (Nat.lt_of_le_of_lt hle hxs))
    simp only [hfits, Bool.false_eq_true, if_false, ← BitVec.ofNat_add]
    rfl

theorem covers_iff (h : Kept hit xs known) (hxs : xs.length < Nat.pow 2 64)
    (hpos : pos ≤ xs.length) {m : Recall} (hm : known = some m) :
    ((ofRecall? (some m)).asked ≤ .ofNat 64 pos ∧
      (ofRecall? (some m)).found.all (.ofNat 64 pos ≤ ·)) ↔ m.covers pos := by
  have hasked := toNat_ofNat_of_le hxs (h.asked_le m hm)
  have hword := toNat_ofNat_of_le hxs hpos
  rw [covers, Bool.and_eq_true, decide_eq_true_iff, ofRecall?, BitVec.le_def, hasked, hword]
  refine and_congr_right fun _ ↦ ?_
  cases hfound : m.found with
  | none => rfl
  | some i =>
    have hi := toNat_ofNat_of_le hxs (Nat.le_of_lt (h.found_lt hm hfound))
    simp only [Option.map_some, Option.all_some, BitVec.le_def, hword, hi]

/-- What the greatest word says before the first search is true of the end of every list. -/
theorem ask_start (hxs : xs.length < Nat.pow 2 64) (hpos : pos ≤ xs.length) :
    ({} : Cursor).ask hit xs (.ofNat 64 pos) = some ((search hit pos (xs.drop pos)).map (.ofNat 64),
      ofRecall? (some ⟨pos, search hit pos (xs.drop pos)⟩)) := by
  by_cases hcovers : BitVec.allOnes 64 ≤ .ofNat 64 pos
  · have hlast := BitVec.allOnes_le_iff.mp hcovers
    have hend : xs.length ≤ pos := by
      have hword := toNat_ofNat_of_le hxs hpos
      rw [hlast, BitVec.toNat_allOnes] at hword
      have hfits : xs.length < 2 ^ 64 := hxs
      omega
    rw [ask, if_pos ⟨hcovers, rfl⟩, List.drop_of_length_le hend]
    simp only [ofRecall?, hlast]
    rfl
  · exact ask_of_not_covers hxs hpos fun h ↦ hcovers h.1

theorem ask_eq (h : Kept hit xs known) (hxs : xs.length < Nat.pow 2 64) (hpos : pos ≤ xs.length) :
    (ofRecall? known).ask hit xs (.ofNat 64 pos) =
      (Recall.ask hit xs known pos).map fun x ↦ (x.1.map (.ofNat 64), ofRecall? x.2) := by
  rw [Recall.ask, if_pos (.inr hpos)]
  unfold renew
  cases known with
  | none => exact ask_start hxs hpos
  | some m =>
    rw [Option.filter_some]
    by_cases hcovers : m.covers pos
    · rw [ask, if_pos ((covers_iff h hxs hpos rfl).mpr hcovers), if_pos hcovers]
      rfl
    · rw [ask_of_not_covers hxs hpos (mt (covers_iff h hxs hpos rfl).mp hcovers), if_neg hcovers]
      rfl

theorem askAll_eq (h : Kept hit xs known) (hxs : xs.length < Nat.pow 2 64)
    (hqs : ∀ pos ∈ qs, pos ≤ xs.length) :
    askAll (ask hit xs) (ofRecall? known) (qs.map (.ofNat 64)) =
      (MarkupText.askAll (Recall.ask hit xs) known qs).map (·.map (·.map (.ofNat 64))) := by
  induction qs generalizing known with
  | nil => rfl
  | cons pos qs ih =>
    obtain ⟨hpos, hqs⟩ := List.forall_mem_cons.mp hqs
    obtain ⟨known', hask, hkept⟩ := Recall.ask_eq h hpos
    have hword := ask_eq h hxs hpos
    rw [hask] at hword
    simp only [List.map_cons, askAll, hask, hword, Option.map_some, Option.bind_eq_bind,
      Option.bind_some, ih hkept hqs]
    cases MarkupText.askAll (Recall.ask hit xs) known' qs <;> rfl

end Cursor

/-- Whatever has been asked before, further on or further back, what a search remembers gives the
first hit from the position that is asked now, also where it remembers words. -/
theorem askAll_isFirst (hit : α → Bool) (xs : List α) (qs : List Nat)
    (hqs : ∀ pos ∈ qs, pos ≤ xs.length) :
    ∃ founds, askAll (ask hit xs) none qs = some founds ∧
      List.Forall₂ (IsFirst hit xs) qs founds ∧
      (xs.length < Nat.pow 2 64 → askAll (Cursor.ask hit xs) {} (qs.map (.ofNat 64)) =
        some (founds.map (·.map (.ofNat 64)))) := by
  have hanswers := askAll_eq (kept_none hit xs) hqs
  refine ⟨_, hanswers, ?_, ?_⟩
  · rw [List.forall₂_map_right_iff]
    exact List.forall₂_same.mpr fun pos _ ↦ isFirst_search hit xs pos
  · intro hxs
    have hwords := Cursor.askAll_eq (kept_none hit xs) hxs hqs
    rwa [hanswers] at hwords

theorem askAll_isFirst_backward :
    let hit : UInt8 → Bool := fun b ↦ b == '<'.toUInt8 || b == '&'.toUInt8
    let bytes := "a<b&c".toList.map Char.toUInt8
    (∀ pos ∈ [4, 2, 1, 0, 5], pos ≤ bytes.length) ∧
      List.Forall₂ (IsFirst hit bytes) [4, 2, 1, 0, 5] [none, some 3, some 1, some 1, none] ∧
      askAll (Cursor.ask hit bytes) {} [4, 2, 1, 0, 5] =
        some [none, some 3, some 1, some 1, none] := by
  intro hit bytes
  have hqs : ∀ pos ∈ [4, 2, 1, 0, 5], pos ≤ bytes.length := by decide
  obtain ⟨founds, hfounds, hfirst, hwords⟩ := askAll_isFirst hit bytes [4, 2, 1, 0, 5] hqs
  obtain rfl : [none, some 3, some 1, some 1, none] = founds := Option.some.inj hfounds
  exact ⟨hqs, hfirst, hwords (by decide)⟩

end Recall

end MarkupText
