import MarkupText.Proofs.Excerpts
import MarkupText.Proofs.Trimming

namespace MarkupText

open Text

def Token.shift (n : Nat) (t : Token) : Token := { t with offset := n + t.offset }

theorem take_length_takeWhile (p : Char → Bool) (cs : Text) :
    cs.take (cs.takeWhile p).length = cs.takeWhile p :=
  (List.prefix_iff_eq_take.mp (List.takeWhile_prefix p)).symm

theorem drop_length_takeWhile (p : Char → Bool) (cs : Text) :
    cs.drop (cs.takeWhile p).length = cs.dropWhile p := by
  have h := congrArg (List.drop (cs.takeWhile p).length)
    (List.takeWhile_append_dropWhile (p := p) (l := cs))
  rw [List.drop_left] at h
  exact h.symm

/-- A run of text that is begun late ends where it did. -/
theorem Lexeme.ofText_drop {c d : Char} {cs xs ys : Text}
    (h : cs.take (ofText c cs).more = xs ++ d :: ys) : d ≠ '<' ∧ d ≠ '&' ∧
      ofText d (ys ++ cs.drop (ofText c cs).more) = ⟨(ofText c cs).kind, ys.length, none⟩ := by
  generalize hp : (fun e ↦ e != '<' && e != '&' && isBlank e == isBlank c) = p
  have htext : ofText c cs =
      ⟨if isBlank c then .blank else .text, (cs.takeWhile p).length, none⟩ := by
    rw [ofText, hp]
  rw [htext] at h ⊢
  rw [take_length_takeWhile] at h
  rw [drop_length_takeWhile]
  have hrun : ∀ e ∈ xs ++ d :: ys, p e := by
    intro e he
    rw [← h] at he
    exact List.all_eq_true.mp List.all_takeWhile e he
  have hd := hrun d (by simp)
  rw [← hp] at hd
  simp only [Bool.and_eq_true, bne_iff_ne, ne_eq, beq_iff_eq] at hd
  obtain ⟨⟨hlt, hand⟩, hblank⟩ := hd
  have hrest : (cs.dropWhile p).takeWhile p = [] := by
    cases hdrop : cs.dropWhile p with
    | nil => rfl
    | cons e es => exact List.takeWhile_cons_of_neg (by simp [head_dropWhile hdrop])
  have hys : (ys ++ cs.dropWhile p).takeWhile p = ys := by
    rw [List.takeWhile_append_of_pos fun e he ↦ hrun e (by simp [he]), hrest, List.append_nil]
  refine ⟨hlt, hand, ?_⟩
  simp only [ofText, hblank, hp, hys]

namespace PlainLexer

variable {cs xs ys : Text} {c : Char} {givenUp : Bool} {raw : Option Text} {offset : Nat}
  {as bs after : List Token} {t : Token}

theorem tokensFrom_shift (raw : Option Text) (givenUp : Bool) (n offset : Nat) (cs : Text) :
    tokensFrom raw givenUp (n + offset) cs =
      (tokensFrom raw givenUp offset cs).map (Token.shift n) := by
  fun_induction tokensFrom raw givenUp offset cs with
  | case1 => rw [tokensFrom, List.map_nil]
  | case2 raw givenUp offset c cs lexeme givenUp' hread text =>
    rename_i ih
    rw [tokensFrom_cons, hread, List.map_cons, ← ih, ← Nat.add_assoc]
    rfl

/-- The lexer goes on from any token as it would if the text began there. -/
theorem exists_state (hraw : ∀ name ∈ raw, name ∈ rawElements)
    (h : tokensFrom raw givenUp offset cs = as ++ bs) :
    ∃ raw' givenUp' offset', (∀ name ∈ raw', name ∈ rawElements) ∧
      tokensFrom raw' givenUp' offset' (bs.flatMap Token.text) = bs := by
  induction as generalizing raw givenUp offset cs with
  | nil =>
    refine ⟨raw, givenUp, offset, hraw, ?_⟩
    have htext := flatMap_text_tokensFrom raw givenUp offset cs
    rw [h, List.nil_append] at htext
    rw [htext, h, List.nil_append]
  | cons u as ih =>
    obtain ⟨c, cs, rfl, -, hrest⟩ := exists_cons_of_tokensFrom h
    exact ih (read_raw raw givenUp c cs) hrest.symm

/-- What is no raw text is read alike inside a raw element and outside. -/
theorem read_none (h : (read raw givenUp c cs).1.kind ≠ .rawText) :
    read none givenUp c cs = read raw givenUp c cs := by
  unfold read at h ⊢
  split at h
  · rfl
  · exact absurd rfl h

/-- The lexer may start anew at any character that is shown as it stands and at a reference. -/
theorem tokensFrom_restart (h : tokensFrom raw givenUp offset cs = t :: after)
    (htext : t.text = xs ++ c :: ys)
    (hkind : t.kind.isCopied ∨ xs = [] ∧ ∃ form, t.kind = .reference form) :
    tokensFrom none givenUp (offset + byteLength xs) (c :: (ys ++ after.flatMap Token.text)) =
      ⟨t.kind, c :: ys, offset + byteLength xs⟩ :: after := by
  obtain ⟨c₀, cs, rfl, rfl, hafter⟩ := exists_cons_of_tokensFrom h
  have hrest := congrArg (List.flatMap Token.text) hafter
  rw [flatMap_text_tokensFrom] at hrest
  have hnone : (read raw givenUp c₀ cs).1.kind ≠ .rawText := by
    intro hrawText
    rcases hkind with hcopied | ⟨-, form, hform⟩
    · exact absurd (hrawText ▸ hcopied : Kind.rawText.isCopied) nofun
    · cases hform.symm.trans hrawText
  cases xs with
  | nil =>
    obtain ⟨rfl, htake⟩ := List.cons.inj htext
    rw [byteLength_nil, Nat.add_zero, hrest, ← htake, List.take_append_drop, tokensFrom_cons,
      read_none hnone, hafter]
    rfl
  | cons x xs =>
    obtain ⟨rfl, htake⟩ := List.cons.inj htext
    have hcopied := hkind.resolve_right fun h ↦ List.cons_ne_nil _ _ h.1
    rcases read_isCopied hcopied with hstray | ⟨rfl, hlt, hand, heq⟩
    · rw [hstray] at htake
      simp [Lexeme.stray] at htake
    · have htake' : cs.take (Lexeme.ofText c₀ cs).more = xs ++ c :: ys := heq ▸ htake
      obtain ⟨hlt', hand', hlate⟩ := Lexeme.ofText_drop htake'
      rw [read_text hlt hand] at hafter hrest ⊢
      rw [hrest, tokensFrom_cons, read_text hlt' hand', hlate, hafter]
      simp only [Lexeme.token, List.take_left, List.drop_left, htake', byteLength_cons,
        byteLength_append, Nat.add_assoc]
      rfl

end PlainLexer

end MarkupText
