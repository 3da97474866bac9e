import MarkupText.Markup.Lexeme
import MarkupText.Proofs.Slices

namespace MarkupText

def Contiguous (start : Nat) : List Token → Prop
  | [] => True
  | t :: ts => t.offset = start ∧ t.text ≠ [] ∧ Contiguous t.stop ts

theorem flatMap_text_tokensFrom (raw : Option Text) (s : TagSearch) (pos offset : Nat)
    (cs : Text) : (tokensFrom raw s pos offset cs).flatMap Token.text = cs := by
  fun_induction tokensFrom raw s pos offset cs with
  | case1 => rfl
  | case2 raw s pos offset c cs lexeme s' hread text ih =>
    rw [List.flatMap_cons, ih, List.cons_append, List.take_append_drop]

theorem contiguous_tokensFrom (raw : Option Text) (s : TagSearch) (pos offset : Nat)
    (cs : Text) : Contiguous offset (tokensFrom raw s pos offset cs) := by
  fun_induction tokensFrom raw s pos offset cs with
  | case1 => trivial
  | case2 raw s pos offset c cs lexeme s' hread text ih =>
    exact ⟨rfl, List.cons_ne_nil _ _, ih⟩

/-- Nothing of the markup is lost between the tokens. -/
theorem flatMap_text_tokens (m : Text) : (tokens m).flatMap Token.text = m :=
  flatMap_text_tokensFrom none {} 0 0 m

theorem contiguous_tokens (m : Text) : Contiguous 0 (tokens m) :=
  contiguous_tokensFrom none {} 0 0 m

namespace Contiguous

variable {start : Nat} {before after ts : List Token} {t u : Token}

theorem of_append (h : Contiguous start (before ++ after)) :
    Contiguous (start + Text.byteLength (before.flatMap Token.text)) after := by
  induction before generalizing start with
  | nil => exact h
  | cons t before ih =>
    obtain ⟨rfl, -, h⟩ := h
    simpa only [List.flatMap_cons, Text.byteLength_append, Token.stop, Token.length,
      Nat.add_assoc] using ih h

theorem of_append_left (h : Contiguous start (before ++ after)) : Contiguous start before := by
  induction before generalizing start with
  | nil => trivial
  | cons t before ih => exact ⟨h.1, h.2.1, ih h.2.2⟩

theorem offset_eq (h : Contiguous start (before ++ t :: after)) :
    t.offset = start + Text.byteLength (before.flatMap Token.text) := h.of_append.1

theorem text_ne_nil (h : Contiguous start ts) (ht : t ∈ ts) : t.text ≠ [] := by
  obtain ⟨before, after, rfl⟩ := List.append_of_mem ht
  exact h.of_append.2.1

theorem offset_lt_stop (h : Contiguous start ts) (ht : t ∈ ts) : t.offset < t.stop := by
  have hpos := Text.byteLength_pos (h.text_ne_nil ht)
  simp only [Token.stop, Token.length]
  omega

theorem start_le_offset (h : Contiguous start ts) (ht : t ∈ ts) : start ≤ t.offset := by
  obtain ⟨before, after, rfl⟩ := List.append_of_mem ht
  rw [h.offset_eq]
  exact Nat.le_add_right _ _

theorem stop_le (h : Contiguous start ts) (ht : t ∈ ts) :
    t.stop ≤ start + Text.byteLength (ts.flatMap Token.text) := by
  obtain ⟨before, after, rfl⟩ := List.append_of_mem ht
  rw [Token.stop, Token.length, h.offset_eq, List.flatMap_append, List.flatMap_cons,
    Text.byteLength_append, Text.byteLength_append]
  omega

theorem pairwise (h : Contiguous start ts) : ts.Pairwise fun t u ↦ t.stop ≤ u.offset := by
  induction ts generalizing start with
  | nil => exact .nil
  | cons t ts ih =>
    obtain ⟨-, -, h⟩ := h
    exact List.pairwise_cons.mpr ⟨fun u hu ↦ h.start_le_offset hu, ih h⟩

end Contiguous

theorem eq_nil_of_byteLength {ts : List Token} (hts : ∀ t ∈ ts, t.text ≠ [])
    (hlen : Text.byteLength (ts.flatMap Token.text) = 0) : ts = [] := by
  cases ts with
  | nil => rfl
  | cons t ts =>
    have hpos := Text.byteLength_pos (hts t List.mem_cons_self)
    simp only [List.flatMap_cons, Text.byteLength_append] at hlen
    omega

theorem Contiguous.eq_of_byteLength {start : Nat} {as bs cs ds : List Token}
    (h : Contiguous start (as ++ bs)) (heq : as ++ bs = cs ++ ds)
    (hlen : Text.byteLength (as.flatMap Token.text) = Text.byteLength (cs.flatMap Token.text)) :
    as = cs := by
  rcases List.append_eq_append_iff.mp heq with ⟨xs, rfl, rfl⟩ | ⟨xs, rfl, rfl⟩
  · have hxs : xs = [] := by
      refine eq_nil_of_byteLength (fun x hx ↦ h.text_ne_nil (by simp [hx])) ?_
      simp only [List.flatMap_append, Text.byteLength_append] at hlen
      omega
    rw [hxs, List.append_nil]
  · have hxs : xs = [] := by
      refine eq_nil_of_byteLength (fun x hx ↦ h.text_ne_nil (by simp [hx])) ?_
      simp only [List.flatMap_append, Text.byteLength_append] at hlen
      omega
    rw [hxs, List.append_nil]

theorem slice?_span {m : Text} {t : Token} (ht : t ∈ tokens m) :
    Text.slice? m t.span = some t.text := by
  obtain ⟨before, after, hts⟩ := List.append_of_mem ht
  have hoffset := (hts ▸ contiguous_tokens m).offset_eq
  have htext := flatMap_text_tokens m
  rw [hts, List.flatMap_append, List.flatMap_cons] at htext
  refine Text.slice?_eq_some_iff.mpr ⟨_, _, htext.symm, ?_, ?_⟩
  · simpa [Token.span] using hoffset
  · simp only [Token.span, Token.stop, Token.length]
    omega

theorem exists_read_of_mem {raw : Option Text} {s : TagSearch} {pos offset : Nat} {cs : Text}
    {t : Token} (ht : t ∈ tokensFrom raw s pos offset cs) :
    ∃ raw s pos c cs, t.kind = (Lexeme.read raw s pos c cs).1.kind ∧
      t.text = c :: cs.take (Lexeme.read raw s pos c cs).1.more := by
  fun_induction tokensFrom raw s pos offset cs with
  | case1 => cases ht
  | case2 raw s pos offset c cs lexeme s' hread text ih =>
    rcases List.mem_cons.mp ht with rfl | ht
    · exact ⟨raw, s, pos, c, cs, by rw [hread], by rw [hread]⟩
    · exact ih ht

end MarkupText
