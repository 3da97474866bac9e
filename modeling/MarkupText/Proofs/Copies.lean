import MarkupText.Proofs.Placement
import MarkupText.Proofs.References

namespace MarkupText

def Kind.isCopied : Kind → Bool
  | .text | .blank | .stray => true
  | _ => false

theorem Token.shownText?_eq_some {t : Token} {text : Text} (h : t.shownText? = some text) :
    t.kind.isCopied ∧ text = t.text ∨
      ∃ form c, t.kind = .reference form ∧ form.char? t.text = some c ∧ text = [c] := by
  unfold Token.shownText? at h
  split at h
  · rename_i hkind
    exact .inl ⟨by rw [hkind]; rfl, (Option.some.inj h).symm⟩
  · rename_i hkind
    exact .inl ⟨by rw [hkind]; rfl, (Option.some.inj h).symm⟩
  · rename_i hkind
    exact .inl ⟨by rw [hkind]; rfl, (Option.some.inj h).symm⟩
  · rename_i form hkind
    obtain ⟨c, hc, rfl⟩ := Option.map_eq_some_iff.mp h
    exact .inr ⟨form, c, hkind, hc, rfl⟩
  · cases h

def rowSpan (before ts : List Token) : Span :=
  ⟨Text.byteLength (before.flatMap Token.text), Text.byteLength ((before ++ ts).flatMap Token.text)⟩

theorem slice?_rowSpan {m : Text} {before ts after : List Token}
    (h : tokens m = before ++ ts ++ after) :
    Text.slice? m (rowSpan before ts) = some (ts.flatMap Token.text) := by
  have htext := flatMap_text_tokens m
  rw [h, List.append_assoc, List.flatMap_append, List.flatMap_append] at htext
  refine Text.slice?_eq_some_iff.mpr ⟨_, _, htext.symm, rfl, ?_⟩
  simp only [rowSpan, List.flatMap_append, Text.byteLength_append]

theorem span_eq_rowSpan {m : Text} {before after : List Token} {t : Token}
    (h : tokens m = before ++ t :: after) : t.span = rowSpan before [t] := by
  have hoffset := (h ▸ contiguous_tokens m).offset_eq
  rw [Nat.zero_add] at hoffset
  simp only [Token.span, Token.stop, rowSpan, hoffset, List.flatMap_append,
    Text.byteLength_append, List.flatMap_singleton, Token.length]

namespace Run

/-- The run holds a row of tokens, each copied as it stands. -/
def Copies (m text : Text) (r : Run) : Prop :=
  ∃ before ts after, tokens m = before ++ ts ++ after ∧ ts ≠ [] ∧
    (∀ t ∈ ts, t.kind.isCopied) ∧ r.source = rowSpan before ts ∧
    Text.slice? text r.clean = some (ts.flatMap Token.text)

/-- The run holds the one character of a longer reference. -/
def Decodes (m text : Text) (r : Run) : Prop :=
  ∃ t ∈ tokens m, ∃ form c, t.kind = .reference form ∧ form.char? t.text = some c ∧
    c.utf8Size < t.length ∧ r.source = t.span ∧ Text.slice? text r.clean = some [c]

variable {m text : Text} {r s l : Run}

theorem Copies.slice? (h : r.Copies m text) :
    ∃ cs, Text.slice? m r.source = some cs ∧ Text.slice? text r.clean = some cs := by
  obtain ⟨before, ts, after, hts, -, -, hsource, hclean⟩ := h
  exact ⟨_, hsource ▸ slice?_rowSpan hts, hclean⟩

theorem Copies.isLiteral (h : r.Copies m text) : r.isLiteral := by
  obtain ⟨cs, hsource, hclean⟩ := h.slice?
  rw [isLiteral_iff, ← Text.byteLength_slice? hsource, Text.byteLength_slice? hclean]

theorem Decodes.isLiteral_eq_false (h : r.Decodes m text) : r.isLiteral = false := by
  obtain ⟨t, ht, form, c, -, -, hlt, hsource, hclean⟩ := h
  have hlen := Text.byteLength_slice? hclean
  have hlen' := Text.byteLength_slice? (hsource ▸ slice?_span ht)
  simp only [Text.byteLength_cons, Text.byteLength_nil] at hlen
  refine decide_eq_false ?_
  rw [← hlen, ← hlen']
  simp only [Token.length] at hlt
  omega

theorem Copies.extend (hr : r.Copies m text) (hs : s.Copies m text)
    (hl : r.extend? s = some l) : l.Copies m text := by
  obtain ⟨before, ts, after, hts, hne, hcopied, hsource, hclean⟩ := hr
  obtain ⟨before', us, after', hus, -, hcopied', hsource', hclean'⟩ := hs
  obtain ⟨⟨-, -, -, hmeet, hmeet'⟩, rfl⟩ := extend?_eq_some_iff.mp hl
  have hbefore : before ++ ts = before' := by
    rw [List.append_assoc before'] at hus
    refine Contiguous.eq_of_byteLength (hts ▸ contiguous_tokens m) (hts.symm.trans hus) ?_
    rw [hsource, hsource'] at hmeet
    exact hmeet
  subst hbefore
  refine ⟨before, ts ++ us, after', ?_, ?_, ?_, ?_, ?_⟩
  · rw [hus, List.append_assoc before]
  · exact List.append_ne_nil_of_left_ne_nil hne us
  · intro t ht
    exact (List.mem_append.mp ht).elim (hcopied t) (hcopied' t)
  · rw [hsource, hsource', rowSpan, rowSpan, rowSpan, List.append_assoc before]
  · rw [List.flatMap_append]
    exact Text.slice?_join hclean hclean' hmeet'

end Run

end MarkupText
