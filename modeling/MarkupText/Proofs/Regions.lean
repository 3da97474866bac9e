import MarkupText.Proofs.Origins

namespace MarkupText

variable {g g' : Region} {t : Token} {ts : List Token} {kind : Kind}

namespace Token

theorem shownText?_of_isCopied (h : t.kind.isCopied) : t.shownText? = some t.text := by
  unfold Kind.isCopied at h
  unfold shownText?
  split at h <;> simp_all

theorem shownText?_of_reference {form : Reference} {c : Char} (hkind : t.kind = .reference form)
    (hchar : form.char? t.text = some c) : t.shownText? = some [c] := by
  simp only [shownText?, hkind, hchar, Option.map_some]

theorem isCopied_of_boundary (h : t.event? g = some .boundary) : t.kind.isCopied = false := by
  unfold event? at h
  split at h
  · rename_i hboundary
    refine Bool.eq_false_iff.mpr fun hcopied ↦ ?_
    simpa [shownText?_of_isCopied hcopied] using shownText?_of_isBoundary hboundary
  · split at h
    · cases h
    · obtain ⟨text, -, hcontent⟩ := Option.map_eq_some_iff.mp h
      cases hcontent

end Token

theorem isHidden_of_visible {before : List Token} {text : Text}
    (h : visibleText? before t = some text) : (regionAfter before).isHidden = false := by
  rw [isHidden_regionAfter]
  unfold visibleText? at h
  split at h
  · cases h
  · rename_i hhides
    exact Bool.eq_false_iff.mpr hhides

theorem visibleText?_of_shown {before : List Token} (h : (regionAfter before).isHidden = false)
    (t : Token) : visibleText? before t = t.shownText? := by
  rw [isHidden_regionAfter] at h
  rw [visibleText?, h, if_neg Bool.false_ne_true]

theorem visibleText?_of_isCopied {before : List Token}
    (h : (regionAfter before).isHidden = false) (ht : t.kind.isCopied) :
    visibleText? before t = some t.text :=
  (visibleText?_of_shown h t).trans (Token.shownText?_of_isCopied ht)

theorem cleanText_of_visible {past : List Token} {text : Text}
    (h : visibleText? past t = some text) (rest : List Token) :
    cleanText (eventsFrom (regionAfter past) (t :: rest)) =
      text ++ cleanText (eventsFrom (regionAfter (past ++ [t])) rest) := by
  rw [eventsFrom, cleanText_append, cleanText_event?, h, Option.getD_some, regionAfter_concat]

theorem Region.after_of_shown (h : kind.isCopied ∨ ∃ form, kind = .reference form) (g : Region) :
    g.after kind = g := by
  rcases h with h | ⟨form, rfl⟩
  · cases kind with
    | text | blank | stray => rfl
    | _ => cases h
  · rfl

structure Region.Alike (g g' : Region) : Prop where
  inNoIndex : g.inNoIndex = g'.inNoIndex
  shown : (g.inHead && !g.inTitle) = false
  shown' : (g'.inHead && !g'.inTitle) = false

namespace Region.Alike

theorem isHidden_eq (h : Alike g g') : g.isHidden = g'.isHidden := by
  rw [isHidden, isHidden, h.shown, h.shown', h.inNoIndex]

/-- Only what ends a block can make a difference between such regions. -/
theorem after (h : Alike g g') (ht : t.event? g ≠ some .boundary) :
    Alike (g.after t.kind) (g'.after t.kind) := by
  have hedge (hboundary : t.isBoundary) : g.inNoIndex := by
    by_contra hnoIndex
    exact ht (by simp [Token.event?, hboundary, hnoIndex])
  obtain ⟨hnoIndex, hshown, hshown'⟩ := h
  cases hkind : t.kind with
  | noIndex edge => exact ⟨rfl, hshown, hshown'⟩
  | title edge =>
    have hin := hedge (by simp [Token.isBoundary, hkind])
    simp only [Region.after, hin, ← hnoIndex, if_true]
    exact ⟨hnoIndex, hshown, hshown'⟩
  | head edge =>
    have hin := hedge (by simp [Token.isBoundary, hkind])
    simp only [Region.after, hin, ← hnoIndex, if_true]
    exact ⟨hnoIndex, hshown, hshown'⟩
  | _ => exact ⟨hnoIndex, hshown, hshown'⟩

theorem cleanText_eq (h : Alike g g') (hts : .boundary ∉ eventsFrom g ts) :
    cleanText (eventsFrom g' ts) = cleanText (eventsFrom g ts) := by
  induction ts generalizing g g' with
  | nil => rfl
  | cons t ts ih =>
    rw [eventsFrom, List.mem_append, not_or] at hts
    obtain ⟨hhead, htail⟩ := hts
    rw [eventsFrom, eventsFrom, cleanText_append, cleanText_append, t.cleanText_event,
      t.cleanText_event, h.isHidden_eq, ih (h.after (fun he ↦ hhead (by simp [he]))) htail]

end Region.Alike

theorem alike_of_not_isHidden (h : g.isHidden = false) : g.Alike {} := by
  rw [Region.isHidden, Bool.or_eq_false_iff] at h
  exact ⟨h.1, h.2, rfl⟩

/-- A boundary among events is that of a token. -/
theorem exists_token_of_boundary (past : List Token)
    (h : .boundary ∈ eventsFrom (regionAfter past) ts) : ∃ before t after,
      ts = before ++ t :: after ∧ t.event? (regionAfter (past ++ before)) = some .boundary := by
  induction ts generalizing past with
  | nil => cases h
  | cons t ts ih =>
    rw [eventsFrom, List.mem_append] at h
    rcases h with h | h
    · exact ⟨[], t, ts, rfl, by simpa using h⟩
    · rw [← regionAfter_concat] at h
      obtain ⟨before, u, after, rfl, hu⟩ := ih (past ++ [t]) h
      exact ⟨t :: before, u, after, rfl, by simpa using hu⟩

end MarkupText
