import MarkupText.Proofs.Copies
import MarkupText.Proofs.Visibility

namespace MarkupText

open Text

/-- The character `c` that follows the clean text `front` comes from the bytes `r` of the markup,
where it has a copy in a token or is written by a reference. -/
inductive ComesFrom (m front : Text) (c : Char) : Span → Prop
  | copied {before : List Token} {t : Token} {after : List Token} {xs ys : Text} :
    tokens m = before ++ t :: after → t.kind.isCopied → visibleText? before t = some t.text →
      t.text = xs ++ c :: ys → front = cleanText (events before) ++ xs →
        ComesFrom m front c
          ⟨t.offset + byteLength xs, t.offset + byteLength xs + c.utf8Size⟩
  | decoded {before : List Token} {t : Token} {after : List Token} {form : Reference} :
    tokens m = before ++ t :: after → t.kind = .reference form → form.char? t.text = some c →
      visibleText? before t = some [c] → front = cleanText (events before) →
        ComesFrom m front c t.span

variable {m front back : Text} {before after : List Token} {t : Token} {c : Char} {r : Span}
  {text : Text}

theorem cleanText_append (es es' : List (Event Fragment)) :
    cleanText (es ++ es') = cleanText es ++ cleanText es' := by
  rw [cleanText, cleanText, cleanText, List.filterMap_append, List.flatMap_append]

theorem events_append (as bs : List Token) :
    events (as ++ bs) = events as ++ eventsFrom (regionAfter as) bs := eventsFrom_append {} as bs

theorem Token.cleanText_event (g : Region) (t : Token) : cleanText (t.event? g).toList =
    if g.isHidden then [] else t.shownText?.getD [] := by
  unfold event?
  by_cases hboundary : t.isBoundary
  · rw [if_pos hboundary, shownText?_of_isBoundary hboundary, Option.getD_none, ite_self]
    split <;> rfl
  · rw [if_neg hboundary]
    split
    · rfl
    · cases t.shownText? <;> simp [cleanText, Event.content?]

theorem cleanText_event? (before : List Token) (t : Token) :
    cleanText (t.event? (regionAfter before)).toList = (visibleText? before t).getD [] := by
  rw [t.cleanText_event, isHidden_regionAfter, visibleText?]
  split <;> rfl

theorem regionAfter_append (past ts : List Token) :
    regionAfter (past ++ ts) = ts.foldl (fun g t ↦ g.after t.kind) (regionAfter past) :=
  List.foldl_append

theorem cleanText_concat (past ts : List Token) (t : Token) :
    cleanText (eventsFrom (regionAfter past) (ts ++ [t])) =
      cleanText (eventsFrom (regionAfter past) ts) ++ (visibleText? (past ++ ts) t).getD [] := by
  rw [eventsFrom_append, cleanText_append, ← regionAfter_append, eventsFrom, eventsFrom,
    List.append_nil, cleanText_event?]

/-- Each character of the clean text is in what one token shows. -/
theorem exists_token_of_character (past : List Token) {ts : List Token}
    (h : cleanText (eventsFrom (regionAfter past) ts) = front ++ c :: back) :
    ∃ before t after text xs ys, ts = before ++ t :: after ∧
      visibleText? (past ++ before) t = some text ∧ text = xs ++ c :: ys ∧
      front = cleanText (eventsFrom (regionAfter past) before) ++ xs := by
  induction ts using List.reverseRecOn generalizing back with
  | nil => simp [eventsFrom, cleanText] at h
  | append_singleton ts t ih =>
    rw [cleanText_concat] at h
    rcases List.append_eq_append_iff.mp h with ⟨xs, rfl, htext⟩ | ⟨zs, hfront, hzs⟩
    · cases hvisible : visibleText? (past ++ ts) t with
      | none => simp [hvisible] at htext
      | some text =>
        rw [hvisible, Option.getD_some] at htext
        exact ⟨ts, t, [], text, xs, back, rfl, hvisible, htext, rfl⟩
    · cases zs with
      | nil =>
        cases hvisible : visibleText? (past ++ ts) t with
        | none => simp [hvisible] at hzs
        | some text =>
          rw [hvisible, Option.getD_some, List.nil_append] at hzs
          refine ⟨ts, t, [], text, [], back, rfl, hvisible, hzs.symm, ?_⟩
          rw [hfront, List.append_nil, List.append_nil]
      | cons z zs =>
        obtain ⟨rfl, -⟩ := List.cons.inj hzs
        obtain ⟨before, u, after, text, xs, ys, rfl, htext⟩ := ih hfront
        exact ⟨before, u, after ++ [t], text, xs, ys, by simp, htext⟩

theorem placeFrom_append (offset : Nat) (es es' : List (Event Fragment)) :
    placeFrom offset (es ++ es') =
      placeFrom offset es ++ placeFrom (offset + byteLength (cleanText es)) es' := by
  induction es generalizing offset with
  | nil => rfl
  | cons e es ih =>
    cases e with
    | boundary => exact congrArg (Event.boundary :: ·) (ih offset)
    | content f =>
      simp only [List.cons_append, placeFrom, ih, cleanText_content, byteLength_append,
        Nat.add_assoc]

theorem event?_of_visible (htext : visibleText? before t = some text) :
    t.event? (regionAfter before) = some (.content ⟨t.span, text, inTitle before⟩) := by
  have h := contents_event? before t
  rw [htext] at h
  cases he : t.event? (regionAfter before) with
  | none => simp [he] at h
  | some e =>
    cases e with
    | boundary => simp [he] at h
    | content f => simpa [he] using h

theorem fragmentRuns_append (hts : tokens m = before ++ after) :
    fragmentRuns m = contents (placeFrom 0 (events before)) ++
      contents (placeFrom (byteLength (cleanText (events before)))
        (eventsFrom (regionAfter before) after)) := by
  rw [fragmentRuns, hts, events_append, placeFrom_append, contents_append, Nat.zero_add]

/-- The run of a visible token has its place after what the tokens before it show. -/
theorem mem_fragmentRuns (hts : tokens m = before ++ t :: after)
    (htext : visibleText? before t = some text) :
    ⟨t.span, ⟨byteLength (cleanText (events before)),
      byteLength (cleanText (events before)) + byteLength text⟩, inTitle before⟩ ∈
        fragmentRuns m := by
  rw [fragmentRuns_append hts, eventsFrom, event?_of_visible htext]
  exact List.mem_append_right _ List.mem_cons_self

theorem Token.shownText?_of_visible (h : visibleText? before t = some text) :
    t.shownText? = some text := by
  unfold visibleText? at h
  split at h
  · cases h
  · exact h

/-- What a token shows is looked up in its run. -/
theorem offsetIn_of_visible {side : Side} {offset : Nat} {clean : Span}
    (hts : tokens m = before ++ t :: after) (htext : visibleText? before t = some text)
    (hclean : clean = ⟨byteLength (cleanText (events before)),
      byteLength (cleanText (events before)) + byteLength text⟩)
    (hoffset : clean.Holds side offset) :
    offsetIn side offset (merge (fragmentRuns m)) =
      Run.sourceAt ⟨t.span, clean, inTitle before⟩ offset := by
  have htiling := tiling_fragmentRuns m
  have hr := mem_fragmentRuns hts htext
  rw [← hclean] at hr
  rw [offsetIn_merge htiling, htiling.offsetIn_of_mem hr hoffset]

/-- The lookups lead from a character to the markup that it comes from. -/
theorem ComesFrom.offsetIn_eq (h : ComesFrom m front c r) :
    offsetIn .left (byteLength front) (merge (fragmentRuns m)) = r.start ∧
      offsetIn .right (byteLength front + c.utf8Size) (merge (fragmentRuns m)) = r.stop := by
  have hsize := c.utf8Size_pos
  cases h with
  | @copied before t after xs ys hts hcopied hvisible htext hfront =>
    have hle : t.span.start ≤ t.span.stop := Nat.le_add_right _ _
    have hlen := congrArg byteLength htext
    rw [byteLength_append, byteLength_cons] at hlen
    rw [hfront, byteLength_append]
    obtain ⟨clean, hclean⟩ : ∃ clean : Span, clean = ⟨byteLength (cleanText (events before)),
        byteLength (cleanText (events before)) + byteLength t.text⟩ := ⟨_, rfl⟩
    have hlit : Run.isLiteral ⟨t.span, clean, inTitle before⟩ := by
      rw [Run.isLiteral_iff, hclean]
      simp only [Span.length, Token.span, Token.stop, Token.length]
      omega
    have hlow : clean.Holds .left (byteLength (cleanText (events before)) + byteLength xs) := by
      rw [hclean]
      constructor <;> simp only <;> omega
    have hhigh : clean.Holds .right
        (byteLength (cleanText (events before)) + byteLength xs + c.utf8Size) := by
      rw [hclean]
      constructor <;> simp only <;> omega
    rw [offsetIn_of_visible hts hvisible hclean hlow, offsetIn_of_visible hts hvisible hclean hhigh,
      Run.sourceAt_literal hlit hle (Nat.le_of_lt hlow.2), Run.sourceAt_literal hlit hle hhigh.2,
      hclean]
    simp only [Token.span]
    omega
  | @decoded before t after form hts hkind hchar hvisible hfront =>
    have ht : t ∈ tokens m := hts ▸ List.mem_append_right before List.mem_cons_self
    have hlonger := utf8Size_lt_length ht hkind hchar
    obtain ⟨clean, hclean⟩ : ∃ clean : Span, clean = ⟨byteLength (cleanText (events before)),
        byteLength (cleanText (events before)) + byteLength [c]⟩ := ⟨_, rfl⟩
    have hlen : clean.stop = byteLength (cleanText (events before)) + c.utf8Size := by
      rw [hclean]
      rfl
    have hstart : clean.start = byteLength (cleanText (events before)) := by rw [hclean]
    have hlit : Run.isLiteral ⟨t.span, clean, inTitle before⟩ = false := by
      refine decide_eq_false ?_
      simp only [Span.length, Token.span, Token.stop]
      omega
    have hlow : clean.Holds .left (byteLength front) := by
      rw [hfront]
      constructor <;> omega
    have hhigh : clean.Holds .right (byteLength front + c.utf8Size) := by
      rw [hfront]
      constructor <;> omega
    rw [offsetIn_of_visible hts hvisible hclean hlow, offsetIn_of_visible hts hvisible hclean hhigh,
      Run.sourceAt_decoded hlit hlow.1 hlow.2, Run.sourceAt_of_stop_le (by rw [hfront, ← hlen])]
    exact ⟨rfl, rfl⟩

/-- Each character comes from some markup. -/
theorem exists_comesFrom (h : cleanText (events (tokens m)) = front ++ c :: back) :
    ∃ r, ComesFrom m front c r ∧
      offsetIn .left (byteLength front) (merge (fragmentRuns m)) = r.start ∧
      offsetIn .right (byteLength front + c.utf8Size) (merge (fragmentRuns m)) = r.stop := by
  suffices hr : ∃ r, ComesFrom m front c r from hr.imp fun r hr ↦ ⟨hr, hr.offsetIn_eq⟩
  obtain ⟨before, t, after, text, xs, ys, hts, hvisible, htext, hfront⟩ :=
    exists_token_of_character [] h
  rcases Token.shownText?_eq_some (Token.shownText?_of_visible hvisible) with
    ⟨hcopied, rfl⟩ | ⟨form, d, hkind, hd, rfl⟩
  · exact ⟨_, .copied hts hcopied hvisible htext hfront⟩
  · obtain ⟨rfl, heq⟩ := List.append_eq_singleton_iff.mp htext.symm |>.resolve_right (by simp)
    obtain ⟨rfl, rfl⟩ := List.cons.inj heq
    exact ⟨_, .decoded hts hkind hd hvisible (hfront.trans (List.append_nil _))⟩

/-- What a character comes from is a part of the markup and not empty. -/
theorem ComesFrom.exists_slice (h : ComesFrom m front c r) :
    r.start < r.stop ∧ ∃ cs, slice? m r = some cs := by
  have hsize := c.utf8Size_pos
  cases h with
  | @copied before t after xs ys hts hcopied hvisible htext hfront =>
    have ht : t ∈ tokens m := hts ▸ List.mem_append_right before List.mem_cons_self
    have hspan := slice?_span ht
    rw [htext, List.append_cons] at hspan
    exact ⟨Nat.lt_add_of_pos_right hsize, [c], slice?_slice hspan⟩
  | @decoded before t after form hts hkind hchar hvisible hfront =>
    have ht : t ∈ tokens m := hts ▸ List.mem_append_right before List.mem_cons_self
    exact ⟨(contiguous_tokens m).offset_lt_stop ht, t.text, slice?_span ht⟩

end MarkupText
