import MarkupText.Proofs.Regions
import MarkupText.Proofs.Restarts

namespace MarkupText

open Text

theorem cleanText_shift (g : Region) (n : Nat) (ts : List Token) :
    cleanText (eventsFrom g (ts.map (Token.shift n))) = cleanText (eventsFrom g ts) := by
  induction ts generalizing g with
  | nil => rfl
  | cons t ts ih =>
    rw [List.map_cons, eventsFrom, eventsFrom, cleanText_append, cleanText_append,
      Token.cleanText_event, Token.cleanText_event, ih]
    rfl

/-- The token shows the character `c` by the part `ws` of its text. -/
inductive Token.Shows (t : Token) (c : Char) : Text → Text → Text → Prop
  | copied {xs zs : Text} : t.kind.isCopied → t.text = xs ++ c :: zs → t.Shows c xs [c] zs
  | decoded {form : Reference} : t.kind = .reference form → form.char? t.text = some c →
    t.Shows c [] t.text []

def Token.dropFront (t : Token) (xs ys : Text) : Token := ⟨t.kind, ys, t.offset + byteLength xs⟩

/-- The markup can be cut in the token `t` between `xs`, which is shown, and `ys`. -/
structure CutAt (m : Text) (before : List Token) (t : Token) (after : List Token)
    (xs ys : Text) : Prop where
  tokens_eq : tokens m = before ++ t :: after
  text_eq : t.text = xs ++ ys
  ne_nil : ys ≠ []
  shown : xs = [] ∨ t.kind.isCopied ∧ (regionAfter before).isHidden = false

variable {m front back ws ws' xs ys zs : Text} {before after us vs : List Token} {t u : Token}
  {c d : Char} {r : Span}

namespace Token.Shows

theorem text_eq (h : t.Shows c xs ws zs) : t.text = xs ++ (ws ++ zs) := by
  cases h with
  | copied hcopied htext => exact htext
  | decoded hkind hchar => simp

theorem isCopied (h : t.Shows c xs ws zs) :
    t.kind.isCopied ∨ xs = [] ∧ zs = [] ∧ ∃ form, t.kind = .reference form := by
  cases h with
  | copied hcopied htext => exact .inl hcopied
  | decoded hkind hchar => exact .inr ⟨rfl, rfl, _, hkind⟩

theorem mark_eq (h : t.Shows c xs ws zs) (hcopied : t.kind.isCopied) : ws = [c] := by
  cases h with
  | copied => rfl
  | decoded hkind => simp [hkind, Kind.isCopied] at hcopied

theorem ne_nil (h : t.Shows c xs ws zs) (ht : t.text ≠ []) : ws ≠ [] := by
  cases h with
  | copied hcopied htext => exact List.cons_ne_nil c []
  | decoded hkind hchar => exact ht

theorem dropFront (h : t.Shows c xs ws zs) : (t.dropFront xs (ws ++ zs)).Shows c [] ws zs := by
  cases h with
  | copied hcopied htext => exact .copied hcopied rfl
  | decoded hkind hchar =>
    rw [List.append_nil]
    exact .decoded hkind hchar

theorem exists_visibleText (h : t.Shows c [] ws zs)
    (hshown : (regionAfter before).isHidden = false) :
    ∃ text, visibleText? before t = some (c :: text) := by
  rw [visibleText?_of_shown hshown]
  cases h with
  | copied hcopied htext =>
    exact ⟨zs, (Token.shownText?_of_isCopied hcopied).trans (congrArg _ htext)⟩
  | decoded hkind hchar => exact ⟨[], Token.shownText?_of_reference hkind hchar⟩

theorem of_visible (h : visibleText? before t = some (xs ++ c :: ys)) :
    ∃ ws zs, t.Shows c xs ws zs := by
  rcases Token.shownText?_eq_some (Token.shownText?_of_visible h) with
    ⟨hcopied, htext⟩ | ⟨form, d, hkind, hd, htext⟩
  · exact ⟨_, _, .copied hcopied htext.symm⟩
  · obtain ⟨rfl, heq⟩ := List.append_eq_singleton_iff.mp htext |>.resolve_right (by simp)
    obtain ⟨rfl, rfl⟩ := List.cons.inj heq
    exact ⟨_, _, .decoded hkind hd⟩

theorem comesFrom (hts : tokens m = before ++ t :: after)
    (hshown : (regionAfter before).isHidden = false) (h : t.Shows c xs ws zs) :
    ComesFrom m (cleanText (events before) ++ xs) c
      ⟨t.offset + byteLength xs, t.offset + byteLength (xs ++ ws)⟩ := by
  cases h with
  | copied hcopied htext =>
    have h := ComesFrom.copied hts hcopied (visibleText?_of_isCopied hshown hcopied) htext rfl
    rwa [byteLength_append, ← Nat.add_assoc]
  | decoded hkind hchar =>
    have hvisible : visibleText? before t = some [c] := by
      rw [visibleText?_of_shown hshown, Token.shownText?_of_reference hkind hchar]
    exact .decoded hts hkind hchar hvisible (List.append_nil _)

end Token.Shows

/-- Each character of the clean text is shown by a token. -/
theorem exists_shows (past : List Token) {ts : List Token}
    (h : cleanText (eventsFrom (regionAfter past) ts) = front ++ c :: back) :
    ∃ before t after xs ws zs, ts = before ++ t :: after ∧ t.Shows c xs ws zs ∧
      (regionAfter (past ++ before)).isHidden = false ∧
      front = cleanText (eventsFrom (regionAfter past) before) ++ xs := by
  obtain ⟨before, t, after, text, xs, ys, hts, hvisible, rfl, hfront⟩ :=
    exists_token_of_character past h
  obtain ⟨ws, zs, hshows⟩ := Token.Shows.of_visible hvisible
  exact ⟨before, t, after, xs, ws, zs, hts, hshows, isHidden_of_visible hvisible, hfront⟩

/-- The markup can be cut before each character of the clean text. -/
theorem exists_cut_of_character (h : cleanText (events (tokens m)) = front ++ c :: back) :
    ∃ before t after xs ys, CutAt m before t after xs ys ∧
      (∃ text, visibleText? before (t.dropFront xs ys) = some (c :: text)) ∧
      front = cleanText (events before) ++ xs := by
  obtain ⟨before, t, after, xs, ws, zs, hts, hshows, hshown, hfront⟩ := exists_shows [] h
  have hne := (hts ▸ contiguous_tokens m).text_ne_nil
    (List.mem_append_right before List.mem_cons_self)
  refine ⟨before, t, after, xs, ws ++ zs, ⟨hts, hshows.text_eq, ?_, ?_⟩,
    hshows.dropFront.exists_visibleText hshown, hfront⟩
  · exact List.append_ne_nil_of_left_ne_nil (hshows.ne_nil hne) zs
  · exact hshows.isCopied.symm.imp And.left fun hcopied ↦ ⟨hcopied, hshown⟩

namespace CutAt

theorem contiguous (h : CutAt m before t after xs ys) :
    Contiguous (t.offset + byteLength xs) (t.dropFront xs ys :: after) := by
  obtain ⟨-, -, hafter⟩ := (h.tokens_eq ▸ contiguous_tokens m).of_append
  refine ⟨rfl, h.ne_nil, ?_⟩
  have hstop : (t.dropFront xs ys).stop = t.stop := by
    simp only [Token.stop, Token.length, Token.dropFront, h.text_eq, byteLength_append,
      Nat.add_assoc]
  rwa [hstop]

theorem markup_eq (h : CutAt m before t after xs ys) :
    m = before.flatMap Token.text ++ xs ++ (t.dropFront xs ys :: after).flatMap Token.text ∧
      byteLength (before.flatMap Token.text ++ xs) = t.offset + byteLength xs := by
  have hoffset := (h.tokens_eq ▸ contiguous_tokens m).offset_eq
  constructor
  · rw [← flatMap_text_tokens m, h.tokens_eq, List.flatMap_append, List.flatMap_cons, h.text_eq]
    simp [Token.dropFront]
  · rw [byteLength_append, hoffset, Nat.zero_add]

theorem regionAfter_eq (before : List Token) (t : Token) (xs ys : Text) (rest : List Token) :
    regionAfter (before ++ t.dropFront xs ys :: rest) = regionAfter (before ++ t :: rest) := by
  rw [regionAfter_append, regionAfter_append]
  rfl

/-- Cutting off `xs` takes it from the clean text and changes nothing else. -/
theorem cleanText_eq (h : CutAt m before t after xs ys) (rest : List Token) :
    cleanText (events (before ++ t :: rest)) = cleanText (events before) ++
      (xs ++ cleanText (eventsFrom (regionAfter before) (t.dropFront xs ys :: rest))) := by
  rw [events_append, cleanText_append, eventsFrom, eventsFrom, cleanText_append, cleanText_append,
    Token.cleanText_event, Token.cleanText_event]
  rcases h.shown with rfl | ⟨hcopied, hshown⟩
  · have hsame : t.dropFront [] ys = t := by
      rw [Token.dropFront, byteLength_nil, Nat.add_zero, show ys = t.text from h.text_eq.symm]
    rw [hsame, List.nil_append]
  · have hcopied' : (t.dropFront xs ys).kind.isCopied := hcopied
    rw [hshown, Token.shownText?_of_isCopied hcopied, Token.shownText?_of_isCopied hcopied',
      h.text_eq]
    simp [Token.dropFront]

/-- Each token from the cut on is a token of the markup, of which some text may be cut off. -/
theorem split (h : CutAt m before t after xs ys)
    (hcut : t.dropFront xs ys :: after = us ++ u :: vs) : ∃ before' u' front,
      CutAt m before' u' vs front u.text ∧ u = u'.dropFront front u.text ∧
      regionAfter before' = regionAfter (before ++ us) ∧
      cleanText (events before') ++ front = cleanText (events before) ++
        (xs ++ cleanText (eventsFrom (regionAfter before) us)) := by
  have hne := (hcut ▸ h.contiguous).text_ne_nil (List.mem_append_right us List.mem_cons_self)
  cases us with
  | nil =>
    obtain ⟨rfl, rfl⟩ := List.cons.inj hcut
    refine ⟨before, t, xs, h, rfl, by rw [List.append_nil], ?_⟩
    simp [eventsFrom, cleanText]
  | cons v us =>
    obtain ⟨rfl, rfl⟩ := List.cons.inj hcut
    refine ⟨before ++ t :: us, u, [], ⟨?_, rfl, hne, .inl rfl⟩, rfl, ?_, ?_⟩
    · rw [h.tokens_eq, List.append_assoc]
      rfl
    · rw [regionAfter_eq]
    · rw [List.append_nil, h.cleanText_eq]

theorem exists_lexer (h : CutAt m before t after xs ys)
    (hkind : t.kind.isCopied ∨ xs = [] ∧ ∃ form, t.kind = .reference form) :
    ∃ givenUp, PlainLexer.tokensFrom none givenUp (t.offset + byteLength xs)
      ((t.dropFront xs ys :: after).flatMap Token.text) = t.dropFront xs ys :: after := by
  have htokens := h.tokens_eq
  rw [PlainLexer.tokens_eq] at htokens
  obtain ⟨raw, givenUp, offset, -, hstate⟩ := PlainLexer.exists_state (by simp) htokens
  obtain ⟨c, rest, -, ht, -⟩ := PlainLexer.exists_cons_of_tokensFrom hstate
  have hoffset : t.offset = offset := by rw [ht]; rfl
  obtain ⟨d, ys, rfl⟩ := List.exists_cons_of_ne_nil h.ne_nil
  rw [hoffset]
  exact ⟨givenUp, by simpa [Token.dropFront, hoffset] using
    PlainLexer.tokensFrom_restart hstate h.text_eq hkind⟩

theorem shows (h : CutAt m before t after xs ys)
    (hshows : (t.dropFront xs ys).Shows c ws' ws zs) : t.Shows c (xs ++ ws') ws zs := by
  cases hshows with
  | copied hcopied htext =>
    refine .copied hcopied ?_
    rw [h.text_eq, List.append_assoc, ← htext]
    rfl
  | decoded hkind hchar =>
    obtain rfl : xs = [] := by
      refine h.shown.resolve_right fun hcopied ↦ ?_
      rw [show t.kind = _ from hkind] at hcopied
      cases hcopied.1
    obtain rfl : t.text = ys := h.text_eq
    exact .decoded hkind hchar

end CutAt

end MarkupText
