import MarkupText.Proofs.TagsWithin

namespace MarkupText

open Text

/-- A part of the markup `m` that goes from a character which the token `first` shows, after its
text `skipped`, to the character `final` which the token `last` shows by its text `mark`. -/
structure Passage (m : Text) where
  before : List Token
  first : Token
  after : List Token
  skipped : Text
  kept : Text
  cut : CutAt m before first after skipped kept
  visible : ∃ c text, visibleText? before (first.dropFront skipped kept) = some (c :: text)
  within : List Token
  last : Token
  beyond : List Token
  split : first.dropFront skipped kept :: after = within ++ last :: beyond
  final : Char
  lead : Text
  mark : Text
  rest : Text
  shows : last.Shows final lead mark rest
  shown : (regionAfter (before ++ within)).isHidden = false

theorem Token.Shows.shownText? {u : Token} {d : Char} {ws' ws zs : Text}
    (h : u.Shows d ws' ws zs) (n : Nat) :
    Token.shownText? ⟨u.kind, ws' ++ ws, n⟩ = some (ws' ++ [d]) := by
  cases h with
  | copied hcopied htext => exact Token.shownText?_of_isCopied hcopied
  | decoded hkind hchar => exact Token.shownText?_of_reference hkind hchar

namespace Passage

variable {m : Text} (p : Passage m)

def source : Span :=
  ⟨p.first.offset + byteLength p.skipped, p.last.offset + byteLength (p.lead ++ p.mark)⟩

def markup : Text := p.within.flatMap Token.text ++ (p.lead ++ p.mark)

def tokens : List Token := p.within ++ [⟨p.last.kind, p.lead ++ p.mark, p.last.offset⟩]

def front : Text := cleanText (events p.before) ++ p.skipped

def body : Text := cleanText (eventsFrom (regionAfter p.before) p.within) ++ p.lead

def text : Text := p.body ++ [p.final]

def clean : Span := ⟨byteLength p.front, byteLength (p.front ++ p.text)⟩

theorem isShown : (regionAfter p.before).isHidden = false := by
  obtain ⟨c, text, hvisible⟩ := p.visible
  exact isHidden_of_visible hvisible

theorem kind : p.first.kind.isCopied ∨
    p.skipped = [] ∧ ∃ form, p.first.kind = .reference form := by
  obtain ⟨c, text, hvisible⟩ := p.visible
  rcases Token.shownText?_eq_some (Token.shownText?_of_visible hvisible) with
    ⟨hcopied, -⟩ | ⟨form, d, hkind, -⟩
  · exact .inl hcopied
  · exact p.cut.shown.symm.imp And.left fun hnil ↦ ⟨hnil, form, hkind⟩

theorem last_text : p.last.text = (p.lead ++ p.mark) ++ p.rest := by
  rw [p.shows.text_eq, List.append_assoc]

theorem mark_ne_nil : p.lead ++ p.mark ≠ [] := by
  have hne := (p.split ▸ p.cut.contiguous).text_ne_nil
    (List.mem_append_right p.within List.mem_cons_self)
  exact List.append_ne_nil_of_right_ne_nil _ (p.shows.ne_nil hne)

theorem slice?_source : slice? m p.source = some p.markup := by
  have hsplit : p.first.dropFront p.skipped p.kept :: p.after =
      [] ++ (p.within ++ p.last :: p.beyond) := p.split
  simpa [source, markup] using p.cut.slice?_eq hsplit p.last_text

/-- The passage read alone has its own tokens, if its tags end where they do as seen from there and
no closing tag of a raw element is cut. -/
theorem tokens_markup
    (hkeeps : KeepsClosings p.markup (p.rest ++ p.beyond.flatMap Token.text))
    (hends : TagsEndWithin m p.source) :
    (MarkupText.tokens p.markup).map (Token.shift p.source.start) = p.tokens := by
  obtain ⟨givenUp, hlexer⟩ := p.cut.exists_lexer p.kind
  rw [p.split] at hlexer
  rw [PlainLexer.tokens_eq, ← PlainLexer.tokensFrom_shift, Nat.add_zero]
  exact PlainLexer.tokensFrom_excerpt (by simp) hlexer p.last_text p.mark_ne_nil
    (p.shows.isCopied.imp_right And.right) hkeeps
    (p.cut.endWithin p.kind p.split p.last_text hends)

/-- A passage in which no block ends shows the same alone. -/
theorem cleanText_tokens (h : .boundary ∉ eventsFrom (regionAfter p.before) p.within) :
    cleanText (events p.tokens) = p.text := by
  have hvisible : visibleText? (p.before ++ p.within)
      ⟨p.last.kind, p.lead ++ p.mark, p.last.offset⟩ = some (p.lead ++ [p.final]) :=
    (visibleText?_of_shown p.shown _).trans (p.shows.shownText? _)
  have hboundary : .boundary ∉ eventsFrom (regionAfter p.before) p.tokens := by
    rw [tokens, eventsFrom_append, ← regionAfter_append, List.mem_append, not_or]
    refine ⟨h, ?_⟩
    rw [eventsFrom, event?_of_visible hvisible]
    simp [eventsFrom]
  rw [events, (alike_of_not_isHidden p.isShown).cleanText_eq hboundary, tokens, cleanText_concat,
    hvisible, Option.getD_some, text, body, List.append_assoc]

theorem comesFrom_first : ∃ c stop,
    ComesFrom m p.front c ⟨p.source.start, stop⟩ := by
  obtain ⟨c, text, hvisible⟩ := p.visible
  rw [← List.nil_append (c :: text)] at hvisible
  obtain ⟨ws, zs, hshows⟩ := Token.Shows.of_visible hvisible
  have hcomes := (p.cut.shows hshows).comesFrom p.cut.tokens_eq p.isShown
  rw [List.append_nil] at hcomes
  exact ⟨c, _, hcomes⟩

theorem comesFrom_final : ∃ start,
    ComesFrom m (p.front ++ p.body) p.final ⟨start, p.source.stop⟩ := by
  obtain ⟨before, u, front, hcut, hu, hregion, hclean⟩ := p.cut.split p.split
  have hcomes := (hcut.shows (hu ▸ p.shows)).comesFrom hcut.tokens_eq (hregion ▸ p.shown)
  have hoffset : p.last.offset = u.offset + byteLength front := by rw [hu]; rfl
  have hfront : cleanText (events before) ++ (front ++ p.lead) = p.front ++ p.body := by
    rw [← List.append_assoc, hclean, Passage.front, body]
    simp
  rw [hfront, List.append_assoc, byteLength_append front (p.lead ++ p.mark), ← Nat.add_assoc,
    ← hoffset] at hcomes
  exact ⟨_, hcomes⟩

/-- The lookups lead from the ends of the clean text of a passage to those of its markup. -/
theorem source_eq : p.source = ⟨offsetIn .left p.clean.start (merge (fragmentRuns m)),
    offsetIn .right p.clean.stop (merge (fragmentRuns m))⟩ := by
  obtain ⟨c, stop, hfirst⟩ := p.comesFrom_first
  obtain ⟨start, hfinal⟩ := p.comesFrom_final
  have hstop : p.clean.stop = byteLength (p.front ++ p.body) + p.final.utf8Size := by
    simp [clean, text, Nat.add_assoc]
  rw [hstop, hfinal.offsetIn_eq.2, clean, hfirst.offsetIn_eq.1]

end Passage

/-- There is a passage for each part of the clean text. -/
theorem exists_passage {m as bs cs rest front : Text} {c d : Char}
    (h : cleanText (events (tokens m)) = as ++ (cs ++ bs)) (hhead : cs = c :: rest)
    (hlast : cs = front ++ [d]) : ∃ p : Passage m, p.front = as ∧ p.text = cs := by
  have hfirst : cleanText (events (tokens m)) = as ++ c :: (rest ++ bs) := by
    rw [h, hhead]
    rfl
  obtain ⟨before, t, after, xs, ys, hcut, ⟨text, hvisible⟩, has⟩ := exists_cut_of_character hfirst
  have hrest : cleanText (eventsFrom (regionAfter before) (t.dropFront xs ys :: after)) =
      front ++ d :: bs := by
    have hall := hcut.cleanText_eq after
    rw [← hcut.tokens_eq, ← List.append_assoc, ← has, h, hlast] at hall
    simpa using (List.append_cancel_left hall).symm
  obtain ⟨us, u, vs, ws', ws, zs, hsplit, hshows, hshown, hfront⟩ := exists_shows before hrest
  exact ⟨⟨before, t, after, xs, ys, hcut, ⟨c, text, hvisible⟩, us, u, vs, hsplit, d, ws', ws, zs,
    hshows, hshown⟩, has.symm, by rw [hlast, hfront]; rfl⟩

end MarkupText
