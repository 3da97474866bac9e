import MarkupText.Proofs.Moves
import MarkupText.Proofs.Regions
import MarkupText.Proofs.Origins
import MarkupText.Proofs.Swaps

namespace MarkupText

open Text

def excludedElements : List Text := "noindex".toList :: rawElements

def plainTag (edge : Edge) (name : Text) : Text := '<' :: (edge.slash ++ (name ++ ['>']))

def element (name x : Text) : Text := plainTag .opening name ++ (x ++ plainTag .closing name)

/-- What a token in an excluded element is if it is no tag of it. -/
def HeldBy (name : Text) (kind : Kind) : Prop :=
  name = "noindex".toList ∧ (kind.isCopied ∨ ∃ form, kind = .reference form) ∨
    name ∈ rawElements ∧ kind = .rawText

def Token.ofPlainTag (edge : Edge) (name : Text) (offset : Nat) : Token :=
  ⟨.ofTag name edge, plainTag edge name, offset⟩

variable {P : Prop} {a b x x' name text cs tail : Text} {c : Char} {edge : Edge} {givenUp : Bool}
  {raw : Option Text} {offset : Nat} {kind : Kind} {g : Region} {ts after : List Token}
  {t : Token}

theorem IsInert.not_mem (hx : IsInert x) : '<' ∉ x := fun hmem ↦ (hx '<' hmem).1 rfl

theorem excluded_name : ∀ name ∈ excludedElements,
    name.head?.any Char.isAlpha ∧ name.all isNameChar := by decide

theorem element_append (name x b : Text) : element name x ++ b =
    plainTag .opening name ++ (x ++ (plainTag .closing name ++ b)) := by
  simp [element]

theorem plainTag_append (name x tail : Text) :
    plainTag .opening name ++ (x ++ tail) = tagged name x tail := by
  simp [plainTag, tagged, Edge.slash]

theorem Kind.ofTag_ne_rawText (name : Text) (edge : Edge) : ofTag name edge ≠ .rawText := by
  unfold ofTag
  dsimp only
  repeat' split
  all_goals simp

theorem isRun_name (hname : name ∈ excludedElements) (tail : Text) :
    IsRun isNameChar name ('>' :: tail) := by
  obtain ⟨hhead, hchars⟩ := excluded_name name hname
  refine ⟨?_, List.all_eq_true.mp hchars, Bool.false_ne_true⟩
  rintro rfl
  cases hhead

theorem Construct.plainTag (hname : name ∈ excludedElements) (edge : Edge) :
    Construct P tail (.ofTag name edge) (plainTag edge name) := by
  change Construct P tail (.ofTag name edge) ('<' :: (edge.slash ++ (name ++ ([] ++ ['>']))))
  exact .tag (excluded_name name hname).1 (isRun_name hname tail) ⟨fun _ ↦ rfl, fun _ ↦ rfl⟩

theorem closesElement_plainTag (name b : Text) :
    ClosesElement name (plainTag .closing name ++ b) := by
  refine ⟨name, '>' :: b, by simp [plainTag, Edge.slash], ?_, Bool.false_ne_true⟩
  exact beq_self_eq_true _

namespace Token

theorem hides_ofPlainTag (hname : name ∈ excludedElements) (edge : Edge) (offset : Nat)
    (tail : Text) : (ofPlainTag edge name offset).hides tail = false := by
  have helement :=
    PlainLexer.elementName?_append (excluded_name name hname).1 (isRun_name hname [])
  have hafter : (ofPlainTag edge name offset).afterName = ['>'] :=
    (name?_of_text rfl edge.slash_eq helement).2
  have hscan : ScanState.outside.scan (['>'] ++ tail) = some 0 := rfl
  rw [hides, hafter, hscan, Option.isNone_some, Bool.and_false]

theorem rawElement?_closing (name : Text) (offset : Nat) :
    (ofPlainTag .closing name offset).rawElement? = none := by
  refine PlainLexer.rawElement?_eq_none ?_
  unfold ofPlainTag Kind.ofTag
  dsimp only
  repeat' split
  all_goals simp

end Token

namespace PlainLexer

theorem tokensFrom_plainTag (hname : name ∈ excludedElements) (edge : Edge)
    (hraw : ∀ word ∈ raw, ClosesElement word (plainTag edge name ++ tail)) (offset : Nat) :
    tokensFrom raw givenUp offset (plainTag edge name ++ tail) =
      .ofPlainTag edge name offset ::
        tokensFrom (Token.ofPlainTag edge name offset).rawElement? givenUp
          (offset + byteLength (plainTag edge name)) tail := by
  have hderives : Derives raw (givenUp = true) tail (.ofTag name edge) (plainTag edge name) :=
    .construct hraw (.plainTag hname edge)
  have hides := Token.hides_ofPlainTag hname edge offset tail
  have htokens := tokensFrom_of_derives hderives offset
  rwa [show Token.hides ⟨_, _, offset⟩ tail = false from hides, Bool.or_false] at htokens

theorem tokensFrom_closing (hname : name ∈ excludedElements)
    (hraw : ∀ word ∈ raw, word = name) (givenUp : Bool) (offset : Nat) (b : Text) :
    tokensFrom raw givenUp offset (plainTag .closing name ++ b) =
      .ofPlainTag .closing name offset ::
        tokensFrom none givenUp (offset + byteLength (plainTag .closing name)) b := by
  rw [tokensFrom_plainTag hname, Token.rawElement?_closing]
  intro word hword
  rw [hraw word hword]
  exact closesElement_plainTag name b

/-- Outside raw elements what begins with no `<` can be shown, and holds none. -/
theorem exists_shown (givenUp : Bool) (hc : c ≠ '<') (cs : Text) :
    ∃ kind text tail, c :: cs = text ++ tail ∧ Derives none (givenUp = true) tail kind text ∧
      '<' ∉ text ∧ (kind.isCopied ∨ ∃ form, kind = .reference form) := by
  have hcs : c :: cs = ((read none givenUp c cs).1.token c cs 0).text ++
      cs.drop (read none givenUp c cs).1.more := by
    simp [Lexeme.token]
  have hderives := (derives_iff Iff.rfl hcs).mpr ((gives_iff 0 hcs).mpr ⟨rfl, rfl⟩)
  refine ⟨_, _, _, hcs, hderives, ?_⟩
  by_cases hand : c = '&'
  · subst hand
    refine ⟨List.not_mem_cons_of_ne_of_not_mem (by decide) (Lexeme.not_mem_ofReference cs), ?_⟩
    rcases Lexeme.ofReference_kind cs with hkind | ⟨form, hkind⟩
    · exact .inl (congrArg Kind.isCopied hkind)
    · exact .inr ⟨form, hkind⟩
  · rw [read_text hc hand]
    constructor
    · refine List.not_mem_cons_of_ne_of_not_mem hc.symm ?_
      rw [Lexeme.ofText, take_length_takeWhile]
      intro hmem
      have hrun := List.all_eq_true.mp List.all_takeWhile '<' hmem
      simp at hrun
    · refine .inl ?_
      unfold Lexeme.ofText Lexeme.token
      dsimp only
      split <;> rfl

theorem tokensFrom_shown (hx : '<' ∉ x) (givenUp : Bool) (offset : Nat) (cs : Text) :
    ∃ ts : List Token, (∀ t ∈ ts, t.kind.isCopied ∨ ∃ form, t.kind = .reference form) ∧
      tokensFrom none givenUp offset (x ++ '<' :: cs) =
        ts ++ tokensFrom none givenUp (offset + byteLength x) ('<' :: cs) := by
  induction hlen : x.length using Nat.strong_induction_on generalizing x offset with
  | h len ih =>
    subst hlen
    cases x with
    | nil => exact ⟨[], nofun, rfl⟩
    | cons c x =>
      obtain ⟨hc, -⟩ := List.ne_and_not_mem_of_not_mem_cons hx
      obtain ⟨kind, text, tail, hcs, hderives, hfree, hkind⟩ :=
        exists_shown givenUp hc.symm (x ++ '<' :: cs)
      have hbegins : text <+: (c :: x) ++ '<' :: cs := ⟨tail, hcs.symm⟩
      obtain ⟨y, hy⟩ := prefix_of_not_mem hbegins hfree
      obtain rfl : tail = y ++ '<' :: cs := by
        rw [← List.cons_append, ← hy, List.append_assoc] at hcs
        exact (List.append_cancel_left hcs).symm
      have hlt : y.length < (c :: x).length := by
        have hpos := List.length_pos_iff.mpr hderives.ne_nil
        rw [← hy, List.length_append]
        omega
      have hyfree : '<' ∉ y := fun hmem ↦ hx (hy ▸ List.mem_append_right text hmem)
      obtain ⟨ts, hts, htokens⟩ := ih _ hlt hyfree (offset + byteLength text) rfl
      refine ⟨⟨kind, text, offset⟩ :: ts, List.forall_mem_cons.mpr ⟨hkind, hts⟩, ?_⟩
      rw [← hy, List.append_assoc, tokensFrom_of_shown hderives hkind, htokens, byteLength_append,
        Nat.add_assoc]
      rfl

/-- A raw element holds one raw text at most. -/
theorem tokensFrom_rawText (name : Text) (hx : '<' ∉ x) (givenUp : Bool) (offset : Nat)
    (b : Text) :
    ∃ raw, (∀ word ∈ raw, word = name) ∧ ∃ ts : List Token, (∀ t ∈ ts, t.kind = .rawText) ∧
      tokensFrom (some name) givenUp offset (x ++ (plainTag .closing name ++ b)) =
        ts ++ tokensFrom raw givenUp (offset + byteLength x) (plainTag .closing name ++ b) := by
  have hcloses := closesElement_plainTag name b
  by_cases hne : x = []
  · subst hne
    exact ⟨some name, fun word hword ↦ (Option.some.inj hword).symm, [], nofun, rfl⟩
  · have hbody : IsRawBody name x (plainTag .closing name ++ b) := by
      refine ⟨hne, .inr hcloses, ?_⟩
      rintro xs (_ | ⟨d, ys⟩) rfl hys ⟨word, rest, hcs, -⟩
      · exact hys rfl
      · obtain ⟨rfl, -⟩ := List.cons.inj hcs
        simp at hx
    have hderives : Derives (some name) (givenUp = true) (plainTag .closing name ++ b) .rawText x :=
      .rawText rfl hbody
    refine ⟨none, nofun, [⟨.rawText, x, offset⟩], by simp, ?_⟩
    have hraw : Token.rawElement? ⟨.rawText, x, offset⟩ = none := rawElement?_eq_none (by simp)
    rw [tokensFrom_of_derives hderives, hraw]
    simp [Token.hides, Token.isTag]

/-- Between its tags an excluded element has tokens of few kinds. -/
theorem tokensFrom_element (hname : name ∈ excludedElements) (hx : '<' ∉ x) (givenUp : Bool)
    (offset : Nat) (b : Text) :
    ∃ ts : List Token, (∀ t ∈ ts, HeldBy name t.kind) ∧
      tokensFrom none givenUp offset (element name x ++ b) =
        .ofPlainTag .opening name offset ::
          (ts ++ .ofPlainTag .closing name
            (offset + byteLength (plainTag .opening name) + byteLength x) ::
              tokensFrom none givenUp (offset + byteLength (element name x)) b) := by
  have hlength : offset + byteLength (element name x) =
      offset + byteLength (plainTag .opening name) + byteLength x +
        byteLength (plainTag .closing name) := by
    simp only [element, byteLength_append]
    omega
  have houtside : ∀ word ∈ (none : Option Text),
      ClosesElement word (plainTag .opening name ++ (x ++ (plainTag .closing name ++ b))) := nofun
  rw [element_append, tokensFrom_plainTag hname .opening houtside, hlength]
  rcases List.mem_cons.mp hname with hnoIndex | hraw
  · have hnone : (Token.ofPlainTag .opening name offset).rawElement? = none := by
      subst hnoIndex
      rfl
    obtain ⟨ts, hts, htokens⟩ := tokensFrom_shown hx givenUp
      (offset + byteLength (plainTag .opening name)) ('/' :: (name ++ ['>']) ++ b)
    refine ⟨ts, fun t ht ↦ .inl ⟨hnoIndex, hts t ht⟩, ?_⟩
    have htext : plainTag .closing name ++ b = '<' :: ('/' :: (name ++ ['>']) ++ b) := rfl
    have hnothing : ∀ word ∈ (none : Option Text), word = name := nofun
    rw [hnone, htext, htokens, ← htext, tokensFrom_closing hname hnothing]
  · have hsome : (Token.ofPlainTag .opening name offset).rawElement? = some name := by
      rcases List.mem_pair.mp hraw with rfl | rfl <;> rfl
    obtain ⟨raw, hraw', ts, hts, htokens⟩ := tokensFrom_rawText name hx givenUp
      (offset + byteLength (plainTag .opening name)) b
    refine ⟨ts, fun t ht ↦ .inr ⟨hraw, hts t ht⟩, ?_⟩
    rw [hsome, htokens, tokensFrom_closing hname hraw']

/-- Where the lexer reads an opening tag it is in no raw element. -/
theorem eq_none_of_opening (hname : name ∈ excludedElements)
    (h : tokensFrom raw givenUp offset (tagged name x tail) =
      .ofPlainTag .opening name offset :: after) : raw = none := by
  obtain ⟨c, cs, hcs, ht, -⟩ := exists_cons_of_tokensFrom h
  rcases read_cases raw givenUp c cs with ⟨hcloses, -⟩ | ⟨word, n, -, -, hread⟩
  · refine Option.eq_none_iff_forall_not_mem.mpr fun word hword ↦ ?_
    obtain ⟨ds, es, hds, -⟩ := hcloses word hword
    obtain ⟨hhead, -⟩ := excluded_name name hname
    have hslash := (List.cons.inj (hcs.trans hds)).2
    cases name with
    | nil => cases hhead
    | cons d name =>
      obtain ⟨rfl, -⟩ := List.cons.inj hslash
      cases hhead
  · rw [hread] at ht
    exact absurd (congrArg Token.kind ht) (Kind.ofTag_ne_rawText name .opening)

end PlainLexer

theorem eventsFrom_silent (hts : ∀ t ∈ ts, t.event? g = none ∧ g.after t.kind = g)
    (us : List Token) : eventsFrom g (ts ++ us) = eventsFrom g us := by
  induction ts with
  | nil => rfl
  | cons t ts ih =>
    obtain ⟨⟨hevent, hafter⟩, hts⟩ := List.forall_mem_cons.mp hts
    rw [List.cons_append, eventsFrom, hevent, hafter, ih hts]
    rfl

theorem Token.event?_of_inNoIndex (hg : g.inNoIndex) (t : Token) : t.event? g = none := by
  have hhidden : g.isHidden := by simp [Region.isHidden, hg]
  unfold event?
  rw [if_pos hg, if_pos hhidden, ite_self]

theorem eventsFrom_noIndex (g : Region) (hts : ∀ t ∈ ts, HeldBy "noindex".toList t.kind)
    (offset offset' : Nat) (us : List Token) :
    eventsFrom g (.ofPlainTag .opening "noindex".toList offset ::
      (ts ++ .ofPlainTag .closing "noindex".toList offset' :: us)) =
        eventsFrom { g with inNoIndex := false } us := by
  have hsilent : ∀ t ∈ ts, t.event? { g with inNoIndex := true } = none ∧
      Region.after { g with inNoIndex := true } t.kind = { g with inNoIndex := true } := by
    intro t ht
    refine ⟨t.event?_of_inNoIndex rfl, ?_⟩
    rcases hts t ht with ⟨-, hshown⟩ | ⟨hraw, -⟩
    · exact Region.after_of_shown hshown _
    · exact absurd hraw (by decide)
  have hevent (edge : Edge) (g : Region) (offset : Nat) :
      (Token.ofPlainTag edge "noindex".toList offset).event? g = none := by
    have hkind : (Token.ofPlainTag edge "noindex".toList offset).kind = .noIndex edge := by
      cases edge <;> rfl
    generalize Token.ofPlainTag edge "noindex".toList offset = t at hkind
    simp [Token.event?, Token.isBoundary, Token.shownText?, hkind]
  rw [eventsFrom, hevent]
  exact (eventsFrom_silent hsilent _).trans (by rw [eventsFrom, hevent]; rfl)

theorem eventsFrom_raw (hname : name ∈ rawElements) (g : Region)
    (hts : ∀ t ∈ ts, HeldBy name t.kind) (offset offset' : Nat) (us : List Token) :
    eventsFrom g (.ofPlainTag .opening name offset ::
      (ts ++ .ofPlainTag .closing name offset' :: us)) =
        List.replicate (if g.inNoIndex then 0 else 2) .boundary ++ eventsFrom g us := by
  have hkind (edge : Edge) (offset : Nat) :
      (Token.ofPlainTag edge name offset).kind = .tag edge := by
    rcases List.mem_pair.mp hname with rfl | rfl <;> cases edge <;> rfl
  have hboundary (edge : Edge) (offset : Nat) :
      (Token.ofPlainTag edge name offset).isBoundary = true := by
    rcases List.mem_pair.mp hname with rfl | rfl <;> cases edge <;> rfl
  have hsilent : ∀ t ∈ ts, t.event? g = none ∧ g.after t.kind = g := by
    intro t ht
    rcases hts t ht with ⟨hnoIndex, -⟩ | ⟨-, hraw⟩
    · subst hnoIndex
      exact absurd hname (by decide)
    · simp [Token.event?, Token.isBoundary, Token.shownText?, Region.after, hraw]
  rw [eventsFrom, hkind, show g.after (.tag .opening) = g from rfl, eventsFrom_silent hsilent,
    eventsFrom, hkind, show g.after (.tag .closing) = g from rfl, Token.event?, Token.event?,
    if_pos (hboundary _ _), if_pos (hboundary _ _)]
  cases g.inNoIndex <;> rfl

/-- What an excluded element holds makes no difference to the events. -/
theorem eventsFrom_element (hname : name ∈ excludedElements) (g : Region) :
    ∃ n g', ∀ x givenUp offset b, '<' ∉ x →
      eventsFrom g (PlainLexer.tokensFrom none givenUp offset (element name x ++ b)) =
        List.replicate n .boundary ++ eventsFrom g'
          (PlainLexer.tokensFrom none givenUp (offset + byteLength (element name x)) b) := by
  rcases List.mem_cons.mp hname with rfl | hraw
  · refine ⟨0, { g with inNoIndex := false }, fun x givenUp offset b hx ↦ ?_⟩
    obtain ⟨ts, hts, htokens⟩ := PlainLexer.tokensFrom_element hname hx givenUp offset b
    rw [htokens, eventsFrom_noIndex g hts]
    rfl
  · refine ⟨if g.inNoIndex then 0 else 2, g, fun x givenUp offset b hx ↦ ?_⟩
    obtain ⟨ts, hts, htokens⟩ := PlainLexer.tokensFrom_element hname hx givenUp offset b
    rw [htokens, eventsFrom_raw hraw g hts]

def Fragment.shift (n : Nat) (f : Fragment) : Fragment := { f with source := f.source.shift n }

theorem Token.event?_shift (g : Region) (n : Nat) (t : Token) :
    (t.shift n).event? g = (t.event? g).map (Event.map (Fragment.shift n)) := by
  have hspan : (t.shift n).span = t.span.shift n := by
    simp only [Token.span, Span.shift, Token.stop, Token.shift, Token.length, Nat.add_assoc]
  have hboundary : (t.shift n).isBoundary = t.isBoundary := rfl
  have hshown : (t.shift n).shownText? = t.shownText? := rfl
  rw [event?, event?, hboundary, hshown, hspan]
  split
  · split <;> rfl
  · split
    · rfl
    · rw [Option.map_map]
      rfl

theorem eventsFrom_shift (g : Region) (n : Nat) (ts : List Token) :
    eventsFrom g (ts.map (Token.shift n)) =
      (eventsFrom g ts).map (Event.map (Fragment.shift n)) := by
  induction ts generalizing g with
  | nil => rfl
  | cons t ts ih =>
    rw [List.map_cons, eventsFrom, eventsFrom, List.map_append, Token.event?_shift, ← ih]
    cases t.event? g <;> rfl

/-- The lexer gets to an excluded element the same way whatever it holds. -/
theorem exists_tokens_before (hname : name ∈ excludedElements) (hx : IsInert x)
    (h : .ofPlainTag .opening name (byteLength a) ∈ tokens (a ++ (element name x ++ b))) :
    ∃ before givenUp, before.flatMap Token.text = a ∧ ∀ y, IsInert y →
      tokens (a ++ (element name y ++ b)) =
        before ++ PlainLexer.tokensFrom none givenUp (byteLength a) (element name y ++ b) := by
  obtain ⟨before, after, hts⟩ := List.append_of_mem h
  have hoffset := (hts ▸ contiguous_tokens _).offset_eq
  have htext := flatMap_text_tokens (a ++ (element name x ++ b))
  rw [hts, List.flatMap_append] at htext
  obtain ⟨hbefore, -⟩ := append_inj_of_byteLength htext (by
    rw [Nat.zero_add] at hoffset
    exact hoffset.symm)
  simp only [element_append, plainTag_append, PlainLexer.tokens_eq] at hts ⊢
  have hstart : ∀ word ∈ (none : Option Text), word ∈ rawElements := nofun
  obtain ⟨raw, givenUp, htokens⟩ := PlainLexer.tokensFrom_swap (excluded_name name hname).1 hx
    hstart hts hbefore
  have hopening := List.append_cancel_left ((htokens x hx).symm.trans hts)
  rw [Nat.zero_add] at hopening htokens
  obtain rfl := PlainLexer.eq_none_of_opening hname hopening
  exact ⟨before, givenUp, hbefore, htokens⟩

theorem mem_tokens_swap (hname : name ∈ excludedElements) (hx : IsInert x) (hx' : IsInert x')
    (h : .ofPlainTag .opening name (byteLength a) ∈ tokens (a ++ (element name x ++ b))) :
    .ofPlainTag .opening name (byteLength a) ∈ tokens (a ++ (element name x' ++ b)) := by
  obtain ⟨before, givenUp, -, htokens⟩ := exists_tokens_before hname hx h
  obtain ⟨ts, -, helement⟩ :=
    PlainLexer.tokensFrom_element hname hx'.not_mem givenUp (byteLength a) b
  rw [htokens x' hx', helement]
  exact List.mem_append_right before List.mem_cons_self

/-- The events of a document with an excluded element are those before it and those after it. -/
theorem exists_events (hname : name ∈ excludedElements) (hx : IsInert x)
    (h : .ofPlainTag .opening name (byteLength a) ∈ tokens (a ++ (element name x ++ b))) :
    ∃ front back,
      (∀ f ∈ contents front, f.source.start ≤ f.source.stop ∧ f.source.stop ≤ byteLength a) ∧
      (∀ f ∈ contents back, f.source.start ≤ f.source.stop) ∧
      ∀ y, IsInert y → events (tokens (a ++ (element name y ++ b))) =
        front ++ back.map (Event.map (.shift (byteLength (a ++ element name y)))) := by
  obtain ⟨before, givenUp, hbefore, htokens⟩ := exists_tokens_before hname hx h
  obtain ⟨n, g, hevents⟩ := eventsFrom_element hname (regionAfter before)
  refine ⟨events before ++ List.replicate n .boundary,
    eventsFrom g (PlainLexer.tokensFrom none givenUp 0 b), ?_, ?_, ?_⟩
  · intro f hf
    have hnone : contents (List.replicate n (.boundary : Event Fragment)) = [] := by
      simp [contents, Event.content?]
    rw [contents_append, hnone, List.append_nil] at hf
    obtain ⟨t, ht, -, hsource⟩ := exists_token_of_mem hf
    have hcontiguous := (htokens x hx ▸ contiguous_tokens _).of_append_left
    have hstop := hcontiguous.stop_le ht
    rw [hbefore, Nat.zero_add] at hstop
    rw [hsource]
    exact ⟨Nat.le_add_right _ _, hstop⟩
  · intro f hf
    obtain ⟨t, -, -, hsource⟩ := exists_token_of_mem hf
    rw [hsource]
    exact Nat.le_add_right _ _
  · intro y hy
    have hshift := PlainLexer.tokensFrom_shift none givenUp
      (byteLength a + byteLength (element name y)) 0 b
    rw [Nat.add_zero] at hshift
    rw [htokens y hy, events_append, hevents y givenUp _ b hy.not_mem, hshift, eventsFrom_shift,
      List.append_assoc, byteLength_append]

theorem byteLength_lt_element (name x : Text) : byteLength x < byteLength (element name x) := by
  have hpos : 0 < byteLength (plainTag .opening name) := byteLength_pos (List.cons_ne_nil _ _)
  simp only [element, byteLength_append]
  omega

theorem movesEvents_swap (hname : name ∈ excludedElements) (hx : IsInert x) (hx' : IsInert x')
    (h : .ofPlainTag .opening name (byteLength a) ∈ tokens (a ++ (element name x ++ b))) :
    MovesEvents ⟨byteLength a, byteLength (a ++ element name x)⟩ (byteLength x) (byteLength x')
      (a ++ (element name x ++ b)) (a ++ (element name x' ++ b)) := by
  obtain ⟨front, back, hfront, hback, hevents⟩ := exists_events hname hx h
  have hlt := byteLength_lt_element name x
  have hlength : byteLength (element name x') + byteLength x =
      byteLength (element name x) + byteLength x' := by
    simp only [element, byteLength_append]
    omega
  refine ⟨?_, ?_, ?_⟩
  · simp only [byteLength_append]
    omega
  · intro f hf
    rw [hevents x hx, contents_append, contents_map, List.mem_append, List.mem_map] at hf
    rcases hf with hf | ⟨f, hf, rfl⟩
    · exact ⟨(hfront f hf).1, .inl (hfront f hf).2⟩
    · exact ⟨Nat.add_le_add_left (hback f hf) _, .inr (Nat.le_add_right _ _)⟩
  · rw [hevents x hx, hevents x' hx', List.map_append, List.map_map]
    congr 1
    · have hself : front.map (Event.map id) = front := by rw [Event.map_id, List.map_id]
      conv_lhs => rw [← hself]
      refine Event.map_congr fun f hf ↦ ?_
      rw [Fragment.moved, Span.moved, if_pos (hfront f hf).2]
      rfl
    · rw [Event.map_comp]
      refine Event.map_congr fun f hf ↦ ?_
      have hstop := hback f hf
      rw [Function.comp_apply, Fragment.moved, Span.moved, if_neg ?_]
      · simp only [Fragment.shift, Span.shift, byteLength_append, Fragment.mk.injEq,
          Span.mk.injEq, and_true]
        omega
      · simp only [Fragment.shift, Span.shift, byteLength_append]
        omega

/-- What an excluded element holds makes no difference but to where the text after it stands. -/
theorem excluded_swap (hname : name ∈ excludedElements) (hx : IsInert x) (hx' : IsInert x')
    (h : .ofPlainTag .opening name (byteLength a) ∈ tokens (a ++ (element name x ++ b)))
    (s : Splitter) (base : Nat) (want : Bool) :
    .ofPlainTag .opening name (byteLength a) ∈ tokens (a ++ (element name x' ++ b)) ∧
      Document.Moves ⟨byteLength a, byteLength (a ++ element name x)⟩ (byteLength x)
        (byteLength x') (.ofMarkup base (a ++ (element name x ++ b)))
        (.ofMarkup base (a ++ (element name x' ++ b))) ∧
      Outline.Moves ⟨byteLength a, byteLength (a ++ element name x)⟩ (byteLength x)
        (byteLength x') (s.outline base (a ++ (element name x ++ b)) want)
        (s.outline base (a ++ (element name x' ++ b)) want) := by
  have hmoves := movesEvents_swap hname hx hx' h
  exact ⟨mem_tokens_swap hname hx hx' h, hmoves.document base, hmoves.outline s base want⟩

theorem excluded_swap_script :
    .ofPlainTag .opening "script".toList 1 ∈
      tokens ("x".toList ++ (element "script".toList [] ++ "y".toList)) ∧
    Document.Moves ⟨1, 21⟩ 3 0
      (.ofMarkup 0 ("x".toList ++ (element "script".toList "p&q".toList ++ "y".toList)))
      (.ofMarkup 0 ("x".toList ++ (element "script".toList [] ++ "y".toList))) ∧
    (Document.ofMarkup 0 ("x".toList ++ (element "script".toList [] ++ "y".toList))).text =
      "xy".toList := by
  have hname : "script".toList ∈ excludedElements := by decide
  have hx : IsInert "p&q".toList := by simp [IsInert]
  have hx' : IsInert [] := nofun
  have h : .ofPlainTag .opening "script".toList (byteLength "x".toList) ∈
      tokens ("x".toList ++ (element "script".toList "p&q".toList ++ "y".toList)) := by
    decide +kernel
  obtain ⟨hmem, hdocument, -⟩ :=
    excluded_swap hname hx hx' h ⟨⟨"en".toList, []⟩, by decide⟩ 0 false
  exact ⟨hmem, hdocument, by decide +kernel⟩

end MarkupText
