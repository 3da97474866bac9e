import MarkupText.Proofs.Constructs

namespace MarkupText

open Text

def Token.rawElement? (t : Token) : Option Text :=
  if t.kind = .tag .opening ∧ ¬ ['/', '>'] <:+ t.text then
    t.name?.bind fun name ↦ rawElements.find? (sameCaseless name)
  else none

def openRaw? (before : List Token) : Option Text := before.getLast?.bind Token.rawElement?

def ClosesElement (name cs : Text) : Prop :=
  ∃ word rest, cs = '<' :: '/' :: (word ++ rest) ∧ sameCaseless word name ∧
    ¬ rest.head?.any isNameChar

structure IsRawBody (name text tail : Text) : Prop where
  ne_nil : text ≠ []
  closed : tail = [] ∨ ClosesElement name tail
  first (xs ys : Text) : text = xs ++ ys → ys ≠ [] → ¬ ClosesElement name (ys ++ tail)

/-- The grammar of a single token in front of `tail`: the content of a raw element comes first, and
where no construct is possible a `<` or `&` stands alone. -/
inductive Derives (raw? : Option Text) (givenUp : Prop) (tail : Text) : Kind → Text → Prop
  | rawText {name text : Text} : raw? = some name → IsRawBody name text tail →
      Derives raw? givenUp tail .rawText text
  | construct {kind : Kind} {text : Text} : (∀ name ∈ raw?, ClosesElement name (text ++ tail)) →
      Construct givenUp tail kind text → Derives raw? givenUp tail kind text
  | stray {c : Char} : (∀ name ∈ raw?, ClosesElement name (c :: tail)) → c = '<' ∨ c = '&' →
      (∀ kind text tail', c :: tail = text ++ tail' → ¬ Construct givenUp tail' kind text) →
      Derives raw? givenUp tail .stray [c]

variable {P : Prop} {givenUp : Bool} {raw : Option Text} {c : Char} {cs tail text name : Text}
  {kind : Kind} {m : Text} {before after : List Token} {t : Token}

theorem closesElement_iff : ClosesElement name cs ↔ Lexeme.closesRaw name cs := by
  rw [Lexeme.closesRaw_iff]
  constructor
  · rintro ⟨word, rest, rfl, hsame, hrest⟩
    have hlower : word.map Char.toLower = name.map Char.toLower := beq_iff_eq.mp hsame
    have hlen : name.length = word.length := by
      simpa using (congrArg List.length hlower).symm
    refine ⟨word ++ rest, rfl, ?_, ?_⟩
    · rwa [hlen, List.take_left]
    · rwa [hlen, List.drop_left]
  · rintro ⟨ds, rfl, hsame, hrest⟩
    exact ⟨_, _, by rw [List.take_append_drop], hsame, hrest⟩

theorem isRawBody_iff : IsRawBody name text tail ↔
    text ≠ [] ∧ Lexeme.rawLength name (text ++ tail) = text.length := by
  obtain ⟨hfree, hle, hstop⟩ := Lexeme.rawLength_spec name (text ++ tail)
  constructor
  · rintro ⟨hne, hclosed, hfirst⟩
    refine ⟨hne, ?_⟩
    rcases Nat.lt_trichotomy (Lexeme.rawLength name (text ++ tail)) text.length with hlt | heq | hgt
    · have hcloses := hstop (by rw [List.length_append]; omega)
      rw [List.drop_append_of_le_length (Nat.le_of_lt hlt), ← closesElement_iff] at hcloses
      refine absurd hcloses (hfirst _ _ (List.take_append_drop _ _).symm ?_)
      exact List.ne_nil_of_length_pos (by rw [List.length_drop]; omega)
    · exact heq
    · have hcloses := hfree _ hgt
      rw [List.drop_left] at hcloses
      rcases hclosed with rfl | hclosed
      · simp only [List.append_nil] at hle hgt
        omega
      · rw [closesElement_iff, hcloses] at hclosed
        cases hclosed
  · rintro ⟨hne, hlen⟩
    rw [hlen] at hfree hstop
    refine ⟨hne, ?_, ?_⟩
    · cases tail with
      | nil => exact .inl rfl
      | cons d tail =>
        have hcloses := hstop (by simp)
        rw [List.drop_left] at hcloses
        exact .inr (closesElement_iff.mpr hcloses)
    · rintro xs ys rfl hys hcloses
      have hlt : xs.length < (xs ++ ys).length := by
        have hpos := List.length_pos_iff.mpr hys
        rw [List.length_append]
        omega
      have hfree' := hfree xs.length hlt
      rw [List.append_assoc, List.drop_left] at hfree'
      rw [closesElement_iff, hfree'] at hcloses
      cases hcloses

namespace PlainLexer

theorem gives_unique {x : Lexeme} {kind' : Kind} {text' tail' : Text} (h : x.Gives kind text)
    (h' : x.Gives kind' text') (hcs : text ++ tail = text' ++ tail') :
    kind = kind' ∧ text = text' ∧ tail = tail' := by
  have hlen : text.length = text'.length := h.length.symm.trans h'.length
  obtain ⟨htext, htail⟩ := List.append_inj hcs hlen
  exact ⟨h.kind.symm.trans h'.kind, htext, htail⟩

/-- Where no construct is possible a `<` or `&` stands alone. -/
theorem eq_stray_iff (hg : givenUp ↔ P) : (readOutsideRaw givenUp c cs).1 = .stray ↔
    ∀ kind text tail, c :: cs = text ++ tail → ¬ Construct P tail kind text := by
  constructor
  · intro hstray kind text tail hcs hconstruct
    have hgives := gives_of_construct hg hconstruct hcs.symm
    rw [hstray] at hgives
    exact kind_ne_stray hconstruct hgives.kind.symm
  · intro hnone
    by_contra hne
    obtain ⟨kind, text, tail, hcs, hconstruct⟩ := exists_construct hg hne
    exact hnone kind text tail hcs hconstruct

theorem gives_outside_iff (hg : givenUp ↔ P) (hcs : c :: cs = text ++ tail) :
    (readOutsideRaw givenUp c cs).1.Gives kind text ↔ Construct P tail kind text ∨
      kind = .stray ∧ text = [c] ∧ (c = '<' ∨ c = '&') ∧
        ∀ kind text tail', c :: cs = text ++ tail' → ¬ Construct P tail' kind text := by
  constructor
  · intro h
    by_cases hstray : (readOutsideRaw givenUp c cs).1 = .stray
    · have hnone := (eq_stray_iff hg).mp hstray
      rw [hstray] at h
      refine .inr ⟨h.kind.symm, ?_, ?_, hnone⟩
      · obtain ⟨d, rfl⟩ := List.length_eq_one_iff.mp h.length.symm
        rw [(List.cons.inj hcs).1]
      · by_contra hc
        obtain ⟨hlt, hand⟩ := not_or.mp hc
        obtain ⟨kind, text, tail', hcs', hconstruct⟩ := exists_text P hlt hand cs
        exact hnone kind text tail' hcs' hconstruct
    · obtain ⟨kind', text', tail', hcs', hconstruct⟩ := exists_construct hg hstray
      have hgives := gives_of_construct hg hconstruct hcs'.symm
      obtain ⟨rfl, rfl, rfl⟩ := gives_unique h hgives (hcs.symm.trans hcs')
      exact .inl hconstruct
  · rintro (h | ⟨rfl, rfl, -, hnone⟩)
    · exact gives_of_construct hg h hcs.symm
    · rw [(eq_stray_iff hg).mpr hnone]
      exact ⟨rfl, rfl⟩

theorem read_cases (raw : Option Text) (givenUp : Bool) (c : Char) (cs : Text) :
    ((∀ name ∈ raw, ClosesElement name (c :: cs)) ∧
      read raw givenUp c cs = readOutsideRaw givenUp c cs) ∨
    ∃ name n, raw = some name ∧ Lexeme.rawLength name (c :: cs) = n + 1 ∧
      read raw givenUp c cs = (⟨.rawText, n, none⟩, givenUp) := by
  cases raw with
  | none => exact .inl ⟨nofun, rfl⟩
  | some name =>
    unfold read
    cases hlen : Lexeme.rawLength name (c :: cs) with
    | zero =>
      refine .inl ⟨fun name' hname' ↦ ?_, by simp [hlen]⟩
      obtain rfl := Option.some.inj hname'
      have hcloses := (Lexeme.rawLength_spec name (c :: cs)).2.2 (by simp [hlen])
      rwa [hlen, List.drop_zero, ← closesElement_iff] at hcloses
    | succ n => exact .inr ⟨name, n, rfl, hlen, by simp [hlen]⟩

/-- The lexer reads what the grammar derives. -/
theorem derives_iff (hg : givenUp ↔ P) (hcs : c :: cs = text ++ tail) :
    Derives raw P tail kind text ↔ (read raw givenUp c cs).1.Gives kind text := by
  rcases read_cases raw givenUp c cs with ⟨hclosed, hread⟩ | ⟨name, n, rfl, hlen, hread⟩
  · rw [hread, gives_outside_iff hg hcs]
    constructor
    · intro h
      cases h with
      | rawText hraw hbody =>
        refine absurd (hclosed _ hraw) ?_
        rw [hcs]
        exact hbody.first [] text rfl hbody.ne_nil
      | construct _ hconstruct => exact .inl hconstruct
      | stray _ hc hnone =>
        obtain ⟨rfl, rfl⟩ := List.cons.inj hcs
        exact .inr ⟨rfl, rfl, hc, hnone⟩
    · rintro (hconstruct | ⟨rfl, rfl, hc, hnone⟩)
      · exact .construct (hcs ▸ hclosed) hconstruct
      · obtain ⟨-, rfl⟩ := List.cons.inj hcs
        exact .stray hclosed hc hnone
  · have hopen : ¬ ClosesElement name (c :: cs) := by
      intro hcloses
      rw [Lexeme.rawLength, if_pos (closesElement_iff.mp hcloses)] at hlen
      cases hlen
    rw [hread]
    constructor
    · intro h
      cases h with
      | rawText hraw hbody =>
        obtain rfl := Option.some.inj hraw
        obtain ⟨-, hbody⟩ := isRawBody_iff.mp hbody
        rw [← hcs, hlen] at hbody
        exact ⟨rfl, hbody⟩
      | construct hcloses _ => exact absurd (hcs ▸ hcloses name rfl) hopen
      | stray hcloses _ _ => exact absurd (hcs ▸ hcloses name rfl) hopen
    · rintro ⟨rfl, htext⟩
      refine .rawText rfl (isRawBody_iff.mpr ⟨?_, ?_⟩)
      · rintro rfl
        cases htext
      · rw [← hcs, hlen]
        exact htext

end PlainLexer

theorem Kind.ofTag_of_raw {name raw : Text} (h : rawElements.find? (sameCaseless name) = some raw)
    (edge : Edge) : ofTag name edge = .tag edge := by
  have hsame : sameCaseless name raw := List.find?_some h
  have hlower : lower name = lower raw := beq_iff_eq.mp hsame
  have hmem := List.mem_of_find?_eq_some h
  simp only [rawElements, List.mem_cons, List.not_mem_nil, or_false] at hmem
  simp only [ofTag, sameCaseless, hlower]
  rcases hmem with rfl | rfl
  · cases edge <;> rfl
  · cases edge <;> rfl

theorem slash_suffix_iff {c : Char} {ds : Text} (hds : ds ≠ []) :
    ['/', '>'] <:+ c :: (ds ++ ['>']) ↔ ds[ds.length - 1]? = some '/' := by
  obtain ⟨es, d, rfl⟩ : ∃ es d, ds = es ++ [d] :=
    ⟨_, _, (List.dropLast_append_getLast hds).symm⟩
  have hlast : (es ++ [d])[(es ++ [d]).length - 1]? = some d := by simp
  rw [hlast]
  constructor
  · rintro ⟨front, heq⟩
    have heq' : front ++ ['/', '>'] = (c :: es) ++ [d, '>'] := by simpa using heq
    obtain ⟨-, hend⟩ := List.append_inj' heq' rfl
    exact congrArg some (List.cons.inj hend).1.symm
  · intro hd
    obtain rfl := Option.some.inj hd
    exact ⟨c :: es, by simp⟩

namespace PlainLexer

variable {offset : Nat}

theorem rawElement?_eq_none {t : Token} (h : t.kind ≠ .tag .opening) : t.rawElement? = none :=
  if_neg fun hand ↦ h hand.1

theorem ofComment_ne_tag (body : Text) (edge : Edge) : Kind.ofComment body ≠ .tag edge := by
  unfold Kind.ofComment
  dsimp only
  repeat' split
  all_goals exact nofun

theorem rawElement?_tagLexeme {edge : Edge} {name attributes : Text}
    (hhead : name.head?.any Char.isAlpha)
    (hname : IsRun isNameChar name (attributes ++ '>' :: tail))
    (hcs : cs = edge.slash ++ (name ++ (attributes ++ '>' :: tail))) :
    ((tagLexeme name (edge.slash.length + 1 + name.length + attributes.length) cs).token '<' cs
      offset).rawElement? =
    (tagLexeme name (edge.slash.length + 1 + name.length + attributes.length) cs).raw := by
  obtain ⟨hslash, hedge, -⟩ := slash_cases edge hhead hcs
  obtain ⟨ds, hds⟩ : ∃ ds, ds = edge.slash ++ (name ++ attributes) := ⟨_, rfl⟩
  have hne : ds ≠ [] := by simp [hds, hname.ne_nil]
  have hbody : cs = ds ++ '>' :: tail := by simp [hcs, hds]
  have hmore : edge.slash.length + 1 + name.length + attributes.length = ds.length + 1 := by
    simp only [hds, List.length_append]
    omega
  have hlast : cs[ds.length + 1 - 2]? = ds[ds.length - 1]? := by
    have hpos := List.length_pos_iff.mpr hne
    rw [hbody, List.getElem?_append_left (by omega)]
    rfl
  rw [hmore]
  have htext : ((tagLexeme name (ds.length + 1) cs).token '<' cs offset).text =
      '<' :: (ds ++ ['>']) := by
    rw [Lexeme.token, tagLexeme, hbody, List.take_length_add_append]
    rfl
  have hname' : ((tagLexeme name (ds.length + 1) cs).token '<' cs offset).name? = some name := by
    have hparts : '<' :: (ds ++ ['>']) =
        '<' :: (edge.slash ++ (name ++ (attributes ++ ['>']))) := by simp [hds]
    refine (Token.name?_of_text (htext.trans hparts) (hslash.imp And.left And.left) ?_).1
    refine elementName?_append hhead ⟨hname.ne_nil, hname.all, ?_⟩
    have hstops := hname.stops
    cases attributes with
    | nil => exact Bool.false_ne_true
    | cons d attributes => exact hstops
  simp only [Token.rawElement?, htext, hname', Option.bind_some, slash_suffix_iff hne, ← hlast]
  simp only [Lexeme.token, tagLexeme, hedge]
  cases hfind : rawElements.find? (sameCaseless name) with
  | none => rw [ite_self, ite_self]
  | some raw =>
    rw [Kind.ofTag_of_raw hfind]
    cases edge <;> simp

theorem rawElement?_ofTag (givenUp : Bool) (cs : Text) (offset : Nat) :
    ((ofTag givenUp cs).1.token '<' cs offset).rawElement? = (ofTag givenUp cs).1.raw := by
  by_cases h : (ofTag givenUp cs).1 = .stray
  · rw [h]
    exact rawElement?_eq_none (by simp [Lexeme.token, Lexeme.stray])
  · obtain ⟨edge, name, attributes, tail, hcs, hhead, hname, hclose⟩ := exists_of_ofTag h
    obtain ⟨hslash, -⟩ := slash_cases edge hhead hcs
    rw [ofTag_eq hcs hslash (elementName?_append hhead hname) hclose]
    exact rawElement?_tagLexeme hhead hname hcs

/-- The lexer knows which raw element is open from the token that it has just read. -/
theorem rawElement?_read (raw : Option Text) (givenUp : Bool) (c : Char) (cs : Text)
    (offset : Nat) :
    ((read raw givenUp c cs).1.token c cs offset).rawElement? = (read raw givenUp c cs).1.raw := by
  rcases read_cases raw givenUp c cs with ⟨-, hread⟩ | ⟨name, n, -, -, hread⟩
  · rw [hread]
    unfold readOutsideRaw
    split
    · rename_i hc
      subst hc
      unfold ofMarkup
      split
      · exact rawElement?_eq_none (ofComment_ne_tag _ _)
      · split
        · unfold ofDeclaration
          split <;> exact rawElement?_eq_none (by simp [Lexeme.token, Lexeme.stray])
        · exact rawElement?_ofTag givenUp cs offset
    · split
      · rw [ofReference_raw]
        rcases Lexeme.ofReference_kind cs with hkind | ⟨form, hkind⟩ <;>
          exact rawElement?_eq_none (by simp [Lexeme.token, hkind])
      · refine rawElement?_eq_none ?_
        unfold Lexeme.ofText Lexeme.token
        dsimp only
        split <;> simp
  · rw [hread]
    exact rawElement?_eq_none (by simp [Lexeme.token])

theorem more_le_length (raw : Option Text) (givenUp : Bool) (c : Char) (cs : Text) :
    (read raw givenUp c cs).1.more ≤ cs.length := by
  rcases read_cases raw givenUp c cs with ⟨-, hread⟩ | ⟨name, n, -, hlen, hread⟩
  · rw [hread]
    by_cases hstray : (readOutsideRaw givenUp c cs).1 = .stray
    · rw [hstray]
      exact Nat.zero_le _
    · obtain ⟨kind, text, tail, hcs, hconstruct⟩ := exists_construct Iff.rfl hstray
      have hlength := (gives_of_construct Iff.rfl hconstruct hcs.symm).length
      have hsum := congrArg List.length hcs
      rw [List.length_cons, List.length_append] at hsum
      omega
  · have hle := (Lexeme.rawLength_spec name (c :: cs)).2.1
    rw [hlen, List.length_cons] at hle
    rw [hread]
    exact Nat.le_of_succ_le_succ hle

theorem gives_iff (offset : Nat) (hcs : c :: cs = text ++ tail) :
    (read raw givenUp c cs).1.Gives kind text ↔
      kind = ((read raw givenUp c cs).1.token c cs offset).kind ∧
        text = ((read raw givenUp c cs).1.token c cs offset).text := by
  have hle := more_le_length raw givenUp c cs
  generalize (read raw givenUp c cs).1 = x at hle
  constructor
  · rintro ⟨rfl, hlen⟩
    refine ⟨rfl, ?_⟩
    have htake : (c :: cs).take (x.more + 1) = text := by rw [hcs, hlen, List.take_left]
    exact htake.symm
  · rintro ⟨rfl, rfl⟩
    refine ⟨rfl, ?_⟩
    rw [Lexeme.token, List.length_cons, List.length_take_of_le hle]

theorem getLast?_cons_bind (u : Token) (before : List Token) (raw : Option Text) :
    (((u :: before).getLast?).map Token.rawElement?).getD raw =
      (before.getLast?.map Token.rawElement?).getD u.rawElement? := by
  rw [List.getLast?_cons]
  cases before.getLast? <;> rfl

theorem derives_tokensFrom (h : tokensFrom raw givenUp offset cs = before ++ t :: after)
    (hcs : (t :: after).flatMap Token.text = text ++ tail) :
    Derives ((before.getLast?.map Token.rawElement?).getD raw)
      (givenUp ∨ GivenUp before (t :: after)) tail kind text ↔ kind = t.kind ∧ text = t.text := by
  induction before generalizing raw givenUp offset cs with
  | nil =>
    obtain ⟨c, ds, rfl, ht, -⟩ := exists_cons_of_tokensFrom h
    have hall := flatMap_text_tokensFrom raw givenUp offset (c :: ds)
    rw [h, List.nil_append, hcs] at hall
    have hg : givenUp ↔ givenUp ∨ GivenUp [] (t :: after) := by
      simp only [not_givenUp_nil, or_false]
    rw [List.getLast?_nil, Option.map_none, Option.getD_none, derives_iff hg hall.symm, ht]
    exact gives_iff offset hall.symm
  | cons u before ih =>
    obtain ⟨c, ds, rfl, hu, hrest⟩ := exists_cons_of_tokensFrom h
    have hih := ih hrest.symm
    have hgiven := read_givenUp raw givenUp c ds offset
    have htail := congrArg (List.flatMap Token.text) hrest
    rw [flatMap_text_tokensFrom] at htail
    rw [← rawElement?_read raw givenUp c ds offset, hgiven, ← hu, ← htail] at hih
    have hsame : (givenUp ∨ GivenUp (u :: before) (t :: after)) ↔
        (givenUp || u.hides ((before ++ t :: after).flatMap Token.text)) ∨
          GivenUp before (t :: after) := by
      rw [givenUp_cons_iff, Bool.or_eq_true, or_assoc]
      simp [Token.hides, Token.Hidden]
    rwa [getLast?_cons_bind, propext hsame]

end PlainLexer

theorem tag_of_construct (h : Construct P tail t.kind t.text) (ht : t.isTag) :
    ∃ name edge, t.name? = some name ∧ t.kind = .ofTag name edge ∧ ['>'] <:+ t.text := by
  have hcomment {body : Text} (hkind : CommentKind body t.kind) (hname : t.name? = none) :
      ∃ name edge, t.name? = some name ∧ t.kind = .ofTag name edge ∧ ['>'] <:+ t.text := by
    rw [Token.isTag_of_ofComment (commentKind_iff.mp hkind) hname] at ht
    cases ht
  obtain ⟨kind, text, offset⟩ := t
  cases h with
  | comment _ _ hkind => exact hcomment hkind rfl
  | openComment _ _ _ hkind => exact hcomment hkind rfl
  | @tag edge name attributes hhead hname _ =>
    refine ⟨name, edge, (Token.name?_of_text rfl edge.slash_eq ?_).1, rfl, ?_⟩
    · refine PlainLexer.elementName?_append hhead ⟨hname.ne_nil, hname.all, ?_⟩
      have hstops := hname.stops
      cases attributes with
      | nil => exact Bool.false_ne_true
      | cons d attributes => exact hstops
    · exact ⟨'<' :: (edge.slash ++ (name ++ attributes)), by simp⟩
  | _ => cases ht

theorem derives_iff_eq (hts : tokens m = before ++ t :: after)
    (hcs : (t :: after).flatMap Token.text = text ++ tail) :
    Derives (openRaw? before) (GivenUp before (t :: after)) tail kind text ↔
      kind = t.kind ∧ text = t.text := by
  have hraw : (before.getLast?.map Token.rawElement?).getD none = openRaw? before := by
    rw [openRaw?]
    cases before.getLast? <;> rfl
  rw [PlainLexer.tokens_eq] at hts
  rw [← PlainLexer.derives_tokensFrom hts hcs, hraw]
  simp only [Bool.false_eq_true, false_or]

theorem tag_of_tokens (hts : tokens m = before ++ t :: after) (ht : t.isTag) :
    ∃ name edge, t.name? = some name ∧ t.kind = .ofTag name edge ∧ ['>'] <:+ t.text := by
  have hderives := (derives_iff_eq hts rfl).mpr ⟨rfl, rfl⟩
  obtain ⟨kind, text, offset⟩ := t
  cases hderives with
  | rawText => cases ht
  | construct _ hconstruct => exact tag_of_construct hconstruct ht
  | stray => cases ht

/-- Each token is the one that the grammar derives where it stands, and a tag has the kind that its
name calls for. -/
theorem derives_tokens (hts : tokens m = before ++ t :: after) :
    (∀ kind text tail, (t :: after).flatMap Token.text = text ++ tail →
      (Derives (openRaw? before) (GivenUp before (t :: after)) tail kind text ↔
        kind = t.kind ∧ text = t.text)) ∧
    (t.isTag → ∃ name edge, t.name? = some name ∧ t.kind = .ofTag name edge ∧
      ['>'] <:+ t.text) := by
  constructor
  · intro kind text tail hcs
    exact derives_iff_eq hts hcs
  · exact tag_of_tokens hts

theorem derives_tokens_script :
    tokens "<script>a</b></Script >".toList =
      [⟨.tag .opening, "<script>".toList, 0⟩] ++ ⟨.rawText, "a</b>".toList, 8⟩ ::
        [⟨.tag .closing, "</Script >".toList, 13⟩] ∧
    ∀ kind text tail, "a</b></Script >".toList = text ++ tail →
      (Derives (some "script".toList) (GivenUp [⟨.tag .opening, "<script>".toList, 0⟩]
        [⟨.rawText, "a</b>".toList, 8⟩, ⟨.tag .closing, "</Script >".toList, 13⟩]) tail kind text ↔
        kind = .rawText ∧ text = "a</b>".toList) := by
  have h : tokens "<script>a</b></Script >".toList =
      [⟨.tag .opening, "<script>".toList, 0⟩] ++ ⟨.rawText, "a</b>".toList, 8⟩ ::
        [⟨.tag .closing, "</Script >".toList, 13⟩] := by
    decide +kernel
  exact ⟨h, (derives_tokens h).1⟩

end MarkupText
