import MarkupText.Proofs.Excerpts
import MarkupText.Proofs.Grammar

namespace MarkupText

open Text

variable {P : Prop} {givenUp : Bool} {c mark : Char} {cs tail text body name attributes : Text}
  {kind : Kind} {edge : Edge}

namespace Lexeme

theorem ofReference_decimal (h : ∀ ds, cs ≠ 'x' :: ds ∧ cs ≠ 'X' :: ds) :
    ofReference ('#' :: cs) = ofDigits .decimal Char.isDigit 1 cs := by
  rw [ofReference]
  · exact fun ds ↦ (h ds).1
  · exact fun ds ↦ (h ds).2

theorem ofReference_hexadecimal {x : Char} (hx : x = 'x' ∨ x = 'X') :
    ofReference ('#' :: x :: cs) = ofDigits .hexadecimal isHexDigit 2 cs := by
  rcases hx with rfl | rfl <;> rfl

theorem ofReference_named (h : cs.head? ≠ some '#') : ofReference cs = ofName cs := by
  rw [ofReference]
  · rintro ds rfl
    exact h rfl
  · rintro ds rfl
    exact h rfl
  · rintro ds rfl
    exact h rfl

theorem not_isPrefixOf_close (hbody : BeginsBody body) (tail : Text) :
    ¬ ['>'].isPrefixOf (body ++ (commentClose ++ tail)) ∧
      ¬ ['-', '>'].isPrefixOf (body ++ (commentClose ++ tail)) := by
  obtain ⟨hempty, hdash⟩ := hbody
  rcases body with _ | ⟨c, _ | ⟨d, body⟩⟩
  · exact ⟨nofun, nofun⟩
  · simpa [commentClose] using hempty
  · exact ⟨by simpa using hempty, by simpa [List.cons_prefix_cons] using hdash⟩

theorem gives_comment (hbody : BeginsBody body) (hfirst : FirstClosed body)
    (hkind : CommentKind body kind) : (ofComment (body ++ (commentClose ++ tail))).Gives kind
      (commentOpen ++ (body ++ commentClose)) := by
  have hparts : commentParts (body ++ (commentClose ++ tail)) = (body.length, 3) := by
    obtain ⟨hempty, hdash⟩ := not_isPrefixOf_close hbody tail
    rw [commentParts, if_neg hempty, if_neg hdash, commentEnd?_eq hfirst tail]
  obtain rfl := commentKind_iff.mp hkind
  rw [ofComment_eq, hparts]
  refine ⟨by rw [List.take_left], ?_⟩
  simp only [commentOpen, commentClose, List.length_append, List.length_cons, List.length_nil]
  omega

theorem gives_openComment (hbody : BeginsBody body) (hclose : ¬ commentClose <:+: body)
    (hkind : CommentKind body kind) : (ofComment body).Gives kind (commentOpen ++ body) := by
  have hparts : commentParts body = (body.length, 0) := by
    obtain ⟨hempty, hdash⟩ := hbody
    rw [← List.isPrefixOf_iff_prefix] at hempty hdash
    rw [commentParts, if_neg hempty, if_neg hdash, commentEnd?_eq_none_iff.mpr hclose]
  obtain rfl := commentKind_iff.mp hkind
  rw [ofComment_eq, hparts]
  refine ⟨by rw [List.take_length], ?_⟩
  simp only [commentOpen, List.length_append, List.length_cons, List.length_nil]
  omega

end Lexeme

namespace PlainLexer

theorem ofMarkup_declaration (hmark : mark = '!' ∨ mark = '?')
    (hcomment : ¬ commentOpen <+: '<' :: mark :: cs) :
    ofMarkup givenUp (mark :: cs) = (ofDeclaration (mark :: cs), givenUp) := by
  have hcomment' : ¬ ['!', '-', '-'].isPrefixOf (mark :: cs) := by
    rw [List.isPrefixOf_iff_prefix]
    exact fun hbegins ↦ hcomment ((List.prefix_cons_inj '<').mpr hbegins)
  unfold ofMarkup
  rw [if_neg hcomment', if_pos]
  rcases hmark with rfl | rfl <;> rfl

theorem ofMarkup_tag (h : ¬ cs.head?.any fun c ↦ c == '!' || c == '?') :
    ofMarkup givenUp cs = ofTag givenUp cs := by
  have hcomment : ¬ ['!', '-', '-'].isPrefixOf cs := by
    intro hbegins
    obtain ⟨ds, rfl⟩ := List.isPrefixOf_iff_prefix.mp hbegins
    exact h rfl
  unfold ofMarkup
  rw [if_neg hcomment, if_neg h]

theorem elementName?_append (hhead : name.head?.any Char.isAlpha)
    (hname : IsRun isNameChar name tail) : elementName? (name ++ tail) = some name :=
  elementName?_eq_some_iff.mpr
    ⟨tail, rfl, hhead, hname.all, takeWhile_eq_nil_iff.mpr hname.stops⟩

theorem slash_cases (edge : Edge) (hhead : name.head?.any Char.isAlpha)
    (hcs : cs = edge.slash ++ (name ++ tail)) :
    (edge.slash = [] ∧ cs.head? ≠ some '/' ∨ edge.slash = ['/'] ∧ cs.head? = some '/') ∧
      (if cs.head? = some '/' then Edge.closing else .opening) = edge ∧
      ¬ cs.head?.any fun c ↦ c == '!' || c == '?' := by
  obtain ⟨c, rest, rfl⟩ : ∃ c rest, name = c :: rest := by
    cases name with
    | nil => cases hhead
    | cons c rest => exact ⟨c, rest, rfl⟩
  have hne {d : Char} (hd : d.isAlpha = false) : c ≠ d := by
    rintro rfl
    exact absurd hhead (by simp [hd])
  subst hcs
  cases edge with
  | opening =>
    have hslash : c ≠ '/' := hne rfl
    have hmark : c ≠ '!' := hne rfl
    have hmark' : c ≠ '?' := hne rfl
    simp [Edge.slash, hslash, hmark, hmark']
  | closing => simp [Edge.slash]

theorem gives_tag (hg : givenUp ↔ P) (hhead : name.head?.any Char.isAlpha)
    (hname : IsRun isNameChar name (attributes ++ '>' :: tail)) (hends : EndsTag P attributes tail)
    (hcs : cs = edge.slash ++ (name ++ (attributes ++ '>' :: tail))) :
    (ofMarkup givenUp cs).1.Gives (.ofTag name edge)
      ('<' :: (edge.slash ++ (name ++ (attributes ++ ['>'])))) := by
  obtain ⟨hslash, hedge, hmark⟩ := slash_cases edge hhead hcs
  have hclose := (endsTag_iff hg).mp hends
  have hname' := elementName?_append hhead hname
  rw [ofMarkup_tag hmark, ofTag_eq hcs hslash hname' hclose, tagLexeme, hedge]
  refine ⟨rfl, ?_⟩
  simp only [List.length_append, List.length_cons, List.length_nil]
  omega

theorem readOutsideRaw_text (hc : c ≠ '<') (hc' : c ≠ '&') :
    readOutsideRaw givenUp c cs = (.ofText c cs, givenUp) := by
  rw [readOutsideRaw, if_neg hc, if_neg hc']

/-- The lexer reads the constructs of the grammar as what they are. -/
theorem gives_of_construct (hg : givenUp ↔ P) (h : Construct P tail kind text)
    (hcs : text ++ tail = c :: cs) : (readOutsideRaw givenUp c cs).1.Gives kind text := by
  cases h with
  | blank hrun =>
    have hc := hrun.head hcs
    have hlt : c ≠ '<' := by
      rintro rfl
      cases hc
    have hand : c ≠ '&' := by
      rintro rfl
      cases hc
    rw [readOutsideRaw_text hlt hand, ← hrun.takeWhile, hcs]
    exact Lexeme.ofText_blank hc cs
  | text hrun =>
    have hc := hrun.head hcs
    have hlt : c ≠ '<' := by
      rintro rfl
      cases hc
    have hand : c ≠ '&' := by
      rintro rfl
      cases hc
    rw [readOutsideRaw_text hlt hand, ← hrun.takeWhile, hcs]
    exact Lexeme.ofText_text hc cs
  | @decimal digits semicolon hdigits hsemicolon =>
    obtain ⟨rfl, rfl⟩ := List.cons.inj hcs
    have hx (ds : Text) : digits ++ (semicolon ++ tail) ≠ 'x' :: ds ∧
        digits ++ (semicolon ++ tail) ≠ 'X' :: ds := by
      refine ⟨fun heq ↦ ?_, fun heq ↦ ?_⟩
      · cases hdigits.head heq
      · cases hdigits.head heq
    change (Lexeme.ofReference ('#' :: (digits ++ semicolon ++ tail))).Gives _ _
    rw [List.append_assoc, Lexeme.ofReference_decimal hx, Lexeme.ofDigits_eq hdigits hsemicolon]
    refine ⟨rfl, ?_⟩
    simp only [List.length_append, List.length_cons]
    omega
  | @hexadecimal x digits semicolon hx hdigits hsemicolon =>
    obtain ⟨rfl, rfl⟩ := List.cons.inj hcs
    change (Lexeme.ofReference ('#' :: x :: (digits ++ semicolon ++ tail))).Gives _ _
    rw [List.append_assoc, Lexeme.ofReference_hexadecimal hx,
      Lexeme.ofDigits_eq hdigits hsemicolon]
    refine ⟨rfl, ?_⟩
    simp only [List.length_append, List.length_cons]
    omega
  | @named name hhead hname =>
    obtain ⟨rfl, rfl⟩ := List.cons.inj hcs
    change (Lexeme.ofReference (name ++ [';'] ++ tail)).Gives _ _
    rw [List.append_assoc, Lexeme.ofReference_named, List.singleton_append,
      Lexeme.ofName_eq hhead hname]
    · exact ⟨rfl, by simp⟩
    · intro hhash
      cases name with
      | nil => cases hhead
      | cons d name =>
        obtain rfl := Option.some.inj hhash
        cases hhead
  | @emptyComment mark hmark =>
    obtain ⟨rfl, rfl⟩ := List.cons.inj hcs
    rcases hmark with rfl | rfl
    · exact ⟨rfl, rfl⟩
    · exact ⟨rfl, rfl⟩
  | @comment body kind hbody hfirst hkind =>
    obtain ⟨rfl, rfl⟩ := List.cons.inj hcs
    change (Lexeme.ofComment (body ++ commentClose ++ tail)).Gives _ _
    rw [List.append_assoc]
    exact Lexeme.gives_comment hbody hfirst hkind
  | @openComment body kind htail hbody hclose hkind =>
    obtain ⟨rfl, rfl⟩ := List.cons.inj hcs
    change (Lexeme.ofComment (body ++ tail)).Gives _ _
    rw [htail, List.append_nil]
    exact Lexeme.gives_openComment hbody hclose hkind
  | @declaration mark body hmark hbody hcomment =>
    obtain ⟨rfl, rfl⟩ := List.cons.inj hcs
    have hclose : '>' ∉ mark :: body := by
      rcases hmark with rfl | rfl <;> simpa using hbody
    have hcomment' : ¬ commentOpen <+: '<' :: mark :: (body ++ '>' :: tail) := by
      intro hbegins
      exact hcomment (prefix_of_not_mem hbegins (by decide))
    change (ofMarkup givenUp (mark :: (body ++ ['>'] ++ tail))).1.Gives _ _
    rw [List.append_assoc, List.singleton_append, ofMarkup_declaration hmark hcomment',
      ofDeclaration, ← List.cons_append, firstClose_append hclose]
    exact ⟨rfl, by simp⟩
  | @tag edge name attributes hhead hname hends =>
    obtain ⟨rfl, rfl⟩ := List.cons.inj hcs
    exact gives_tag hg hhead hname hends (by simp)

theorem kind_ne_stray (h : Construct P tail kind text) : kind ≠ .stray := by
  have hcopied (k : Kind) (hk : k.isCopied = false) : k ≠ .stray := by
    rintro rfl
    cases hk
  cases h with
  | comment _ _ hkind => exact hcopied _ (commentKind_iff.mp hkind ▸ isCopied_ofComment _)
  | openComment _ _ _ hkind => exact hcopied _ (commentKind_iff.mp hkind ▸ isCopied_ofComment _)
  | tag => exact hcopied _ (isCopied_ofTag _ _)
  | _ => exact nofun

theorem exists_text (P : Prop) (hc : c ≠ '<') (hc' : c ≠ '&') (cs : Text) :
    ∃ kind text tail, c :: cs = text ++ tail ∧ Construct P tail kind text := by
  by_cases hblank : isBlank c
  · have hne : (c :: cs).takeWhile isBlank ≠ [] := by
      rw [List.takeWhile_cons_of_pos hblank]
      exact List.cons_ne_nil _ _
    exact ⟨_, _, _, List.takeWhile_append_dropWhile.symm, .blank (.of_takeWhile hne)⟩
  · have htext : isTextChar c := by simp [isTextChar, hblank, hc, hc']
    have hne : (c :: cs).takeWhile isTextChar ≠ [] := by
      rw [List.takeWhile_cons_of_pos htext]
      exact List.cons_ne_nil _ _
    exact ⟨_, _, _, List.takeWhile_append_dropWhile.symm, .text (.of_takeWhile hne)⟩

theorem exists_reference (P : Prop) (h : Lexeme.ofReference cs ≠ .stray) :
    ∃ kind text tail, '&' :: cs = text ++ tail ∧ Construct P tail kind text := by
  by_cases hhash : cs.head? = some '#'
  · obtain ⟨ds, rfl⟩ := List.head?_eq_some_iff.mp hhash
    by_cases hx : ∃ x es, ds = x :: es ∧ (x = 'x' ∨ x = 'X')
    · obtain ⟨x, es, rfl, hx⟩ := hx
      rw [Lexeme.ofReference_hexadecimal hx] at h
      obtain ⟨digits, semicolon, tail, rfl, hdigits, hsemicolon⟩ := Lexeme.exists_of_ofDigits h
      exact ⟨_, _, tail, by simp, .hexadecimal hx hdigits hsemicolon⟩
    · have hdecimal (es : Text) : ds ≠ 'x' :: es ∧ ds ≠ 'X' :: es :=
        ⟨fun heq ↦ hx ⟨_, es, heq, .inl rfl⟩, fun heq ↦ hx ⟨_, es, heq, .inr rfl⟩⟩
      rw [Lexeme.ofReference_decimal hdecimal] at h
      obtain ⟨digits, semicolon, tail, rfl, hdigits, hsemicolon⟩ := Lexeme.exists_of_ofDigits h
      exact ⟨_, _, tail, by simp, .decimal hdigits hsemicolon⟩
  · rw [Lexeme.ofReference_named hhash] at h
    obtain ⟨name, tail, rfl, hhead, hname⟩ := Lexeme.exists_of_ofName h
    exact ⟨_, _, tail, by simp, .named hhead hname⟩

theorem exists_comment (P : Prop) (cs : Text) :
    ∃ kind text tail, commentOpen ++ cs = text ++ tail ∧ Construct P tail kind text := by
  by_cases hempty : ['>'] <+: cs
  · obtain ⟨tail, rfl⟩ := hempty
    exact ⟨_, _, tail, by simp, .emptyComment (.inl rfl)⟩
  · by_cases hdash : ['-', '>'] <+: cs
    · obtain ⟨tail, rfl⟩ := hdash
      exact ⟨_, _, tail, by simp, .emptyComment (.inr rfl)⟩
    · cases hend : Lexeme.commentEnd? cs with
      | none =>
        have hclose := Lexeme.commentEnd?_eq_none_iff.mp hend
        exact ⟨_, _, [], by simp,
          .openComment rfl ⟨hempty, hdash⟩ hclose (commentKind_iff.mpr rfl)⟩
      | some n =>
        obtain ⟨body, tail, rfl, hfirst⟩ := Lexeme.exists_of_commentEnd? hend
        have hbody : BeginsBody body :=
          ⟨fun hbegins ↦ hempty (hbegins.trans (List.prefix_append _ _)),
            fun hbegins ↦ hdash (hbegins.trans (List.prefix_append _ _))⟩
        exact ⟨_, _, tail, by simp, .comment hbody hfirst (commentKind_iff.mpr rfl)⟩

theorem exists_declaration (P : Prop) (hmark : mark = '!' ∨ mark = '?')
    (hcomment : ¬ commentOpen <+: '<' :: mark :: cs) (h : ofDeclaration (mark :: cs) ≠ .stray) :
    ∃ kind text tail, '<' :: mark :: cs = text ++ tail ∧ Construct P tail kind text := by
  have hmem : '>' ∈ mark :: cs := by
    by_contra hnot
    refine h ?_
    have hclose : tagClose true (mark :: cs) = none := tagClose_eq_none_iff.mpr hnot
    change firstClose (mark :: cs) = none at hclose
    rw [ofDeclaration, hclose]
  have hmem' : '>' ∈ cs := by
    rcases List.mem_cons.mp hmem with heq | hmem
    · subst heq
      simp at hmark
    · exact hmem
  obtain ⟨body, tail, rfl, hbody⟩ := List.eq_append_cons_of_mem hmem'
  refine ⟨_, _, tail, by simp, .declaration hmark hbody fun hbegins ↦ ?_⟩
  exact hcomment (hbegins.trans ⟨'>' :: tail, by simp⟩)

theorem exists_of_ofTag (h : (ofTag givenUp cs).1 ≠ .stray) : ∃ edge name attributes tail,
    cs = Edge.slash edge ++ (name ++ (attributes ++ '>' :: tail)) ∧ name.head?.any Char.isAlpha ∧
      IsRun isNameChar name (attributes ++ '>' :: tail) ∧
      tagClose givenUp (attributes ++ '>' :: tail) = some attributes.length := by
  obtain ⟨slash, hslash, hcase⟩ := exists_slash cs
  cases hname : elementName? (afterSlash cs) with
  | none => exact absurd (ofTag_eq_stray_of_name hname) h
  | some name =>
    obtain ⟨rest, hrest, hhead, hchars, hstop⟩ := elementName?_eq_some_iff.mp hname
    cases hclose : tagClose givenUp rest with
    | none =>
      refine absurd ?_ h
      rw [hrest] at hname
      unfold ofTag
      simp only [hrest, hname, List.drop_left, hclose]
    | some k =>
      obtain ⟨hk, hget⟩ := List.getElem?_eq_some_iff.mp (ScanState.getElem?_tagClose hclose)
      have hcut : rest = rest.take k ++ '>' :: rest.drop (k + 1) := by
        rw [← hget, ← List.drop_eq_getElem_cons, List.take_append_drop]
      have hrun : IsRun isNameChar name rest := by
        refine ⟨?_, hchars, takeWhile_eq_nil_iff.mp hstop⟩
        rintro rfl
        cases hhead
      have hedge : ∃ edge, slash = Edge.slash edge := by
        rcases hcase with ⟨rfl, -⟩ | ⟨rfl, -⟩
        · exact ⟨.opening, rfl⟩
        · exact ⟨.closing, rfl⟩
      obtain ⟨edge, rfl⟩ := hedge
      refine ⟨edge, name, rest.take k, rest.drop (k + 1), ?_, hhead, ?_, ?_⟩
      · rw [← hcut, ← hrest, ← hslash]
      · rwa [← hcut]
      · rw [← hcut, hclose, List.length_take_of_le (Nat.le_of_lt hk)]

/-- Where the lexer reads no stray character it reads a construct. -/
theorem exists_construct (hg : givenUp ↔ P) (h : (readOutsideRaw givenUp c cs).1 ≠ .stray) :
    ∃ kind text tail, c :: cs = text ++ tail ∧ Construct P tail kind text := by
  unfold readOutsideRaw at h
  split at h
  · rename_i hc
    subst hc
    by_cases hcomment : commentOpen <+: '<' :: cs
    · obtain ⟨ds, hds⟩ := hcomment
      rw [← hds]
      exact exists_comment P ds
    · by_cases hmark : cs.head?.any fun c ↦ c == '!' || c == '?'
      · cases cs with
        | nil => cases hmark
        | cons mark cs =>
          have hmark' : mark = '!' ∨ mark = '?' := by simpa using hmark
          rw [ofMarkup_declaration hmark' hcomment] at h
          exact exists_declaration P hmark' hcomment h
      · rw [ofMarkup_tag hmark] at h
        obtain ⟨edge, name, attributes, tail, rfl, hhead, hname, hclose⟩ := exists_of_ofTag h
        have hconstruct : Construct P tail (.ofTag name edge) _ :=
          .tag hhead hname ((endsTag_iff hg).mpr hclose)
        exact ⟨_, _, tail, by simp, hconstruct⟩
  · rename_i hlt
    split at h
    · rename_i hand
      subst hand
      exact exists_reference P h
    · rename_i hand
      exact exists_text P hlt hand cs

end PlainLexer

end MarkupText
