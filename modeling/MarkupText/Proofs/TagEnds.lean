import MarkupText.Proofs.References
import MarkupText.Proofs.TagScans

namespace MarkupText

namespace Token

/-- The token is a start or an end tag. A comment that stands for a tag `noindex` is none. -/
def isTag (t : Token) : Bool :=
  match t.kind with
  | .tag _ | .title _ | .head _ | .anchor _ | .image | .frame | .base | .metadata => true
  | .noIndex _ => t.name?.isSome
  | _ => false

def afterName (t : Token) : Text :=
  match t.text with
  | '<' :: cs => (afterSlash cs).drop (t.name?.getD []).length
  | _ => []

/-- The tag ends where `scan` does that starts right after its name, as `tail` follows the tag. -/
def EndsBy (scan : Text → Option Nat) (t : Token) (tail : Text) : Prop :=
  (scan (t.afterName ++ tail)).map (· + 1) = some t.afterName.length

/-- Quoted values hide each `>` after the name from a scan that starts there. -/
def Hidden (t : Token) (tail : Text) : Prop :=
  ScanState.outside.scan (t.afterName ++ tail) = none

variable {t : Token}

theorem endsBy_iff_of_endsBy {scan scan' : Text → Option Nat} {tail : Text}
    (h : t.EndsBy scan tail) :
    t.EndsBy scan' tail ↔ scan' (t.afterName ++ tail) = scan (t.afterName ++ tail) := by
  rw [EndsBy] at h ⊢
  rw [← h]
  exact (Option.map_injective (fun _ _ ↦ Nat.succ.inj)).eq_iff

theorem isTag_of_ofTag {name : Text} {edge : Edge} (hkind : t.kind = .ofTag name edge)
    (hname : t.name?.isSome) : t.isTag := by
  unfold Kind.ofTag at hkind
  dsimp only at hkind
  repeat' split at hkind
  all_goals simp [isTag, hkind, hname]

theorem isTag_of_ofComment {body : Text} (hkind : t.kind = .ofComment body)
    (hname : t.name? = none) : t.isTag = false := by
  unfold Kind.ofComment at hkind
  dsimp only at hkind
  repeat' split at hkind
  all_goals simp [isTag, hkind, hname]

end Token

theorem elementName?_eq_some_iff {cs name : Text} : elementName? cs = some name ↔
    ∃ rest, cs = name ++ rest ∧ name.head?.any Char.isAlpha ∧ (∀ c ∈ name, isNameChar c) ∧
      rest.takeWhile isNameChar = [] := by
  unfold elementName?
  constructor
  · intro h
    split at h
    · rename_i hhead
      obtain rfl := Option.some.inj h
      refine ⟨cs.dropWhile isNameChar, List.takeWhile_append_dropWhile.symm, ?_, ?_, ?_⟩
      · cases cs with
        | nil => cases hhead
        | cons c cs =>
          have hc : isNameChar c := by
            simp only [List.head?_cons, Option.any_some] at hhead
            simp [isNameChar, Char.isAlphanum, hhead]
          simpa [List.takeWhile_cons, hc] using hhead
      · exact fun c hc ↦ List.all_eq_true.mp List.all_takeWhile c hc
      · have hstop := List.head?_dropWhile_not isNameChar cs
        cases hrest : cs.dropWhile isNameChar with
        | nil => rfl
        | cons c rest =>
          rw [hrest] at hstop
          exact List.takeWhile_cons_of_neg (by simpa using hstop)
    · cases h
  · rintro ⟨rest, rfl, hhead, hname, hrest⟩
    rw [List.takeWhile_append_of_pos hname, hrest, List.append_nil, if_pos]
    cases name with
    | nil => cases hhead
    | cons c name => exact hhead

theorem elementName?_take {name rest : Text} (h : elementName? (name ++ rest) = some name)
    (n : Nat) : elementName? (name ++ rest.take n) = some name := by
  obtain ⟨rest', heq, hhead, hname, hrest⟩ := elementName?_eq_some_iff.mp h
  obtain rfl := List.append_cancel_left heq
  refine elementName?_eq_some_iff.mpr ⟨_, rfl, hhead, hname, ?_⟩
  cases rest with
  | nil => simp
  | cons c rest =>
    cases n with
    | zero => rfl
    | succ n =>
      rw [List.take_succ_cons, List.takeWhile_cons_of_neg]
      intro hc
      rw [List.takeWhile_cons_of_pos hc] at hrest
      cases hrest

theorem afterSlash_of_elementName? {cs name : Text} (h : elementName? cs = some name) :
    afterSlash cs = cs := by
  unfold afterSlash
  split
  · cases h
  · rfl

theorem exists_slash (cs : Text) : ∃ slash, cs = slash ++ afterSlash cs ∧
    (slash = [] ∧ cs.head? ≠ some '/' ∨ slash = ['/'] ∧ cs.head? = some '/') := by
  unfold afterSlash
  split
  · exact ⟨['/'], rfl, .inr ⟨rfl, rfl⟩⟩
  · rename_i hslash
    refine ⟨[], rfl, .inl ⟨rfl, ?_⟩⟩
    intro hhead
    obtain ⟨cs, rfl⟩ := List.head?_eq_some_iff.mp hhead
    exact hslash cs rfl

/-- A tag has `<` and `slash` before its name. -/
theorem lead_eq {slash cs : Text}
    (h : slash = [] ∧ cs.head? ≠ some '/' ∨ slash = ['/'] ∧ cs.head? = some '/') :
    (if (if cs.head? = some '/' then Edge.closing else .opening) = .closing then 2 else 1) =
      slash.length + 1 := by
  rcases h with ⟨rfl, hhead⟩ | ⟨rfl, hhead⟩ <;> simp [hhead]

theorem drop_slash {m slash cs : Text} {pos : Nat} (h : m.drop pos = '<' :: cs)
    (hslash : cs = slash ++ afterSlash cs) : m.drop (pos + (slash.length + 1)) = afterSlash cs := by
  have hcut : '<' :: cs = ('<' :: slash) ++ afterSlash cs := congrArg ('<' :: ·) hslash
  rw [← List.drop_drop, h, hcut]
  exact List.drop_left

theorem drop_text {m cs : Text} {pos : Nat} {c : Char} (h : c :: cs = m.drop pos) (n : Nat) :
    cs.drop n = m.drop (pos + (c :: cs.take n).length) := by
  have hcut : c :: cs = (c :: cs.take n) ++ cs.drop n := by
    rw [List.cons_append, List.take_append_drop]
  rw [← List.drop_drop, ← h]
  exact List.drop_left.symm.trans (congrArg (List.drop _) hcut.symm)

theorem Token.name?_of_text {t : Token} {slash name attrs : Text}
    (htext : t.text = '<' :: (slash ++ (name ++ attrs))) (hslash : slash = [] ∨ slash = ['/'])
    (hname : elementName? (name ++ attrs) = some name) :
    t.name? = some name ∧ t.afterName = attrs := by
  have hafter : afterSlash (slash ++ (name ++ attrs)) = name ++ attrs := by
    rcases hslash with rfl | rfl
    · exact afterSlash_of_elementName? hname
    · rfl
  have hname' : t.name? = some name := by
    rw [Token.name?, htext]
    simp only [hafter, hname]
  refine ⟨hname', ?_⟩
  rw [Token.afterName, htext]
  simp only [hafter, hname', Option.getD_some, List.drop_left]

def Lexeme.token (x : Lexeme) (c : Char) (cs : Text) (offset : Nat) : Token :=
  ⟨x.kind, c :: cs.take x.more, offset⟩

structure TagStep (m : Text) (s : TagSearch) (pos : Nat) (c : Char) (cs : Text) (offset : Nat)
    (x : Lexeme × TagSearch) : Prop where
  sound : x.2.Sound m (pos + (x.1.token c cs offset).text.length)
  ends : (x.1.token c cs offset).isTag →
    (x.1.token c cs offset).EndsBy (tagClose s.givenUp)
      (cs.drop x.1.more)
  givenUp : x.2.givenUp ↔ s.givenUp ∨ (x.1.token c cs offset).isTag ∧
    (x.1.token c cs offset).Hidden (cs.drop x.1.more)

variable {m cs : Text} {s : TagSearch} {pos : Nat} {c : Char} {offset : Nat}

theorem TagStep.of_not_isTag {x : Lexeme × TagSearch} (hsound : x.2.Sound m pos)
    (hgiven : x.2.givenUp = s.givenUp) (h : (x.1.token c cs offset).isTag = false) :
    TagStep m s pos c cs offset x := by
  refine ⟨hsound.mono (Nat.le_add_right _ _), ?_, ?_⟩
  · intro htag
    simp [h] at htag
  · simp [h, hgiven]

theorem tagStep_of_tagClose {x : Lexeme × TagSearch} {slash name rest : Text} {n : Nat}
    {edge : Edge} (hsound : x.2.Sound m (pos + (slash.length + 1) + name.length))
    (hgiven : x.2.givenUp ↔ s.givenUp ∨
      (firstClose rest).isSome ∧ ScanState.outside.scan rest = none)
    (hkind : x.1.kind = .ofTag name edge)
    (hmore : x.1.more = slash.length + (name.length + (n + 1)))
    (hcs : cs = slash ++ (name ++ rest)) (hslash : slash = [] ∨ slash = ['/'])
    (hname : elementName? (name ++ rest) = some name)
    (hn : tagClose s.givenUp rest = some n) : TagStep m s pos '<' cs offset x := by
  have hlt : n < rest.length := (List.getElem?_eq_some_iff.mp (ScanState.getElem?_tagClose hn)).1
  have htake : cs.take x.1.more = slash ++ (name ++ rest.take (n + 1)) := by
    rw [hmore, hcs, List.take_length_add_append, List.take_length_add_append]
  have hdrop : cs.drop x.1.more = rest.drop (n + 1) := by
    rw [hmore, hcs, List.drop_length_add_append, List.drop_length_add_append]
  have htext : (x.1.token '<' cs offset).text =
      '<' :: (slash ++ (name ++ rest.take (n + 1))) := congrArg ('<' :: ·) htake
  obtain ⟨hname', hafter⟩ := Token.name?_of_text htext hslash (elementName?_take hname (n + 1))
  have hrest : (x.1.token '<' cs offset).afterName ++ cs.drop x.1.more = rest := by
    rw [hafter, hdrop, List.take_append_drop]
  have htag : (x.1.token '<' cs offset).isTag :=
    Token.isTag_of_ofTag hkind (Option.isSome_iff_exists.mpr ⟨name, hname'⟩)
  refine ⟨hsound.mono ?_, ?_, ?_⟩
  · rw [htext]
    simp only [List.length_cons, List.length_append]
    omega
  · intro _
    rw [Token.EndsBy, hrest, hn, hafter, List.length_take, Nat.min_eq_left hlt, Option.map_some]
  · have hfirst := (ScanState.firstClose_isSome_iff s.givenUp).mpr (Option.isSome_of_eq_some hn)
    rw [hgiven, Token.Hidden, hrest]
    simp only [hfirst, htag, true_and]

theorem tagStep_ofTag (h : s.Sound m pos) (hcs : '<' :: cs = m.drop pos) :
    TagStep m s pos '<' cs offset (Lexeme.ofTag s pos cs) := by
  obtain ⟨slash, hslash, hcase⟩ := exists_slash cs
  unfold Lexeme.ofTag
  dsimp only
  cases hname : elementName? (afterSlash cs) with
  | none => exact .of_not_isTag h rfl rfl
  | some name =>
    dsimp only
    obtain ⟨rest, hrest, -⟩ := elementName?_eq_some_iff.mp hname
    rw [lead_eq hcase, hrest, List.drop_left]
    have hdrop : rest = m.drop (pos + (slash.length + 1) + name.length) := by
      rw [← List.drop_drop, drop_slash hcs.symm hslash, hrest, List.drop_left]
    have hle : pos ≤ pos + (slash.length + 1) + name.length := by omega
    have hspec := h.tagEnd_spec hle
    rw [← hdrop] at hspec
    obtain ⟨hfound, hsound, hsame, hgiven⟩ := hspec
    split
    · rename_i s' hx
      rw [hx] at hfound hsame hgiven
      refine .of_not_isTag (hsame rfl) (Bool.eq_iff_iff.mpr ?_) rfl
      rw [hgiven, ScanState.firstClose_isSome_iff s.givenUp,
        Option.map_eq_none_iff.mp hfound.symm]
      simp
    · rename_i i s' hx
      rw [hx] at hfound hsound hgiven
      obtain ⟨n, hn, rfl⟩ := Option.map_eq_some_iff.mp hfound.symm
      refine tagStep_of_tagClose hsound hgiven rfl ?_ (hrest ▸ hslash) ?_ (hrest ▸ hname) hn
      · dsimp only
        omega
      · exact hcase.imp And.left And.left

theorem tagStep_ofDeclaration (h : s.Sound m pos) (hcs : '<' :: cs = m.drop pos) :
    TagStep m s pos '<' cs offset (Lexeme.ofDeclaration s pos cs) := by
  have hdrop : cs = m.drop (pos + 1) := by
    rw [← List.tail_drop, ← hcs, List.tail_cons]
  have hsound := h.renew_close (pos + 1)
  rw [← hdrop] at hsound
  refine .of_not_isTag hsound rfl ?_
  rcases Lexeme.ofDeclaration_kind s pos cs with hkind | hkind <;>
    simp [Token.isTag, Lexeme.token, hkind]

theorem tagStep_ofComment {ds : Text} (h : s.Sound m pos) :
    TagStep m s pos '<' ('!' :: ds) offset (Lexeme.ofComment (('!' :: ds).drop 3), s) := by
  refine .of_not_isTag h rfl (Token.isTag_of_ofComment rfl ?_)
  simp only [Lexeme.token, Lexeme.ofComment, Token.name?, Nat.add_assoc, Nat.add_comm 3]
  rfl

theorem tagStep_ofReference (h : s.Sound m pos) :
    TagStep m s pos c cs offset (Lexeme.ofReference cs, s) := by
  refine .of_not_isTag h rfl ?_
  rcases Lexeme.ofReference_kind cs with hkind | ⟨form, hkind⟩ <;>
    simp [Token.isTag, Lexeme.token, hkind]

theorem tagStep_ofText (h : s.Sound m pos) :
    TagStep m s pos c cs offset (Lexeme.ofText c cs, s) := by
  refine .of_not_isTag h rfl ?_
  unfold Lexeme.ofText Lexeme.token
  dsimp only
  split <;> rfl

theorem tagStep_read (h : s.Sound m pos) (hcs : c :: cs = m.drop pos) (raw : Option Text)
    (offset : Nat) :
    TagStep m s pos c cs offset (Lexeme.read raw s pos c cs) := by
  unfold Lexeme.read
  split
  · exact .of_not_isTag h rfl rfl
  · split
    · rename_i hc
      subst hc
      unfold Lexeme.ofMarkup
      split
      · rename_i hprefix
        obtain ⟨ds, rfl⟩ := List.isPrefixOf_iff_prefix.mp hprefix
        exact tagStep_ofComment h
      · split
        · exact tagStep_ofDeclaration h hcs
        · exact tagStep_ofTag h hcs
    · split
      · exact tagStep_ofReference h
      · exact tagStep_ofText h

/-- Quoted values have hidden each `>` from the scan of one of the tags `before`. -/
def GivenUp (before after : List Token) : Prop :=
  ∃ front u back, before = front ++ u :: back ∧ u.isTag ∧
    u.Hidden ((back ++ after).flatMap Token.text)

variable {t u : Token} {before after : List Token}

theorem not_givenUp_nil : ¬ GivenUp [] after := by
  rintro ⟨front, u, back, h, -⟩
  cases front <;> cases h

theorem givenUp_cons_iff : GivenUp (u :: before) after ↔
    u.isTag ∧ u.Hidden ((before ++ after).flatMap Token.text) ∨ GivenUp before after := by
  constructor
  · rintro ⟨front, v, back, h, hv⟩
    cases front with
    | nil =>
      obtain ⟨rfl, rfl⟩ := List.cons.inj h
      exact .inl hv
    | cons w front =>
      obtain ⟨-, rfl⟩ := List.cons.inj h
      exact .inr ⟨front, v, back, rfl, hv⟩
  · rintro (hu | ⟨front, v, back, rfl, hv⟩)
    · exact ⟨[], u, before, rfl, hu⟩
    · exact ⟨u :: front, v, back, rfl, hv⟩

/-- The search for tag ends gives up at the first tag that hides each `>`, and for good. -/
theorem endsBy_tokensFrom {raw : Option Text} (h : s.Sound m pos) (hcs : cs = m.drop pos)
    (hts : tokensFrom raw s pos offset cs = before ++ t :: after) (ht : t.isTag) :
    ∃ givenUp : Bool, (givenUp ↔ s.givenUp ∨ GivenUp before (t :: after)) ∧
      t.EndsBy (tagClose givenUp) (after.flatMap Token.text) := by
  fun_induction tokensFrom raw s pos offset cs generalizing before with
  | case1 => simp at hts
  | case2 raw s pos offset c cs lexeme s' hread text =>
    rename_i ih
    have hstep := tagStep_read h hcs raw offset
    rw [hread] at hstep
    have hrest := flatMap_text_tokensFrom lexeme.raw s' (pos + text.length)
      (offset + Text.byteLength text) (cs.drop lexeme.more)
    cases before with
    | nil =>
      obtain ⟨rfl, rfl⟩ := List.cons.inj hts
      refine ⟨s.givenUp, ?_, ?_⟩
      · simp only [not_givenUp_nil, or_false]
      · rw [hrest]
        exact hstep.ends ht
    | cons u before =>
      rw [List.cons_append] at hts
      obtain ⟨rfl, htail⟩ := List.cons.inj hts
      obtain ⟨givenUp, hgiven, hends⟩ := ih hstep.sound (drop_text hcs lexeme.more) htail
      refine ⟨givenUp, ?_, hends⟩
      rw [htail] at hrest
      rw [hgiven, hstep.givenUp, givenUp_cons_iff, hrest, or_assoc]
      rfl

/-- A tag ends where the plain scan from its name says, unless an earlier tag has made the search
give up and the first `>` after the name stands in a quoted value of its own. -/
theorem tag_endsBy_iff (hts : tokens m = before ++ t :: after) (ht : t.isTag) :
    (GivenUp before (t :: after) → t.EndsBy firstClose (after.flatMap Token.text)) ∧
    (¬ GivenUp before (t :: after) → t.EndsBy plainEnd (after.flatMap Token.text)) ∧
    (t.EndsBy plainEnd (after.flatMap Token.text) ↔
      ¬ GivenUp before (t :: after) ∨ t.Hidden (after.flatMap Token.text) ∨
        ScanState.outside.scan (t.afterName ++ after.flatMap Token.text) =
          firstClose (t.afterName ++ after.flatMap Token.text)) := by
  obtain ⟨givenUp, hgiven, hends⟩ := endsBy_tokensFrom (TagSearch.sound_empty m)
    (List.drop_zero).symm hts ht
  simp only [TagSearch.givenUp_empty, Bool.false_eq_true, false_or] at hgiven
  rw [← hgiven]
  cases givenUp with
  | false => exact ⟨nofun, fun _ ↦ hends, by simp [show t.EndsBy plainEnd _ from hends]⟩
  | true =>
    have hfirst : t.EndsBy firstClose (after.flatMap Token.text) := hends
    refine ⟨fun _ ↦ hfirst, fun h ↦ absurd rfl h, ?_⟩
    rw [Token.endsBy_iff_of_endsBy hfirst, plainEnd, Token.Hidden]
    cases ScanState.outside.scan (t.afterName ++ after.flatMap Token.text) <;> simp

theorem tag_endsBy_quoted :
    tokens "<p a=\"x>y\">z".toList =
      [] ++ ⟨.tag .opening, "<p a=\"x>y\">".toList, 0⟩ :: [⟨.text, "z".toList, 11⟩] ∧
    Token.EndsBy plainEnd ⟨.tag .opening, "<p a=\"x>y\">".toList, 0⟩ "z".toList := by
  have h : tokens "<p a=\"x>y\">z".toList =
      [] ++ ⟨.tag .opening, "<p a=\"x>y\">".toList, 0⟩ :: [⟨.text, "z".toList, 11⟩] := by
    decide +kernel
  exact ⟨h, (tag_endsBy_iff h rfl).2.1 not_givenUp_nil⟩

/-- The tag `<a='>` makes the search give up, and then the tag `<b=">">` is cut at its first `>`,
though its value ends before the second. -/
theorem not_endsBy_plainEnd : ∃ before t after,
    tokens "<a='><b=\">\">'".toList = before ++ t :: after ∧ t.isTag ∧
      ¬ t.EndsBy plainEnd (after.flatMap Token.text) := by
  refine ⟨[⟨.anchor .opening, "<a='>".toList, 0⟩], ⟨.tag .opening, "<b=\">".toList, 5⟩,
    [⟨.text, "\">'".toList, 10⟩], ?_, rfl, ?_⟩
  · decide +kernel
  · unfold Token.EndsBy
    decide +kernel

end MarkupText
