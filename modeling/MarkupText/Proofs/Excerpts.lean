import MarkupText.Proofs.Copies
import MarkupText.Proofs.Truncations

namespace MarkupText

open Text

def Token.hides (t : Token) (tail : Text) : Bool :=
  t.isTag && (ScanState.outside.scan (t.afterName ++ tail)).isNone

/-- Each tag ends where a search finds its end that sees the tags and `last` after them. The search
has given up before the first of them if `givenUp` says so. -/
def EndWithin (givenUp : Bool) (last : Text) : List Token → Prop
  | [] => True
  | t :: ts =>
    (t.isTag → t.EndsBy (tagClose givenUp) (ts.flatMap Token.text ++ last)) ∧
      EndWithin (givenUp || t.hides (ts.flatMap Token.text ++ last)) last ts

theorem Token.isTag_eq_false_of_shown {t : Token}
    (h : t.kind.isCopied ∨ ∃ form, t.kind = .reference form) :
    t.isTag = false := by
  unfold isTag
  rcases h with h | ⟨form, h⟩
  · unfold Kind.isCopied at h
    split at h
    all_goals simp_all
  · rw [h]

namespace PlainLexer

variable {cs : Text} {c : Char} {givenUp givenUp' : Bool} {raw : Option Text} {offset : Nat}

def memory (givenUp : Bool) : TagSearch := { exhausted? := if givenUp then some 0 else none }

theorem givenUp_memory (givenUp : Bool) : (memory givenUp).givenUp = givenUp := by
  cases givenUp <;> rfl

theorem sound_memory (m : Text) (givenUp : Bool) : (memory givenUp).Sound m 0 := by
  refine ⟨nofun, nofun, nofun, ?_⟩
  intro began hbegan
  exact Nat.le_of_eq (Option.mem_some.mp (Option.mem_ite_none_right.mp hbegan).2).symm

theorem reads_plain (raw : Option Text) (givenUp : Bool) (c : Char) (cs : Text) :
    Reads (Lexeme.read raw (memory givenUp) 0 c cs) (read raw givenUp c cs) := by
  have hreads := reads_read (sound_memory (c :: cs) givenUp) rfl raw
  rwa [givenUp_memory] at hreads

theorem tokensFrom_plain (raw : Option Text) (givenUp : Bool) (offset : Nat) (cs : Text) :
    MarkupText.tokensFrom raw (memory givenUp) 0 offset cs = tokensFrom raw givenUp offset cs := by
  have htokens := tokensFrom_eq (sound_memory cs givenUp) rfl raw offset
  rwa [givenUp_memory] at htokens

theorem flatMap_text_tokensFrom (raw : Option Text) (givenUp : Bool) (offset : Nat) (cs : Text) :
    (tokensFrom raw givenUp offset cs).flatMap Token.text = cs := by
  rw [← tokensFrom_plain, MarkupText.flatMap_text_tokensFrom]

/-- A search gives up at the tags that hide each `>`. -/
theorem read_givenUp (raw : Option Text) (givenUp : Bool) (c : Char) (cs : Text) (offset : Nat) :
    (read raw givenUp c cs).2 =
      (givenUp || ((read raw givenUp c cs).1.token c cs offset).hides
        (cs.drop (read raw givenUp c cs).1.more)) := by
  have hcs : c :: cs = (c :: cs).drop 0 := rfl
  have hstep := tagStep_read (sound_memory (c :: cs) givenUp) hcs raw offset
  obtain ⟨hlexeme, hgiven⟩ := reads_plain raw givenUp c cs
  rw [← hgiven, Bool.eq_iff_iff, hstep.givenUp, hlexeme, givenUp_memory]
  simp [Token.hides, Token.Hidden]

theorem ofTag_raw (givenUp : Bool) (cs : Text) :
    ∀ name ∈ (ofTag givenUp cs).1.raw, name ∈ rawElements := by
  rcases ofTag_cases givenUp cs with heq | ⟨name, more, heq⟩
  · rw [heq]
    exact nofun
  · rw [heq, tagLexeme]
    dsimp only
    intro raw hraw
    exact List.mem_of_find?_eq_some (Option.mem_ite_none_right.mp hraw).2

theorem ofMarkup_raw (givenUp : Bool) (cs : Text) :
    ∀ name ∈ (ofMarkup givenUp cs).1.raw, name ∈ rawElements := by
  unfold ofMarkup
  split
  · exact nofun
  · split
    · unfold ofDeclaration
      split <;> exact nofun
    · exact ofTag_raw givenUp cs

theorem ofReference_raw (cs : Text) : (Lexeme.ofReference cs).raw = none := by
  have hdigits (form : Reference) (isDigit : Char → Bool) (lead : Nat) (cs : Text) :
      (Lexeme.ofDigits form isDigit lead cs).raw = none := by
    unfold Lexeme.ofDigits
    split <;> rfl
  unfold Lexeme.ofReference
  split
  · exact hdigits ..
  · exact hdigits ..
  · exact hdigits ..
  · unfold Lexeme.ofName
    dsimp only
    split <;> rfl

theorem read_raw (raw : Option Text) (givenUp : Bool) (c : Char) (cs : Text) :
    ∀ name ∈ (read raw givenUp c cs).1.raw, name ∈ rawElements := by
  unfold read
  split
  · unfold readOutsideRaw
    split
    · exact ofMarkup_raw givenUp cs
    · split
      · rw [ofReference_raw]
        exact nofun
      · exact nofun
  · exact nofun

theorem isCopied_ofTag (name : Text) (edge : Edge) : (Kind.ofTag name edge).isCopied = false := by
  unfold Kind.ofTag
  dsimp only
  repeat' split
  all_goals rfl

theorem isCopied_ofComment (body : Text) : (Kind.ofComment body).isCopied = false := by
  unfold Kind.ofComment
  dsimp only
  repeat' split
  all_goals rfl

theorem ofMarkup_isCopied (h : (ofMarkup givenUp cs).1.kind.isCopied) :
    (ofMarkup givenUp cs).1 = .stray := by
  unfold ofMarkup at h ⊢
  split at h
  · rw [Lexeme.ofComment_eq, isCopied_ofComment] at h
    cases h
  · rename_i hcomment
    rw [if_neg hcomment]
    split at h
    · rename_i hdeclaration
      rw [if_pos hdeclaration]
      unfold ofDeclaration at h ⊢
      split at h
      · cases h
      · rfl
    · rename_i hdeclaration
      rw [if_neg hdeclaration]
      rcases ofTag_cases givenUp cs with heq | ⟨name, more, heq⟩
      · exact heq
      · rw [heq, tagLexeme, isCopied_ofTag] at h
        cases h

theorem read_text (hlt : c ≠ '<') (hand : c ≠ '&') :
    read none givenUp c cs = (.ofText c cs, givenUp) := by
  rw [read, Option.map_none, Option.getD_none, readOutsideRaw, if_neg hlt, if_neg hand]

/-- What is shown as it stands is a stray character or begins a run of text. -/
theorem read_isCopied (h : (read raw givenUp c cs).1.kind.isCopied) :
    (read raw givenUp c cs).1 = .stray ∨
      raw = none ∧ c ≠ '<' ∧ c ≠ '&' ∧ (read raw givenUp c cs).1 = .ofText c cs := by
  unfold read at h ⊢
  split at h
  · rename_i hraw
    unfold readOutsideRaw at h ⊢
    split at h
    · rename_i hlt
      rw [if_pos hlt]
      exact .inl (ofMarkup_isCopied h)
    · rename_i hlt
      rw [if_neg hlt]
      split at h
      · rename_i hand
        rw [if_pos hand]
        rcases Lexeme.ofReference_cases cs with heq | ⟨form, hform⟩
        · exact .inl heq
        · rw [hform] at h
          cases h
      · rename_i hand
        rw [if_neg hand]
        refine .inr ⟨?_, hlt, hand, rfl⟩
        cases raw with
        | none => rfl
        | some name =>
          rw [Option.map_some, Option.getD_some, Lexeme.rawLength] at hraw
          split at hraw
          · rename_i hcloses
            obtain ⟨ds, hds, -⟩ := Lexeme.closesRaw_iff.mp hcloses
            exact absurd (List.cons.inj hds).1 hlt
          · cases hraw
  · cases h

theorem read_more_le (h : (read raw givenUp c cs).1.kind.isCopied ∨
    ∃ form, (read raw givenUp c cs).1.kind = .reference form) :
    (read raw givenUp c cs).1.more ≤ cs.length := by
  rcases h with h | ⟨form, hform⟩
  · rcases read_isCopied h with heq | ⟨-, -, -, heq⟩
    · rw [heq]
      exact Nat.zero_le _
    · rw [heq]
      exact (List.takeWhile_sublist _).length_le
  · rw [← (reads_plain raw givenUp c cs).lexeme] at hform ⊢
    obtain ⟨-, heq⟩ := Lexeme.read_reference hform
    rw [heq] at hform ⊢
    exact (Lexeme.ofReference_more hform).2.1

theorem tokensFrom_cons (raw : Option Text) (givenUp : Bool) (offset : Nat) (c : Char)
    (cs : Text) : tokensFrom raw givenUp offset (c :: cs) =
      (read raw givenUp c cs).1.token c cs offset ::
        tokensFrom (read raw givenUp c cs).1.raw (read raw givenUp c cs).2
          (offset + byteLength (c :: cs.take (read raw givenUp c cs).1.more))
          (cs.drop (read raw givenUp c cs).1.more) := by
  rw [tokensFrom]
  rfl

theorem exists_cons_of_tokensFrom {t : Token} {ts : List Token}
    (h : tokensFrom raw givenUp offset cs = t :: ts) : ∃ c cs', cs = c :: cs' ∧
      t = (read raw givenUp c cs').1.token c cs' offset ∧
      ts = tokensFrom (read raw givenUp c cs').1.raw (read raw givenUp c cs').2
        (offset + byteLength t.text) (cs'.drop (read raw givenUp c cs').1.more) := by
  cases cs with
  | nil =>
    rw [tokensFrom] at h
    cases h
  | cons c cs =>
    rw [tokensFrom_cons] at h
    obtain ⟨rfl, rfl⟩ := List.cons.inj h
    exact ⟨c, cs, rfl, rfl, rfl⟩

variable {us vs : List Token} {t : Token} {ws zs : Text}

/-- The last token of an excerpt may be cut short if it is a run of text. -/
theorem read_last (givenUp' : Bool) {n : Nat} (hraw : ∀ name ∈ raw, name ∈ rawElements)
    (htake : cs.take (read raw givenUp c cs).1.more = ws ++ zs) (hn : ws.length = n)
    (hkind : (read raw givenUp c cs).1.kind.isCopied ∨
      zs = [] ∧ ∃ form, (read raw givenUp c cs).1.kind = .reference form)
    (hkeeps : KeepsClosings (c :: ws) (cs.drop n)) :
    (read raw givenUp' c ws).1 = { (read raw givenUp c cs).1 with more := n } := by
  have hlen := congrArg List.length htake
  rw [List.length_take, List.length_append, hn] at hlen
  have hws : ws = cs.take n := by
    rw [← Nat.min_eq_left (show n ≤ (read raw givenUp c cs).1.more by omega), ← List.take_take,
      htake, ← hn, List.take_left]
  have hwhole (hmore : (read raw givenUp c cs).1.more = n) :
      (read raw givenUp' c ws).1 = { (read raw givenUp c cs).1 with more := n } := by
    rw [hws] at hkeeps ⊢
    have hshown : (read raw givenUp c cs).1.kind.isCopied ∨
        ∃ form, (read raw givenUp c cs).1.kind = .reference form := hkind.imp_right And.right
    have hkind' : (read raw givenUp c cs).1.kind ≠ .rawText := by
      intro hrawText
      rcases hshown with h | ⟨form, h⟩
      · rw [hrawText] at h
        cases h
      · rw [hrawText] at h
        cases h
    have htag : ¬ ((read raw givenUp c cs).1.token c cs 0).isTag :=
      Bool.not_eq_true _ ▸ Token.isTag_eq_false_of_shown hshown
    rw [read_take 0 hraw (by omega) (Nat.le_of_eq hmore) (fun h ↦ absurd h hkind') hkeeps
      (fun h ↦ absurd h htag), ← hmore]
  rcases hkind with hcopied | ⟨rfl, hform⟩
  · rcases read_isCopied hcopied with hstray | ⟨rfl, hlt, hand, htext⟩
    · refine hwhole ?_
      have hzero : (read raw givenUp c cs).1.more = 0 := by rw [hstray]; rfl
      omega
    · rw [htext] at hlen ⊢
      rw [read_text hlt hand, hws, Lexeme.ofText_take, Nat.min_eq_left (by omega)]
  · refine hwhole ?_
    have hle := read_more_le (.inr hform)
    rw [List.length_nil] at hlen
    omega

/-- A token that is whole in an excerpt begins it as it begins the text. -/
theorem tokensFrom_front {x : Lexeme} {rest es : Text} (givenUp' : Bool) (offset : Nat)
    (hx : (read raw givenUp c cs).1 = x) (hraw : ∀ name ∈ raw, name ∈ rawElements)
    (hdrop : cs.drop x.more = rest ++ es) (hrest : rest ≠ [])
    (hkeeps : KeepsClosings (c :: (cs.take x.more ++ rest)) es)
    (hends : (x.token c cs offset).isTag →
      (x.token c cs offset).EndsBy (tagClose givenUp') rest) :
    tokensFrom raw givenUp' offset (c :: (cs.take x.more ++ rest)) =
      x.token c cs offset :: tokensFrom x.raw (givenUp' || (x.token c cs offset).hides rest)
        (offset + byteLength (c :: cs.take x.more)) rest := by
  have hlen := congrArg List.length hdrop
  rw [List.length_drop, List.length_append] at hlen
  have hpos := List.length_pos_iff.mpr hrest
  have htake : cs.take (x.more + rest.length) = cs.take x.more ++ rest := by
    rw [List.take_add, hdrop, List.take_left]
  have hes : cs.drop (x.more + rest.length) = es := by
    rw [← List.drop_drop, hdrop, List.drop_left]
  have hfront : (cs.take (x.more + rest.length)).take x.more = cs.take x.more := by
    rw [List.take_take, Nat.min_eq_left (Nat.le_add_right _ _)]
  have hback : (cs.take (x.more + rest.length)).drop x.more = rest := by
    rw [List.drop_take, Nat.add_sub_cancel_left, hdrop, List.take_left]
  have htoken : x.token c (cs.take (x.more + rest.length)) offset = x.token c cs offset := by
    rw [Lexeme.token, hfront]
    rfl
  rw [← htake] at hkeeps ⊢
  have hread : (read raw givenUp' c (cs.take (x.more + rest.length))).1 = x := by
    subst hx
    refine read_take offset hraw (by omega) (Nat.le_add_right _ _) (fun _ ↦ by omega)
      (hes.symm ▸ hkeeps) ?_
    rw [hback]
    exact hends
  rw [tokensFrom_cons, read_givenUp _ _ _ _ offset, hread, htoken, hfront, hback]

/-- The tokens of an excerpt are those of the whole text, the last of them cut short. -/
theorem tokensFrom_excerpt (hraw : ∀ name ∈ raw, name ∈ rawElements)
    (hts : tokensFrom raw givenUp offset cs = us ++ t :: vs) (htext : t.text = ws ++ zs)
    (hws : ws ≠ [])
    (hkind : t.kind.isCopied ∨ zs = [] ∧ ∃ form, t.kind = .reference form)
    (hkeeps : KeepsClosings (us.flatMap Token.text ++ ws) (zs ++ vs.flatMap Token.text))
    (hends : EndWithin givenUp' ws us) :
    tokensFrom raw givenUp' offset (us.flatMap Token.text ++ ws) =
      us ++ [⟨t.kind, ws, t.offset⟩] := by
  induction us generalizing raw givenUp givenUp' offset cs with
  | nil =>
    have hall := flatMap_text_tokensFrom raw givenUp offset cs
    rw [hts, List.nil_append, List.flatMap_cons, htext, List.append_assoc] at hall
    obtain ⟨c, cs, rfl, rfl, -⟩ := exists_cons_of_tokensFrom hts
    obtain ⟨d, ws, rfl⟩ := List.exists_cons_of_ne_nil hws
    obtain ⟨rfl, htake⟩ := List.cons.inj htext
    obtain ⟨-, hcs⟩ := List.cons.inj hall
    have hdrop : cs.drop ws.length = zs ++ vs.flatMap Token.text := by
      rw [← hcs]
      exact List.drop_left
    have hlast := read_last givenUp' hraw htake rfl hkind (hdrop ▸ hkeeps)
    rw [List.flatMap_nil, List.nil_append, tokensFrom_cons, hlast]
    simp only [Lexeme.token, List.take_length, List.drop_length, tokensFrom, List.nil_append]
  | cons u us ih =>
    rw [List.cons_append] at hts
    obtain ⟨c, cs, rfl, rfl, hrest⟩ := exists_cons_of_tokensFrom hts
    obtain ⟨hends, hends'⟩ := hends
    have htail := congrArg (List.flatMap Token.text) hrest
    rw [flatMap_text_tokensFrom, List.flatMap_append, List.flatMap_cons, htext, List.append_assoc,
      ← List.append_assoc] at htail
    have hne : us.flatMap Token.text ++ ws ≠ [] := List.append_ne_nil_of_right_ne_nil _ hws
    have hkeeps' : KeepsClosings (us.flatMap Token.text ++ ws) (zs ++ vs.flatMap Token.text) := by
      rw [List.flatMap_cons, List.append_assoc] at hkeeps
      exact hkeeps.of_append
    have hfront := tokensFrom_front givenUp' offset rfl hraw htail.symm hne
      (by simpa [Lexeme.token] using hkeeps) hends
    have hih := ih (read_raw raw givenUp c cs) hrest.symm hkeeps' hends'
    rw [List.flatMap_cons, List.append_assoc, List.cons_append]
    exact hfront.trans (congrArg _ hih)

end PlainLexer

end MarkupText
