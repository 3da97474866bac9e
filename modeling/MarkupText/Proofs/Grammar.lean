import MarkupText.Proofs.Truncations

namespace MarkupText

open Text

def isTextChar (c : Char) : Bool := !isBlank c && c != '<' && c != '&'

/-- The text `cs` is not empty and is all that `p` accepts in front of `tail`. -/
structure IsRun (p : Char → Bool) (cs tail : Text) : Prop where
  ne_nil : cs ≠ []
  all : ∀ c ∈ cs, p c
  stops : ¬ tail.head?.any p

def EndsReference (semicolon tail : Text) : Prop :=
  semicolon = [';'] ∨ semicolon = [] ∧ tail.head? ≠ some ';'

def commentOpen : Text := ['<', '!', '-', '-']

def commentClose : Text := ['-', '-', '>']

def BeginsBody (body : Text) : Prop := ¬ ['>'] <+: body ∧ ¬ ['-', '>'] <+: body

def FirstClosed (body : Text) : Prop := ¬ commentClose <:+: body ++ ['-', '-']

inductive CommentKind (body : Text) : Kind → Prop
  | opening : sameCaseless (trim body) "noindex".toList → CommentKind body (.noIndex .opening)
  | closing : sameCaseless (trim body) "/noindex".toList → CommentKind body (.noIndex .closing)
  | plain : ¬ sameCaseless (trim body) "noindex".toList →
      ¬ sameCaseless (trim body) "/noindex".toList → CommentKind body .comment

def Edge.slash : Edge → Text
  | opening => []
  | closing => ['/']

/-- The tag ends at the `>` after `attributes`: the first outside quoted values, or the first of
all where quoted values hide every one or the search for one has been given up. -/
def EndsTag (givenUp : Prop) (attributes tail : Text) : Prop :=
  (givenUp → firstClose (attributes ++ '>' :: tail) = some attributes.length) ∧
    (¬ givenUp → plainEnd (attributes ++ '>' :: tail) = some attributes.length)

/-- The pieces of markup that can stand before `tail`, each with its kind. -/
inductive Construct (givenUp : Prop) (tail : Text) : Kind → Text → Prop
  | blank {cs : Text} : IsRun isBlank cs tail → Construct givenUp tail .blank cs
  | text {cs : Text} : IsRun isTextChar cs tail → Construct givenUp tail .text cs
  | decimal {digits semicolon : Text} : IsRun Char.isDigit digits (semicolon ++ tail) →
      EndsReference semicolon tail →
      Construct givenUp tail (.reference .decimal) ('&' :: '#' :: (digits ++ semicolon))
  | hexadecimal {x : Char} {digits semicolon : Text} : x = 'x' ∨ x = 'X' →
      IsRun isHexDigit digits (semicolon ++ tail) → EndsReference semicolon tail →
      Construct givenUp tail (.reference .hexadecimal) ('&' :: '#' :: x :: (digits ++ semicolon))
  | named {name : Text} : name.head?.any Char.isAlpha → (∀ c ∈ name, c.isAlphanum) →
      Construct givenUp tail (.reference .named) ('&' :: (name ++ [';']))
  | emptyComment {mark : Text} : mark = ['>'] ∨ mark = ['-', '>'] →
      Construct givenUp tail .comment (commentOpen ++ mark)
  | comment {body : Text} {kind : Kind} : BeginsBody body → FirstClosed body →
      CommentKind body kind → Construct givenUp tail kind (commentOpen ++ (body ++ commentClose))
  | openComment {body : Text} {kind : Kind} : tail = [] → BeginsBody body →
      ¬ commentClose <:+: body → CommentKind body kind →
      Construct givenUp tail kind (commentOpen ++ body)
  | declaration {mark : Char} {body : Text} : mark = '!' ∨ mark = '?' → '>' ∉ body →
      ¬ commentOpen <+: '<' :: mark :: body →
      Construct givenUp tail .declaration ('<' :: mark :: (body ++ ['>']))
  | tag {edge : Edge} {name attributes : Text} : name.head?.any Char.isAlpha →
      IsRun isNameChar name (attributes ++ '>' :: tail) → EndsTag givenUp attributes tail →
      Construct givenUp tail (.ofTag name edge)
        ('<' :: (edge.slash ++ (name ++ (attributes ++ ['>']))))

variable {p : Char → Bool} {c : Char} {cs tail body digits semicolon name attributes : Text}
  {n : Nat} {kind : Kind} {form : Reference} {isDigit : Char → Bool} {lead : Nat}

theorem Edge.slash_eq (edge : Edge) : edge.slash = [] ∨ edge.slash = ['/'] := by
  cases edge
  · exact .inl rfl
  · exact .inr rfl

theorem takeWhile_eq_nil_iff : tail.takeWhile p = [] ↔ ¬ tail.head?.any p := by
  cases tail with
  | nil => simp
  | cons d tail => cases hd : p d <;> simp [hd]

namespace IsRun

theorem takeWhile (h : IsRun p cs tail) : (cs ++ tail).takeWhile p = cs := by
  rw [List.takeWhile_append_of_pos h.all, takeWhile_eq_nil_iff.mpr h.stops, List.append_nil]

theorem head (h : IsRun p cs tail) (hcs : cs ++ tail = c :: body) : p c := by
  obtain ⟨d, ds, rfl⟩ := List.exists_cons_of_ne_nil h.ne_nil
  obtain ⟨rfl, -⟩ := List.cons.inj hcs
  exact h.all d List.mem_cons_self

theorem of_takeWhile (h : cs.takeWhile p ≠ []) : IsRun p (cs.takeWhile p) (cs.dropWhile p) := by
  refine ⟨h, List.all_eq_true.mp List.all_takeWhile, ?_⟩
  have hnot := List.head?_dropWhile_not p cs
  cases hrest : cs.dropWhile p with
  | nil => exact Bool.false_ne_true
  | cons d rest =>
    rw [hrest] at hnot
    simpa using hnot

end IsRun

theorem exists_semicolon (cs : Text) : ∃ semicolon tail, cs = semicolon ++ tail ∧
    EndsReference semicolon tail := by
  by_cases h : cs.head? = some ';'
  · obtain ⟨tail, rfl⟩ := List.head?_eq_some_iff.mp h
    exact ⟨[';'], tail, rfl, .inl rfl⟩
  · exact ⟨[], cs, rfl, .inr ⟨rfl, h⟩⟩

theorem commentKind_iff : CommentKind body kind ↔ kind = .ofComment (trim body) := by
  have hboth (h : sameCaseless (trim body) "noindex".toList)
      (h' : sameCaseless (trim body) "/noindex".toList) : False := by
    have heq := (beq_iff_eq.mp h).symm.trans (beq_iff_eq.mp h')
    revert heq
    decide
  unfold Kind.ofComment
  dsimp only
  constructor
  · intro h
    cases h with
    | opening h => rw [if_pos h]
    | closing h => rw [if_neg (fun h' ↦ hboth h' h), if_pos h]
    | plain h h' => rw [if_neg h, if_neg h']
  · rintro rfl
    split
    · rename_i h
      exact .opening h
    · rename_i h
      split
      · rename_i h'
        exact .closing h'
      · rename_i h'
        exact .plain h h'

theorem endsTag_iff {givenUp : Bool} {P : Prop} (h : givenUp ↔ P) : EndsTag P attributes tail ↔
    tagClose givenUp (attributes ++ '>' :: tail) = some attributes.length := by
  unfold EndsTag tagClose
  cases givenUp with
  | false => simp [← h]
  | true => simp [← h]

theorem prefix_of_not_mem {ds as bs : Text} (h : ds <+: as ++ c :: bs) (hc : c ∉ ds) :
    ds <+: as := by
  rcases List.prefix_or_prefix_of_prefix h (List.prefix_append as (c :: bs)) with hshort | hlong
  · exact hshort
  · obtain ⟨es, rfl⟩ := hlong
    cases es with
    | nil => simp
    | cons e es =>
      have hrest := (List.prefix_append_right_inj as).mp h
      obtain ⟨rfl, -⟩ := List.cons_prefix_cons.mp hrest
      simp at hc

theorem firstClose_append (h : '>' ∉ body) :
    firstClose (body ++ '>' :: tail) = some body.length := by
  have hnone : body.findIdx? (· == '>') = none := by
    refine List.findIdx?_eq_none_iff.mpr fun c hc ↦ ?_
    exact beq_eq_false_iff_ne.mpr fun heq ↦ h (heq ▸ hc)
  rw [firstClose, List.findIdx?_append, hnone, List.findIdx?_cons]
  simp

structure Lexeme.Gives (x : Lexeme) (kind : Kind) (text : Text) : Prop where
  kind : x.kind = kind
  length : x.more + 1 = text.length

namespace Lexeme

theorem ofText_blank (hc : isBlank c) (cs : Text) :
    (ofText c cs).Gives .blank ((c :: cs).takeWhile isBlank) := by
  have hsame : (fun d ↦ d != '<' && d != '&' && isBlank d == isBlank c) = isBlank := by
    funext d
    by_cases hlt : d = '<'
    · subst hlt
      rfl
    · by_cases hand : d = '&'
      · subst hand
        rfl
      · simp [hlt, hand, hc]
  rw [List.takeWhile_cons_of_pos hc]
  refine ⟨by simp [ofText, hc], ?_⟩
  rw [ofText, hsame, List.length_cons]

theorem ofText_text (hc : isTextChar c) (cs : Text) :
    (ofText c cs).Gives .text ((c :: cs).takeWhile isTextChar) := by
  have hblank : isBlank c = false := by
    simp only [isTextChar, Bool.and_eq_true, Bool.not_eq_true'] at hc
    exact hc.1.1
  have hsame : (fun d ↦ d != '<' && d != '&' && isBlank d == isBlank c) = isTextChar := by
    funext d
    rw [hblank, isTextChar]
    cases isBlank d <;> simp
  rw [List.takeWhile_cons_of_pos hc]
  refine ⟨by simp [ofText, hblank], ?_⟩
  rw [ofText, hsame, List.length_cons]

theorem ofDigits_eq (hdigits : IsRun isDigit digits (semicolon ++ tail))
    (hsemicolon : EndsReference semicolon tail) :
    ofDigits form isDigit lead (digits ++ (semicolon ++ tail)) =
      ⟨.reference form, lead + digits.length + semicolon.length, none⟩ := by
  have hget : (digits ++ (semicolon ++ tail))[digits.length]? = (semicolon ++ tail).head? := by
    rw [List.getElem?_append_right (Nat.le_refl _), Nat.sub_self, List.head?_eq_getElem?]
  have hmore : (if (semicolon ++ tail).head? = some ';' then 1 else 0) = semicolon.length := by
    rcases hsemicolon with rfl | ⟨rfl, htail⟩
    · rfl
    · exact if_neg htail
  have hlen := List.length_pos_iff.mpr hdigits.ne_nil
  unfold ofDigits
  rw [hdigits.takeWhile]
  split
  · omega
  · rw [hget, hmore]

theorem exists_of_ofDigits (h : ofDigits form isDigit lead cs ≠ stray) :
    ∃ digits semicolon tail, cs = digits ++ (semicolon ++ tail) ∧
      IsRun isDigit digits (semicolon ++ tail) ∧ EndsReference semicolon tail := by
  have hne : cs.takeWhile isDigit ≠ [] := by
    intro hnil
    exact h (by simp [ofDigits, hnil])
  have hrun := IsRun.of_takeWhile hne
  obtain ⟨semicolon, tail, hrest, hsemicolon⟩ := exists_semicolon (cs.dropWhile isDigit)
  refine ⟨cs.takeWhile isDigit, semicolon, tail, ?_, hrest ▸ hrun, hsemicolon⟩
  rw [← hrest, List.takeWhile_append_dropWhile]

theorem ofName_eq (hhead : name.head?.any Char.isAlpha) (hname : ∀ c ∈ name, c.isAlphanum) :
    ofName (name ++ (';' :: tail)) = ⟨.reference .named, name.length + 1, none⟩ := by
  cases name with
  | nil => cases hhead
  | cons c name =>
    have hrun : IsRun Char.isAlphanum (c :: name) (';' :: tail) :=
      ⟨List.cons_ne_nil c name, hname, Bool.false_ne_true⟩
    unfold ofName
    rw [hrun.takeWhile]
    exact if_pos ⟨hhead, by simp⟩

theorem exists_of_ofName (h : ofName cs ≠ stray) : ∃ name tail, cs = name ++ (';' :: tail) ∧
    name.head?.any Char.isAlpha ∧ ∀ c ∈ name, c.isAlphanum := by
  unfold ofName at h
  dsimp only at h
  split at h
  · rename_i hname
    obtain ⟨hhead, hget⟩ := hname
    have hcs : cs.takeWhile Char.isAlphanum ++ cs.dropWhile Char.isAlphanum = cs :=
      List.takeWhile_append_dropWhile
    rw [← hcs, List.getElem?_append_right (by simp), hcs, Nat.sub_self,
      ← List.head?_eq_getElem?] at hget
    obtain ⟨tail, htail⟩ := List.head?_eq_some_iff.mp hget
    refine ⟨cs.takeWhile Char.isAlphanum, tail, by rw [← htail, hcs], ?_,
      List.all_eq_true.mp List.all_takeWhile⟩
    cases cs with
    | nil => cases hhead
    | cons c cs =>
      have hc : c.isAlphanum := by
        simp only [List.head?_cons, Option.any_some] at hhead
        simp [Char.isAlphanum, hhead]
      rwa [List.takeWhile_cons_of_pos hc]
  · exact absurd rfl h

theorem commentEnd?_eq (h : FirstClosed body) (tail : Text) :
    commentEnd? (body ++ (commentClose ++ tail)) = some body.length := by
  induction body with
  | nil => rfl
  | cons c body ih =>
    rw [FirstClosed, List.cons_append, List.infix_cons_iff, not_or] at h
    rw [List.cons_append, commentEnd?, if_neg, ih h.2]
    · rfl
    · intro hbegins
      refine h.1 (List.prefix_of_prefix_length_le (List.isPrefixOf_iff_prefix.mp hbegins) ?_ ?_)
      · exact ⟨'>' :: tail, by simp [commentClose]⟩
      · simp [commentClose]

theorem exists_of_commentEnd? (h : commentEnd? cs = some n) :
    ∃ body tail, cs = body ++ (commentClose ++ tail) ∧ FirstClosed body := by
  induction cs generalizing n with
  | nil => cases h
  | cons c cs ih =>
    rw [commentEnd?] at h
    split at h
    · rename_i hbegins
      obtain ⟨tail, htail⟩ := List.isPrefixOf_iff_prefix.mp hbegins
      refine ⟨[], tail, htail.symm, fun hinfix ↦ ?_⟩
      exact absurd hinfix.length_le (by decide)
    · rename_i hbegins
      obtain ⟨k, hk, -⟩ := Option.map_eq_some_iff.mp h
      obtain ⟨body, tail, rfl, hfirst⟩ := ih hk
      refine ⟨c :: body, tail, rfl, fun hinfix ↦ ?_⟩
      rcases List.infix_cons_iff.mp hinfix with hstart | hlater
      · refine hbegins (List.isPrefixOf_iff_prefix.mpr (hstart.trans ⟨'>' :: tail, ?_⟩))
        simp [commentClose]
      · exact hfirst hlater

theorem commentEnd?_eq_none_iff : commentEnd? cs = none ↔ ¬ commentClose <:+: cs := by
  induction cs with
  | nil => simp [commentEnd?, commentClose]
  | cons c cs ih =>
    rw [commentEnd?, List.infix_cons_iff, ← List.isPrefixOf_iff_prefix]
    split
    · rename_i hbegins
      simp [commentClose, hbegins]
    · rename_i hbegins
      rw [Option.map_eq_none_iff, ih]
      simp [commentClose, hbegins]

end Lexeme

end MarkupText
