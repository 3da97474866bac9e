import MarkupText.Markup.TagEnd
import MarkupText.Proofs.Recalls

namespace MarkupText

/-- Where a scan for the end of a tag stands: outside values, where a value may begin, or in one
that lasts to the next `quote`. -/
inductive ScanState
  | outside
  | atValue
  | quoted (quote : Char)
deriving DecidableEq

namespace ScanState

def isQuote (c : Char) : Bool := c == '"' || c == '\''

def closes (c : Char) : ScanState → Bool
  | quoted _ => false
  | _ => c == '>'

/-- The state after `c` where `cs` follows. A quote that is not closed there opens no value. -/
def next (c : Char) (cs : Text) : ScanState → ScanState
  | outside => if c = '=' then atValue else outside
  | atValue =>
    if c = '=' then atValue
    else if isQuote c ∧ c ∈ cs then quoted c
    else if TagSearch.isGap c then atValue else outside
  | quoted quote => if c = quote then outside else quoted quote

/-- How many characters stand before the first `>` outside quoted values. Nothing that is known
from other tags is used. -/
def scan (s : ScanState) : Text → Option Nat
  | [] => none
  | c :: cs => if s.closes c then some 0 else (scan (s.next c cs) cs).map (· + 1)

def ofBool (isAtValue : Bool) : ScanState := if isAtValue then atValue else outside

end ScanState

def firstClose (cs : Text) : Option Nat := cs.findIdx? (· == '>')

/-- Where a tag ends whose name comes right before `cs`: at the first `>` outside quoted values,
or at the first of all when quoted values hide every one. -/
def plainEnd (cs : Text) : Option Nat := (ScanState.outside.scan cs).or (firstClose cs)

def tagClose (givenUp : Bool) : Text → Option Nat := if givenUp then firstClose else plainEnd

namespace ScanState

open Recall

variable {q : Char} {pos i : Nat} {cs : Text}

theorem scan_cons (s : ScanState) (pos : Nat) (c : Char) (cs : Text) :
    (s.scan (c :: cs)).map (pos + ·) =
      if s.closes c then some pos else ((s.next c cs).scan cs).map (pos + 1 + ·) := by
  rw [scan]
  split
  · rfl
  · rw [Option.map_map]
    congr 1
    funext i
    simp only [Function.comp_apply]
    omega

theorem scan_quoted (h : search (· == q) pos cs = some i) :
    ((quoted q).scan cs).map (pos + ·) =
      (outside.scan (cs.drop (i + 1 - pos))).map (i + 1 + ·) := by
  induction cs generalizing pos with
  | nil => cases h
  | cons c cs ih =>
    rw [search_cons] at h
    rw [scan_cons, if_neg (by simp [closes])]
    split at h
    · rename_i hc
      obtain rfl := Option.some.inj h
      rw [Nat.add_sub_cancel_left, List.drop_succ_cons, List.drop_zero]
      simp only [next, if_pos (beq_iff_eq.mp hc)]
    · rename_i hc
      have hle : pos + 1 ≤ i := by
        obtain ⟨n, -, rfl⟩ := Option.map_eq_some_iff.mp h
        omega
      rw [show i + 1 - pos = i + 1 - (pos + 1) + 1 by omega, List.drop_succ_cons, ← ih h]
      simp only [next, if_neg (fun heq ↦ hc (beq_iff_eq.mpr heq))]

theorem getElem?_scan {s : ScanState} {n : Nat} (h : s.scan cs = some n) : cs[n]? = some '>' := by
  induction cs generalizing s n with
  | nil => cases h
  | cons c cs ih =>
    rw [scan] at h
    split at h
    · rename_i hcloses
      obtain rfl := Option.some.inj h
      cases s with
      | quoted q => cases hcloses
      | outside => simpa [closes] using hcloses
      | atValue => simpa [closes] using hcloses
    · obtain ⟨n, hn, rfl⟩ := Option.map_eq_some_iff.mp h
      exact ih hn

theorem scan_eq_none {s : ScanState} (h : firstClose cs = none) : s.scan cs = none := by
  refine Option.eq_none_iff_forall_ne_some.mpr ?_
  intro n hn
  have hmem := List.mem_of_getElem? (getElem?_scan hn)
  simpa using List.findIdx?_eq_none_iff.mp h '>' hmem

theorem getElem?_tagClose {givenUp : Bool} {n : Nat} (h : tagClose givenUp cs = some n) :
    cs[n]? = some '>' := by
  have hfirst (h : firstClose cs = some n) : cs[n]? = some '>' := by
    obtain ⟨hlt, hclose, -⟩ := List.findIdx?_eq_some_iff_getElem.mp h
    rw [List.getElem?_eq_getElem hlt, beq_iff_eq.mp hclose]
  cases givenUp with
  | true => exact hfirst h
  | false =>
    rcases Option.or_eq_some_iff.mp h with h | ⟨-, h⟩
    · exact getElem?_scan h
    · exact hfirst h

theorem firstClose_isSome_iff (givenUp : Bool) :
    (firstClose cs).isSome ↔ (tagClose givenUp cs).isSome := by
  cases givenUp with
  | true => rfl
  | false =>
    cases hfirst : firstClose cs with
    | none => simp [tagClose, plainEnd, hfirst, scan_eq_none hfirst]
    | some n => simp [tagClose, plainEnd, hfirst]

theorem closes_ofBool (isAtValue : Bool) (c : Char) : (ofBool isAtValue).closes c = (c == '>') := by
  cases isAtValue <;> rfl

theorem scan_ofBool {isAtValue : Bool} {c : Char} (hc : c ≠ '>') :
    ((ofBool isAtValue).scan (c :: cs)).map (pos + ·) =
      (((ofBool isAtValue).next c cs).scan cs).map (pos + 1 + ·) := by
  rw [scan_cons, closes_ofBool, if_neg (by simpa using hc)]

theorem next_equals (isAtValue : Bool) (cs : Text) :
    (ofBool isAtValue).next '=' cs = ofBool true := by
  cases isAtValue <;> rfl

theorem next_quote {c : Char} (hc : c ≠ '=') (hquote : isQuote c) :
    (ofBool true).next c cs = if c ∈ cs then quoted c else ofBool false := by
  have hgap : TagSearch.isGap c = false := by
    rcases Bool.or_eq_true_iff.mp hquote with h | h <;> obtain rfl := beq_iff_eq.mp h <;> rfl
  simp [ofBool, next, hc, hquote, hgap]

theorem next_ordinary {isAtValue : Bool} {c : Char} (hc : c ≠ '=')
    (hquote : ¬ (isAtValue && isQuote c)) :
    (ofBool isAtValue).next c cs = ofBool (isAtValue && TagSearch.isGap c) := by
  cases isAtValue with
  | false => simp [ofBool, next, hc]
  | true =>
    rw [Bool.true_and] at hquote ⊢
    simp [ofBool, next, hc, hquote]

theorem mem_of_search (h : search (· == q) pos cs = some i) : q ∈ cs ∧ pos ≤ i := by
  obtain ⟨n, hn, rfl⟩ := Option.map_eq_some_iff.mp h
  obtain ⟨hlt, hq, -⟩ := List.findIdx?_eq_some_iff_getElem.mp hn
  exact ⟨beq_iff_eq.mp hq ▸ List.getElem_mem hlt, Nat.le_add_right pos n⟩

theorem search_eq_none_iff : search (· == q) pos cs = none ↔ q ∉ cs := by
  simp only [search, Option.map_eq_none_iff, List.findIdx?_eq_none_iff]
  constructor
  · intro h hq
    simpa using h q hq
  · intro h c hc
    simp only [beq_eq_false_iff_ne]
    rintro rfl
    exact h hc

variable {c : Char} {n : Nat} {as bs : Text} {s : ScanState}

/-- A scan that leaves a quoted value has come past the quote that closes it. -/
theorem mem_take_of_scan_quoted (h : (quoted q).scan cs = some n) : q ∈ cs.take n := by
  induction cs generalizing n with
  | nil => cases h
  | cons c cs ih =>
    rw [scan, if_neg (by simp [closes])] at h
    obtain ⟨k, hk, rfl⟩ := Option.map_eq_some_iff.mp h
    rw [List.take_succ_cons]
    by_cases hc : c = q
    · exact hc ▸ List.mem_cons_self
    · simp only [next, if_neg hc] at hk
      exact List.mem_cons_of_mem c (ih hk)

theorem next_of_append (h : (s.next c (as ++ bs)).scan (as ++ bs) = some n) (hn : n < as.length) :
    s.next c as = s.next c (as ++ bs) := by
  cases s with
  | outside => rfl
  | quoted q => rfl
  | atValue =>
    by_cases hequals : c = '='
    · simp only [next, if_pos hequals]
    simp only [next, if_neg hequals] at h ⊢
    by_cases hquote : isQuote c ∧ c ∈ as ++ bs
    · rw [if_pos hquote] at h
      have hmem := mem_take_of_scan_quoted h
      rw [List.take_append_of_le_length (Nat.le_of_lt hn)] at hmem
      rw [if_pos hquote, if_pos ⟨hquote.1, List.mem_of_mem_take hmem⟩]
    · rw [if_neg hquote, if_neg fun h ↦ hquote ⟨h.1, List.mem_append_left bs h.2⟩]

/-- A scan does not see what comes after the `>` that it finds. -/
theorem scan_of_append (h : s.scan (as ++ bs) = some n) (hn : n < as.length) :
    s.scan as = some n := by
  induction as generalizing s n with
  | nil => exact absurd hn (Nat.not_lt_zero n)
  | cons c as ih =>
    rw [List.cons_append, scan] at h
    rw [scan]
    split at h
    · rename_i hcloses
      rw [if_pos hcloses, h]
    · rename_i hcloses
      obtain ⟨k, hk, rfl⟩ := Option.map_eq_some_iff.mp h
      have hlt : k < as.length := Nat.lt_of_succ_lt_succ hn
      rw [if_neg hcloses, next_of_append hk hlt, ih hk hlt]
      rfl

end ScanState

namespace TagSearch

open Recall ScanState

variable {m cs : Text} {s : TagSearch} {start pos : Nat} {q : Char}

/-- All that is known of the markup `m` is so, and a scan that met its end began by `pos`. -/
structure Sound (m : Text) (pos : Nat) (s : TagSearch) : Prop where
  close : Recall.Sound (· == '>') m s.close
  double : Recall.Sound (· == '"') m s.double
  single : Recall.Sound (· == '\'') m s.single
  exhausted_le : ∀ start ∈ s.exhausted?, start ≤ pos

def givenUp (s : TagSearch) : Bool := s.exhausted?.isSome

@[simp]
theorem givenUp_empty : givenUp {} = false := rfl

theorem sound_empty (m : Text) : Sound m 0 {} := by
  refine ⟨?_, ?_, ?_, ?_⟩ <;>
  · intro r hr
    cases hr

theorem Sound.mono (h : s.Sound m start) (hle : start ≤ pos) : s.Sound m pos := by
  refine ⟨h.close, h.double, h.single, fun began hbegan ↦ ?_⟩
  exact Nat.le_trans (h.exhausted_le began hbegan) hle

theorem Sound.renew_close (h : s.Sound m start) (pos : Nat) :
    Sound m start { s with close := some (renew (· == '>') s.close pos (m.drop pos)) } :=
  ⟨(sound_renew h.close pos).2, h.double, h.single, h.exhausted_le⟩

/-- Tags are read in order, so a scan that has met the end of the text is never ahead of one. -/
theorem Sound.isExhausted_eq (h : s.Sound m start) (hle : start ≤ pos) :
    s.isExhausted pos = s.givenUp := by
  unfold isExhausted givenUp
  cases hbegan : s.exhausted? with
  | none => rfl
  | some began =>
    have hle' : began ≤ pos := Nat.le_trans (h.exhausted_le began hbegan) hle
    simpa using hle'

structure Answers (m : Text) (start : Nat) (s : TagSearch) (found : Option Nat)
    (x : Option Nat × TagSearch) : Prop where
  found : x.1 = found
  sound : x.2.Sound m start
  givenUp : x.2.givenUp = s.givenUp

theorem nextQuote_answers (h : s.Sound m start) (hq : isQuote q) (pos : Nat) :
    Answers m start s (search (· == q) pos (m.drop pos)) (s.nextQuote q pos (m.drop pos)) := by
  unfold nextQuote
  split
  · rename_i hdouble
    obtain ⟨hfound, hsound⟩ := sound_renew h.double pos
    subst hdouble
    exact ⟨hfound, ⟨h.close, hsound, h.single, h.exhausted_le⟩, rfl⟩
  · rename_i hdouble
    obtain ⟨hfound, hsound⟩ := sound_renew h.single pos
    obtain rfl : q = '\'' := by simpa [isQuote, hdouble] using hq
    exact ⟨hfound, ⟨h.close, h.double, hsound, h.exhausted_le⟩, rfl⟩

/-- The search that remembers finds what the plain scan finds. -/
theorem unquotedClose_answers (h : s.Sound m start) (atValue : Bool) (hcs : cs = m.drop pos) :
    Answers m start s (((ofBool atValue).scan cs).map (pos + ·))
      (s.unquotedClose pos atValue cs) := by
  have hdrop {pos : Nat} {c : Char} {cs : Text} (hcs : c :: cs = m.drop pos) :
      cs = m.drop (pos + 1) := by
    rw [← List.tail_drop, ← hcs, List.tail_cons]
  fun_induction unquotedClose s pos atValue cs with
  | case1 s pos atValue => exact ⟨rfl, h, rfl⟩
  | case2 s pos atValue cs =>
    refine ⟨?_, h, rfl⟩
    rw [scan_cons, closes_ofBool, if_pos (beq_self_eq_true '>')]
  | case3 s pos atValue cs hclose ih =>
    rw [scan_ofBool hclose, next_equals]
    exact ih h (hdrop hcs)
  | case4 s pos atValue c cs hclose hequals hvalue i s' hnext ih =>
    obtain ⟨rfl, hquote⟩ := Bool.and_eq_true_iff.mp hvalue
    have hanswers := nextQuote_answers h hquote (pos + 1)
    rw [← hdrop hcs, hnext] at hanswers
    obtain ⟨hmem, hle⟩ := mem_of_search hanswers.found.symm
    have hskip : cs.drop (i - pos) = m.drop (i + 1) := by
      rw [hdrop hcs, List.drop_drop, show pos + 1 + (i - pos) = i + 1 by omega]
    have hrest := ih hanswers.sound hskip
    rw [scan_ofBool hclose, next_quote hequals hquote, if_pos hmem,
      scan_quoted hanswers.found.symm, Nat.add_sub_add_right]
    exact ⟨hrest.found, hrest.sound, hrest.givenUp.trans hanswers.givenUp⟩
  | case5 s pos atValue c cs hclose hequals hvalue s' hnext ih =>
    obtain ⟨rfl, hquote⟩ := Bool.and_eq_true_iff.mp hvalue
    have hanswers := nextQuote_answers h hquote (pos + 1)
    rw [← hdrop hcs, hnext] at hanswers
    rw [scan_ofBool hclose, next_quote hequals hquote,
      if_neg (search_eq_none_iff.mp hanswers.found.symm)]
    have hrest := ih hanswers.sound (hdrop hcs)
    exact ⟨hrest.found, hrest.sound, hrest.givenUp.trans hanswers.givenUp⟩
  | case6 s pos atValue c cs hclose hequals hvalue ih =>
    rw [scan_ofBool hclose, next_ordinary hequals hvalue]
    exact ih h (hdrop hcs)

/-- A tag ends where the plain scan says, or at the first `>` once a scan has given up. A scan
gives up where quoted values hide every `>`. -/
theorem Sound.tagEnd_spec (h : s.Sound m start) (hle : start ≤ pos) :
    (s.tagEnd pos (m.drop pos)).1 =
      (tagClose s.givenUp (m.drop pos)).map (pos + ·) ∧
    (s.tagEnd pos (m.drop pos)).2.Sound m pos ∧
    ((s.tagEnd pos (m.drop pos)).1 = none → (s.tagEnd pos (m.drop pos)).2.Sound m start) ∧
    ((s.tagEnd pos (m.drop pos)).2.givenUp ↔ s.givenUp ∨
      (firstClose (m.drop pos)).isSome ∧ outside.scan (m.drop pos) = none) := by
  obtain ⟨hfound, -⟩ := sound_renew h.close pos
  have hclose := h.renew_close pos
  have hfirst' : search (· == '>') pos (m.drop pos) = (firstClose (m.drop pos)).map (pos + ·) := rfl
  rw [hfirst'] at hfound
  have hexhausted : isExhausted { s with close := some (renew (· == '>') s.close pos (m.drop pos)) }
      pos = s.givenUp := hclose.isExhausted_eq hle
  unfold tagEnd
  dsimp only
  rw [hfound, hexhausted]
  generalize hrest : m.drop pos = rest at *
  cases hfirst : firstClose rest with
  | none =>
    have hscan := scan_eq_none (s := outside) hfirst
    refine ⟨?_, hclose.mono hle, fun _ ↦ hclose, ?_⟩
    · cases s.givenUp <;> simp [tagClose, plainEnd, hscan, hfirst]
    · simp [givenUp]
  | some first =>
    simp only [Option.map_some]
    split
    · rename_i hgiven
      refine ⟨?_, hclose.mono hle, (absurd · (Option.some_ne_none _)), ?_⟩
      · simp [tagClose, hgiven, hfirst]
      · exact ⟨.inl, fun _ ↦ hgiven⟩
    · rename_i hgiven
      have hanswers := unquotedClose_answers hclose false hrest.symm
      split
      · rename_i i s' hx
        rw [hx] at hanswers
        obtain ⟨n, hn, hi⟩ := Option.map_eq_some_iff.mp hanswers.found.symm
        have hscan : outside.scan rest = some n := hn
        refine ⟨?_, hanswers.sound.mono hle, (absurd · (Option.some_ne_none _)), ?_⟩
        · simp [tagClose, hgiven, plainEnd, hscan, hi]
        · rw [hanswers.givenUp]
          simp [hscan, givenUp]
      · rename_i s' hx
        rw [hx] at hanswers
        obtain ⟨hfound', ⟨hclose', hdouble, hsingle, -⟩, -⟩ := hanswers
        have hscan : outside.scan rest = none := Option.map_eq_none_iff.mp hfound'.symm
        refine ⟨?_, ⟨hclose', hdouble, hsingle, ?_⟩, (absurd · (Option.some_ne_none _)), ?_⟩
        · simp [tagClose, hgiven, plainEnd, hscan, hfirst]
        · intro began hbegan
          exact Nat.le_of_eq (Option.some.inj hbegan).symm
        · simp [hscan, givenUp]

end TagSearch

end MarkupText
