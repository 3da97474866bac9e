import MarkupText.Json.Symbol
import MarkupText.Json.Value
import MarkupText.Proofs.Digits
import MarkupText.Proofs.Separators

namespace MarkupText.Json

mutual

/-- Symbols write a value and then go on with the symbols after it. -/
inductive Reads : List Symbol → Value → List Symbol → Prop
  | null {rest : List Symbol} : Reads (.null :: rest) .null rest
  | bool {b : Bool} {rest : List Symbol} : Reads (.bool b :: rest) (.bool b) rest
  | number {digits : Text} {n : Nat} {rest : List Symbol} : Nat.ofDigitChars 10 digits 0 = n →
      Reads (.number ⟨digits, [], false, []⟩ :: rest) (.number n) rest
  | string {parts : List Part} {cs : Text} {rest : List Symbol} :
      (∀ fault, Part.text fault parts = .ok cs) → Reads (.string parts :: rest) (.string cs) rest
  | noList {rest : List Symbol} : Reads (.mark '[' :: .mark ']' :: rest) (.list []) rest
  | list {ss rest : List Symbol} {vs : List Value} : ReadsElements ss vs rest →
      Reads (.mark '[' :: ss) (.list vs) rest
  | noObject {rest : List Symbol} : Reads (.mark '{' :: .mark '}' :: rest) (.object []) rest
  | object {ss rest : List Symbol} {fields : List (String × Value)} :
      ReadsFields ss fields rest → Reads (.mark '{' :: ss) (.object fields) rest

inductive ReadsElements : List Symbol → List Value → List Symbol → Prop
  | last {ss rest : List Symbol} {v : Value} : Reads ss v (.mark ']' :: rest) →
      ReadsElements ss [v] rest
  | more {ss ss' rest : List Symbol} {v : Value} {vs : List Value} :
      Reads ss v (.mark ',' :: ss') → ReadsElements ss' vs rest → ReadsElements ss (v :: vs) rest

inductive ReadsFields : List Symbol → List (String × Value) → List Symbol → Prop
  | last {parts : List Part} {key : String} {ss rest : List Symbol} {v : Value} :
      (∀ fault, Part.text fault parts = .ok key.toList) → Reads ss v (.mark '}' :: rest) →
      ReadsFields (.string parts :: .mark ':' :: ss) [(key, v)] rest
  | more {parts : List Part} {key : String} {ss ss' rest : List Symbol} {v : Value}
      {fields : List (String × Value)} :
      (∀ fault, Part.text fault parts = .ok key.toList) → Reads ss v (.mark ',' :: ss') →
      ReadsFields ss' fields rest →
      ReadsFields (.string parts :: .mark ':' :: ss) ((key, v) :: fields) rest

end

theorem eq_of_parts {parts : List Part} {key key' : String}
    (h : ∀ fault, Part.text fault parts = .ok key.toList)
    (h' : ∀ fault, Part.text fault parts = .ok key'.toList) : key = key' :=
  String.toList_inj.mp (Except.ok.inj ((h .ended).symm.trans (h' .ended)))

mutual

theorem Reads.unique {ss rest rest' : List Symbol} {v w : Value} :
    Reads ss v rest → Reads ss w rest' → v = w ∧ rest = rest'
  | .null, .null => ⟨rfl, rfl⟩
  | .bool, .bool => ⟨rfl, rfl⟩
  | .number h, .number h' => ⟨by rw [← h, ← h'], rfl⟩
  | .string h, .string h' => ⟨by rw [Except.ok.inj ((h .ended).symm.trans (h' .ended))], rfl⟩
  | .noList, .noList => ⟨rfl, rfl⟩
  | .noList, .list h => nomatch h
  | .list h, .noList => nomatch h
  | .list h, .list h' => by
    obtain ⟨rfl, hrest⟩ := h.unique h'
    exact ⟨rfl, hrest⟩
  | .noObject, .noObject => ⟨rfl, rfl⟩
  | .noObject, .object h => nomatch h
  | .object h, .noObject => nomatch h
  | .object h, .object h' => by
    obtain ⟨rfl, hrest⟩ := h.unique h'
    exact ⟨rfl, hrest⟩

theorem ReadsElements.unique {ss rest rest' : List Symbol} {vs ws : List Value} :
    ReadsElements ss vs rest → ReadsElements ss ws rest' → vs = ws ∧ rest = rest'
  | .last h, .last h' => by
    obtain ⟨rfl, hrest⟩ := h.unique h'
    exact ⟨rfl, (List.cons.inj hrest).2⟩
  | .last h, .more h' _ => by
    obtain ⟨-, hrest⟩ := h.unique h'
    cases hrest
  | .more h _, .last h' => by
    obtain ⟨-, hrest⟩ := h.unique h'
    cases hrest
  | .more h hs, .more h' hs' => by
    obtain ⟨rfl, hrest⟩ := h.unique h'
    cases hrest
    obtain ⟨rfl, hrest⟩ := hs.unique hs'
    exact ⟨rfl, hrest⟩

theorem ReadsFields.unique {ss rest rest' : List Symbol} {fields fields' : List (String × Value)} :
    ReadsFields ss fields rest → ReadsFields ss fields' rest' → fields = fields' ∧ rest = rest'
  | .last hkey h, .last hkey' h' => by
    obtain rfl := eq_of_parts hkey hkey'
    obtain ⟨rfl, hrest⟩ := h.unique h'
    exact ⟨rfl, (List.cons.inj hrest).2⟩
  | .last _ h, .more _ h' _ => by
    obtain ⟨-, hrest⟩ := h.unique h'
    cases hrest
  | .more _ h _, .last _ h' => by
    obtain ⟨-, hrest⟩ := h.unique h'
    cases hrest
  | .more hkey h hs, .more hkey' h' hs' => by
    obtain ⟨rfl, hrest⟩ := h.unique h'
    cases hrest
    obtain ⟨rfl, hrest⟩ := hs.unique hs'
    obtain rfl := eq_of_parts hkey hkey'
    exact ⟨rfl, hrest⟩

end

def Part.ofChar (c : Char) : Part :=
  if c.toNat < 0x20 ∧ c ∉ ['\x08', '\x0c', '\n', '\r', '\t'] then .unit c.toNat else .char c

theorem escape_cases (c : Char) :
    (∃ e, escape c = ['\\', e] ∧ Part.ofEscape? e = some c ∧ e ≠ 'u' ∧ Part.ofChar c = .char c) ∨
    (escape c = ['\\', 'u', '0', '0', Nat.digitChar (c.toNat / 16), Nat.digitChar (c.toNat % 16)] ∧
      c.toNat < 32 ∧ Part.ofChar c = .unit c.toNat) ∨
    (escape c = [c] ∧ c ≠ '\\' ∧ c ≠ '"' ∧ 32 ≤ c.toNat ∧ Part.ofChar c = .char c) := by
  unfold escape
  split
  · exact .inl ⟨'"', rfl, rfl, by decide, rfl⟩
  · exact .inl ⟨'\\', rfl, rfl, by decide, rfl⟩
  · exact .inl ⟨'b', rfl, rfl, by decide, rfl⟩
  · exact .inl ⟨'f', rfl, rfl, by decide, rfl⟩
  · exact .inl ⟨'n', rfl, rfl, by decide, rfl⟩
  · exact .inl ⟨'r', rfl, rfl, by decide, rfl⟩
  · exact .inl ⟨'t', rfl, rfl, by decide, rfl⟩
  · split
    · rename_i hcode
      refine .inr (.inl ⟨rfl, hcode, if_pos ⟨hcode, ?_⟩⟩)
      simp only [List.mem_cons, List.not_mem_nil, or_false, not_or]
      exact ⟨by assumption, by assumption, by assumption, by assumption, by assumption⟩
    · rename_i hcode
      refine .inr (.inr ⟨rfl, ?_, ?_, Nat.not_lt.mp hcode, if_neg fun h ↦ hcode h.1⟩)
      · assumption
      · assumption

theorem unit?_digits {n : Nat} (hn : n < 32) (cs : Text) :
    Part.unit? ('0' :: '0' :: Nat.digitChar (n / 16) :: Nat.digitChar (n % 16) :: cs) = .ok n := by
  have htable : ∀ n < 32, (Part.unit? ['0', '0', Nat.digitChar (n / 16),
      Nat.digitChar (n % 16)]).toOption = some n := by decide
  have hdigits := htable n hn
  change Part.unit? ['0', '0', Nat.digitChar (n / 16), Nat.digitChar (n % 16)] = .ok n
  cases hunit : Part.unit? ['0', '0', Nat.digitChar (n / 16), Nat.digitChar (n % 16)] with
  | error fault =>
    rw [hunit] at hdigits
    cases hdigits
  | ok m =>
    rw [hunit] at hdigits
    exact congrArg Except.ok (Option.some.inj hdigits)

theorem scan_escape (c : Char) (cs : Text) : Part.scan (escape c ++ cs) =
    (Part.ofChar c :: (Part.scan cs).1, (Part.scan cs).2.map (· + (escape c).length)) := by
  rcases escape_cases c with ⟨e, hescape, he, hne, hpart⟩ | ⟨hescape, hcode, hpart⟩ |
    ⟨hescape, hslash, hquote, hcode, hpart⟩
  · rw [hescape, hpart, List.cons_append, List.cons_append, List.nil_append, Part.scan, he]
    · rfl
    · exact hne
  · rw [hescape, hpart]
    simp only [List.cons_append, List.nil_append]
    rw [Part.scan, unit?_digits hcode]
    rfl
  · rw [hescape, hpart, List.cons_append, List.nil_append, Part.scan, if_neg hquote,
      if_neg (Nat.not_lt.mpr hcode)]
    · rfl
    · exact fun heq _ ↦ hslash heq
    · exact fun _ heq _ ↦ hslash heq
    · exact fun _ _ heq _ ↦ hslash heq

theorem scan_escapes (cs rest : Text) : Part.scan (cs.flatMap escape ++ '"' :: rest) =
    (cs.map Part.ofChar, .ok ((cs.flatMap escape).length + 1)) := by
  induction cs with
  | nil => rw [List.flatMap_nil, List.nil_append, Part.scan, if_pos rfl] <;> simp
  | cons c cs ih =>
    rw [List.flatMap_cons, List.append_assoc, scan_escape, ih, List.length_append, Nat.add_assoc,
      Nat.add_comm (escape c).length]
    rfl

theorem text_unit (fault : Fault) {n : Nat} (hn : n < 0xD800) (parts : List Part) :
    Part.text fault (.unit n :: parts) = (Part.text fault parts).map (Char.ofNat n :: ·) := by
  have hleading : Part.isLeading n = false := by
    simp only [Part.isLeading, Bool.and_eq_false_iff, decide_eq_false_iff_not]
    omega
  have htrailing : Part.isTrailing n = false := by
    simp only [Part.isTrailing, Bool.and_eq_false_iff, decide_eq_false_iff_not]
    omega
  rw [Part.text.eq_def]
  simp only [hleading, htrailing, Bool.false_eq_true, if_false]
  cases Part.text fault parts <;> rfl

theorem text_ofChar (fault : Fault) (cs : Text) :
    Part.text fault (cs.map Part.ofChar) = .ok cs := by
  induction cs with
  | nil => rfl
  | cons c cs ih =>
    rw [List.map_cons, Part.ofChar]
    split
    · rename_i hc
      rw [text_unit fault (by omega), ih, Char.ofNat_toNat]
      rfl
    · rw [Part.text, ih]
      rfl

namespace Symbol

variable {c : Char} {cs rest : Text} {symbol : Symbol}

theorem ofText_spaces (hcs : ∀ c ∈ cs, isSpace c) (rest : Text) :
    ofText (cs ++ rest) = ofText rest := by
  induction cs with
  | nil => rfl
  | cons c cs ih =>
    obtain ⟨hc, hcs⟩ := List.forall_mem_cons.mp hcs
    rw [List.cons_append, ofText, if_pos hc, ih hcs]

theorem ofText_append (hc : isSpace c = false) (hread : read c (cs ++ rest) = (symbol, cs.length)) :
    ofText (c :: (cs ++ rest)) = symbol :: ofText rest := by
  rw [ofText, if_neg (Bool.eq_false_iff.mp hc), hread]
  exact congrArg (symbol :: ofText ·) List.drop_left

theorem ofText_quote (cs rest : Text) :
    ofText (quote cs ++ rest) = .string (cs.map Part.ofChar) :: ofText rest := by
  have hquote : quote cs ++ rest = '"' :: ((cs.flatMap escape ++ ['"']) ++ rest) := by
    simp [quote]
  have hlength : (cs.flatMap escape ++ ['"']).length = (cs.flatMap escape).length + 1 :=
    List.length_append
  rw [hquote]
  apply ofText_append rfl
  rw [read, if_pos rfl, ofString, List.append_assoc, List.singleton_append, scan_escapes, hlength]

end Symbol

def EndsValue (rest : Text) : Prop :=
  ∀ c ∈ rest.head?, c.isDigit = false ∧ c ≠ '.' ∧ Numeral.isExponentMark c = false

section Numbers

variable {n : Nat} {rest : Text}

theorem head?_ofNat (hn : 0 < n) : (Text.ofNat n).head? ≠ some '0' := by
  induction n using Nat.strongRecOn with
  | ind n ih =>
    rw [Text.ofNat]
    by_cases hlt : n < 10
    · rw [Nat.toDigits_of_lt_base hlt]
      have htable : ∀ n < 10, 0 < n → [Nat.digitChar n].head? ≠ some '0' := by decide
      exact htable n hlt hn
    · obtain ⟨d, ds, hds, -⟩ := Text.exists_ofNat (n / 10)
      have hhead := ih (n / 10) (by omega) (by omega)
      rw [hds] at hhead
      rw [Text.ofNat] at hds
      rw [Nat.toDigits_of_base_le (by decide) (by omega), hds]
      exact hhead

theorem digits_ofNat (n : Nat) (hrest : EndsValue rest) :
    Numeral.digits (Text.ofNat n ++ rest) = .ok (Text.ofNat n, rest) := by
  have hdigits : ∀ c ∈ Text.ofNat n, c.isDigit := fun _ ↦ Text.isDigit_of_mem_ofNat
  have htake : rest.takeWhile Char.isDigit = [] := by
    cases rest with
    | nil => rfl
    | cons c rest => exact List.takeWhile_cons_of_neg (Bool.eq_false_iff.mp (hrest c rfl).1)
  have hdrop : rest.dropWhile Char.isDigit = rest := by
    cases rest with
    | nil => rfl
    | cons c rest => exact List.dropWhile_cons_of_neg (Bool.eq_false_iff.mp (hrest c rfl).1)
  obtain ⟨d, ds, hds, -⟩ := Text.exists_ofNat n
  rw [Numeral.digits.eq_def, List.takeWhile_append_of_pos hdigits,
    List.dropWhile_append_of_pos hdigits, htake, hdrop, List.append_nil, hds]

theorem wholeDigits_ofNat (n : Nat) (hrest : EndsValue rest) :
    Numeral.wholeDigits (Text.ofNat n ++ rest) = .ok (Text.ofNat n, rest) := by
  have hidle : ¬((Text.ofNat n).head? = some '0' ∧ 1 < (Text.ofNat n).length) := by
    intro h
    cases n with
    | zero => exact absurd h.2 (by decide)
    | succ n => exact head?_ofNat n.succ_pos h.1
  rw [Numeral.wholeDigits, digits_ofNat n hrest]
  exact if_neg hidle

theorem read_ofNat (n : Nat) (hrest : EndsValue rest) :
    Numeral.read (Text.ofNat n ++ rest) = .ok (⟨Text.ofNat n, [], false, []⟩, rest) := by
  obtain ⟨d, ds, hds, hd⟩ := Text.exists_ofNat n
  have hsign : (Text.ofNat n ++ rest).head? ≠ some '-' := by
    rw [hds]
    intro h
    obtain rfl := Option.some.inj h
    cases hd
  have hfraction : Numeral.fractionDigits rest = .ok ([], rest) := by
    cases rest with
    | nil => rfl
    | cons c rest =>
      rw [Numeral.fractionDigits]
      exact fun _ heq ↦ (hrest c rfl).2.1 (List.cons.inj heq).1
  have hexponent : ¬rest.head?.any Numeral.isExponentMark := by
    cases rest with
    | nil => decide
    | cons c rest => exact Bool.eq_false_iff.mp (hrest c rfl).2.2
  rw [Numeral.read, if_neg hsign, wholeDigits_ofNat n hrest]
  dsimp only [bind, Except.bind]
  rw [hfraction]
  dsimp only [bind, Except.bind]
  exact if_neg hexponent

theorem Symbol.ofText_ofNat (n : Nat) (hrest : EndsValue rest) :
    ofText (Text.ofNat n ++ rest) = .number ⟨Text.ofNat n, [], false, []⟩ :: ofText rest := by
  obtain ⟨d, ds, hds, hd⟩ := Text.exists_ofNat n
  have hne {q : Char} (hq : q.isDigit = false) : d ≠ q := by
    intro heq
    rw [heq, hq] at hd
    cases hd
  have hread := read_ofNat n hrest
  rw [hds] at hread ⊢
  apply ofText_append
  · simp only [isSpace, Bool.or_eq_false_iff, beq_eq_false_iff_ne]
    exact ⟨⟨⟨hne rfl, hne rfl⟩, hne rfl⟩, hne rfl⟩
  · rw [Symbol.read, if_neg (hne rfl), if_pos (by rw [hd, Bool.or_true]), ofNumber,
      ← List.cons_append, hread]
    exact congrArg (_, ·) (by rw [List.length_append, Nat.add_sub_cancel])

end Numbers

/-- Nothing but spaces stands between the symbols. -/
structure Layout.IsSpaced (l : Layout) : Prop where
  lineStart (depth : Nat) : ∀ c ∈ l.lineStart depth, Symbol.isSpace c
  afterKey : ∃ gap, l.afterKey = ':' :: gap ∧ ∀ c ∈ gap, Symbol.isSpace c

theorem isSpaced_indented : Layout.indented.IsSpaced := by
  constructor
  · intro depth c hc
    obtain rfl | hc := List.mem_cons.mp hc
    · rfl
    · rw [List.eq_of_mem_replicate hc]
      rfl
  · exact ⟨[' '], rfl, List.forall_mem_singleton.mpr rfl⟩

section Layouts

variable {l : Layout} {depth : Nat} {rest : Text}

theorem endsValue_cons {c : Char} (hdigit : c.isDigit = false) (hpoint : c ≠ '.')
    (hexponent : Numeral.isExponentMark c = false) (rest : Text) : EndsValue (c :: rest) := by
  intro d hd
  obtain rfl := Option.some.inj hd
  exact ⟨hdigit, hpoint, hexponent⟩

theorem endsValue_spaces {gap : Text} (hgap : ∀ c ∈ gap, Symbol.isSpace c)
    (hrest : EndsValue rest) : EndsValue (gap ++ rest) := by
  cases gap with
  | nil => exact hrest
  | cons c gap =>
    have hc : ((c = ' ' ∨ c = '\n') ∨ c = '\t') ∨ c = '\r' := by
      simpa [Symbol.isSpace] using hgap c List.mem_cons_self
    rcases hc with ((rfl | rfl) | rfl) | rfl <;> exact endsValue_cons rfl (by decide) rfl _

theorem ofText_mark {c : Char} (hc : c ∈ ['[', ']', '{', '}', ',', ':']) (rest : Text) :
    Symbol.ofText (c :: rest) = .mark c :: Symbol.ofText rest := by
  have hspace : ['[', ']', '{', '}', ',', ':'].all (!Symbol.isSpace ·) := rfl
  have hread : ∀ c ∈ ['[', ']', '{', '}', ',', ':'], Symbol.read c rest = (.mark c, 0) := by
    simp [Symbol.read]
  exact @Symbol.ofText_append c [] rest _ (by simpa using List.all_eq_true.mp hspace c hc)
    (hread c hc)

def closing (l : Layout) (depth : Nat) (right : Char) (elements : List Text) (rest : Text) : Text :=
  (elements.map (l.lineStart (depth + 1) ++ ·)).flatMap (',' :: ·) ++
    (l.lineStart depth ++ right :: rest)

theorem enclose_cons (left right : Char) (element : Text) (elements : List Text) :
    l.enclose depth left right (element :: elements) ++ rest =
      left :: (l.lineStart (depth + 1) ++ (element ++ closing l depth right elements rest)) := by
  rw [Layout.enclose, List.isEmpty_cons, if_neg Bool.false_ne_true]
  simp only [List.map_cons, intercalate_cons, closing, List.append_assoc, List.cons_append,
    List.nil_append]

theorem closing_cons (right : Char) (element : Text) (elements : List Text) (rest : Text) :
    closing l depth right (element :: elements) rest =
      ',' :: (l.lineStart (depth + 1) ++ (element ++ closing l depth right elements rest)) := by
  simp only [closing, List.map_cons, List.flatMap_cons, List.append_assoc, List.cons_append]

theorem ofText_closing_nil (hl : l.IsSpaced) {right : Char} (hright : right = ']' ∨ right = '}') :
    Symbol.ofText (closing l depth right [] rest) = .mark right :: Symbol.ofText rest := by
  rw [closing, List.map_nil, List.flatMap_nil, List.nil_append,
    Symbol.ofText_spaces (hl.lineStart depth)]
  apply ofText_mark
  rcases hright with rfl | rfl <;> decide

theorem ofText_closing_cons (hl : l.IsSpaced) (right : Char) (element : Text)
    (elements : List Text) : Symbol.ofText (closing l depth right (element :: elements) rest) =
      .mark ',' :: Symbol.ofText (element ++ closing l depth right elements rest) := by
  rw [closing_cons, ofText_mark (by decide), Symbol.ofText_spaces (hl.lineStart (depth + 1))]

theorem endsValue_closing (hl : l.IsSpaced) {right : Char} (hright : right = ']' ∨ right = '}')
    (depth : Nat) (elements : List Text) (rest : Text) :
    EndsValue (closing l depth right elements rest) := by
  cases elements with
  | nil =>
    apply endsValue_spaces (hl.lineStart depth)
    rcases hright with rfl | rfl <;> exact endsValue_cons rfl (by decide) rfl _
  | cons element elements =>
    rw [closing_cons]
    exact endsValue_cons rfl (by decide) rfl _

theorem ofText_field (hl : l.IsSpaced) (key element rest : Text) :
    Symbol.ofText (quote key ++ l.afterKey ++ element ++ rest) =
      .string (key.map Part.ofChar) :: .mark ':' :: Symbol.ofText (element ++ rest) := by
  obtain ⟨gap, hkey, hgap⟩ := hl.afterKey
  rw [hkey, List.append_assoc, List.append_assoc, Symbol.ofText_quote, List.cons_append,
    ofText_mark (by decide), Symbol.ofText_spaces hgap]

mutual

theorem reads_write (hl : l.IsSpaced) : ∀ (v : Value) (depth : Nat) (rest : Text), EndsValue rest →
    Reads (Symbol.ofText (v.write l depth ++ rest)) v (Symbol.ofText rest)
  | .null, _, rest, _ => by
    have hnull : Symbol.ofText ("null".toList ++ rest) = .null :: Symbol.ofText rest :=
      Symbol.ofText_append rfl rfl
    rw [Value.write, hnull]
    exact .null
  | .bool true, _, rest, _ => by
    have htrue : Symbol.ofText ("true".toList ++ rest) = .bool true :: Symbol.ofText rest :=
      Symbol.ofText_append rfl rfl
    rw [Value.write, htrue]
    exact .bool
  | .bool false, _, rest, _ => by
    have hfalse : Symbol.ofText ("false".toList ++ rest) = .bool false :: Symbol.ofText rest :=
      Symbol.ofText_append rfl rfl
    rw [Value.write, hfalse]
    exact .bool
  | .number n, _, rest, hrest => by
    rw [Value.write, Symbol.ofText_ofNat n hrest]
    exact .number (Nat.ofDigitChars_toDigits (by decide) (by decide))
  | .string cs, _, rest, _ => by
    rw [Value.write, Symbol.ofText_quote]
    exact .string fun fault ↦ text_ofChar fault cs
  | .list [], depth, rest, _ => by
    have hmarks : Symbol.ofText ('[' :: ']' :: rest) =
        .mark '[' :: .mark ']' :: Symbol.ofText rest := by
      rw [ofText_mark (by decide), ofText_mark (by decide)]
    exact hmarks ▸ .noList
  | .list (v :: vs), depth, rest, _ => by
    rw [Value.write, Value.writeElements, enclose_cons, ofText_mark (by decide),
      Symbol.ofText_spaces (hl.lineStart _)]
    apply Reads.list
    apply reads_writeElements hl vs depth rest
    exact reads_write hl v (depth + 1) _ (endsValue_closing hl (.inl rfl) depth _ rest)
  | .object [], depth, rest, _ => by
    have hmarks : Symbol.ofText ('{' :: '}' :: rest) =
        .mark '{' :: .mark '}' :: Symbol.ofText rest := by
      rw [ofText_mark (by decide), ofText_mark (by decide)]
    exact hmarks ▸ .noObject
  | .object ((key, v) :: fields), depth, rest, _ => by
    rw [Value.write, Value.writeFields, enclose_cons, ofText_mark (by decide),
      Symbol.ofText_spaces (hl.lineStart _), ofText_field hl]
    apply Reads.object
    apply reads_writeFields hl fields depth rest
    exact reads_write hl v (depth + 1) _ (endsValue_closing hl (.inr rfl) depth _ rest)

theorem reads_writeElements (hl : l.IsSpaced) : ∀ (vs : List Value) (depth : Nat) (rest : Text)
    {ss : List Symbol} {v : Value},
    Reads ss v (Symbol.ofText (closing l depth ']' (Value.writeElements l (depth + 1) vs) rest)) →
    ReadsElements ss (v :: vs) (Symbol.ofText rest)
  | [], depth, rest, ss, v, h => by
    rw [Value.writeElements, ofText_closing_nil hl (.inl rfl)] at h
    exact .last h
  | w :: vs, depth, rest, ss, v, h => by
    rw [Value.writeElements, ofText_closing_cons hl] at h
    apply ReadsElements.more h
    apply reads_writeElements hl vs depth rest
    exact reads_write hl w (depth + 1) _ (endsValue_closing hl (.inl rfl) depth _ rest)

theorem reads_writeFields (hl : l.IsSpaced) : ∀ (fields : List (String × Value)) (depth : Nat)
    (rest : Text) {ss : List Symbol} {key : String} {v : Value},
    Reads ss v (Symbol.ofText (closing l depth '}' (Value.writeFields l (depth + 1) fields) rest)) →
    ReadsFields (.string (key.toList.map Part.ofChar) :: .mark ':' :: ss) ((key, v) :: fields)
      (Symbol.ofText rest)
  | [], depth, rest, ss, key, v, h => by
    rw [Value.writeFields, ofText_closing_nil hl (.inr rfl)] at h
    exact .last (fun fault ↦ text_ofChar fault key.toList) h
  | (key', w) :: fields, depth, rest, ss, key, v, h => by
    rw [Value.writeFields, ofText_closing_cons hl, ofText_field hl] at h
    apply ReadsFields.more (fun fault ↦ text_ofChar fault key.toList) h
    apply reads_writeFields hl fields depth rest
    exact reads_write hl w (depth + 1) _ (endsValue_closing hl (.inr rfl) depth _ rest)

end

end Layouts

end MarkupText.Json
