import MarkupText.Program
import MarkupText.Proofs.ByteOffsets
import MarkupText.Proofs.JsonTexts
import MarkupText.Proofs.Sentences
import MarkupText.Proofs.Squeezing

namespace MarkupText

open Text

def decimal? (cs : Text) : Option Nat :=
  if cs ≠ [] ∧ cs.all Char.isDigit then some (Nat.ofDigitChars 10 cs 0) else none

namespace Json.Value

def field? (key : String) : Value → Option Value
  | object fields => fields.lookup key
  | _ => none

def number? : Value → Option Nat
  | number n => some n
  | _ => none

def string? : Value → Option Text
  | string cs => some cs
  | _ => none

def bool? : Value → Option Bool
  | bool b => some b
  | _ => none

def list? : Value → Option (List Value)
  | list vs => some vs
  | _ => none

def span? (v : Value) : Option Span := do
  return ⟨← (← v.field? "start").number?, ← (← v.field? "end").number?⟩

end Json.Value

namespace Entry

def inTitle? (marker : Text) : Option Bool :=
  if marker = "title".toList then some true
  else if marker = "body".toList then some false
  else none

def ofLine? (line : Text) : Option Entry :=
  match line.splitOn '\t' with
  | [index, marker, text, ranges] =>
    match (ranges.tail.dropLast.splitOn ',').mapM decimal? with
    | some [start, stop, start', stop'] => do
      return ⟨← decimal? index, text, ⟨start, stop⟩, ⟨start', stop'⟩, ← inTitle? marker⟩
    | _ => none
  | _ => none

def ofJson? (v : Json.Value) : Option Entry := do
  return ⟨← (← v.field? "index").number?, ← (← v.field? "text").string?,
    ← (← v.field? "clean").span?, ← (← v.field? "html").span?, ← (← v.field? "in_title").bool?⟩

end Entry

def plainEntries? (report : Text) : Option (List Entry) :=
  (report.splitOn '\n').dropLast.mapM Entry.ofLine?

def jsonEntries? (v : Json.Value) : Option (List Entry) := do
  (← (← v.field? "sentences").list?).mapM Entry.ofJson?

structure Entry.IsOf (clean : Text) (s : Sentence) (e : Entry) : Prop where
  inTitle_eq : e.inTitle = s.inTitle
  clean_eq : e.clean = s.clean
  source_eq : e.source = s.source
  text_eq : ∃ cs, slice? clean s.clean = some cs ∧ Squeezes cs e.text

/-- Two reports on the sentences of a clean text have the same entries, which can be read back. -/
structure Reports (clean : Text) (sentences : List Sentence) (plain json : Text)
    (entries : List Entry) : Prop where
  lines : ∃ ls : List Text, plain = ls.flatMap (· ++ ['\n']) ∧ ls.length = sentences.length ∧
    ∀ line ∈ ls, '\n' ∉ line ∧ (line.splitOn '\t').length = 4
  plain_eq : plainEntries? plain = some entries
  json_eq : ∃ v, Json.Reads (Json.Symbol.ofText json) v [] ∧ jsonEntries? v = some entries ∧
    ∀ w, Json.Reads (Json.Symbol.ofText json) w [] → w = v
  index_eq : entries.map (·.index) = List.range sentences.length
  isOf : List.Forall₂ (Entry.IsOf clean) sentences entries

def Invocation.segmented (i : Invocation) (json : Bool) : Invocation :=
  { i with wholeDocument := false, json := json }

variable {e : Entry} {n : Nat} {c : Char} {clean : Text} {ss : List Sentence}

theorem mapM_map_eq_some {α β : Type} {f : α → β} {g : β → Option α} {as : List α}
    (h : ∀ a ∈ as, g (f a) = some a) : (as.map f).mapM g = some as := by
  induction as with
  | nil => rfl
  | cons a as ih =>
    obtain ⟨ha, has⟩ := List.forall_mem_cons.mp h
    simp [ha, ih has]

theorem decimal?_ofNat (n : Nat) : decimal? (Text.ofNat n) = some n := by
  have hdigits : (Text.ofNat n).all Char.isDigit :=
    List.all_eq_true.mpr fun _ ↦ isDigit_of_mem_ofNat
  rw [decimal?, if_pos ⟨Nat.toDigits_ne_nil, hdigits⟩]
  exact congrArg some (Nat.ofDigitChars_toDigits (by decide) (by decide))

namespace Entry

theorem ofJson?_toJson (e : Entry) : ofJson? e.toJson = some e := rfl

theorem not_blank_of_mem_ofNat (hc : c ∈ Text.ofNat n) : isBlank c = false := by
  have hdigit := isDigit_iff.mp (isDigit_of_mem_ofNat hc)
  simp only [isBlank, Bool.or_eq_false_iff, Bool.and_eq_false_iff, decide_eq_false_iff_not,
    beq_eq_false_iff_ne]
  omega

theorem comma_not_mem_ofNat (n : Nat) : ',' ∉ Text.ofNat n := by
  intro hmem
  cases isDigit_of_mem_ofNat hmem

theorem not_blank_of_mem_ranges (hc : c ∈ e.ranges) : isBlank c = false := by
  rcases List.mem_append.mp hc with hc | hc
  · rcases List.mem_append.mp hc with hc | hc
    · rw [List.mem_singleton.mp hc]
      rfl
    · rcases mem_intercalate hc with rfl | ⟨digits, hdigits, hc⟩
      · rfl
      · obtain ⟨n, -, rfl⟩ := List.mem_map.mp hdigits
        exact not_blank_of_mem_ofNat hc
  · rw [List.mem_singleton.mp hc]
    rfl

/-- No field breaks a line or is taken for two. -/
theorem eq_space_of_mem_fields (h : IsSqueezed e.text) : ∀ field ∈ e.fields, ∀ c ∈ field,
    isBlank c → c = ' ' := by
  have hmarker (b : Bool) : (if b then "title" else "body").toList.all (!isBlank ·) := by
    cases b <;> rfl
  simp only [fields, List.forall_mem_cons]
  refine ⟨?_, ?_, h.eq_space, ?_, nofun⟩
  · intro c hc hblank
    rw [not_blank_of_mem_ofNat hc] at hblank
    cases hblank
  · intro c hc hblank
    simpa [hblank] using List.all_eq_true.mp (hmarker e.inTitle) c hc
  · intro c hc hblank
    rw [not_blank_of_mem_ranges hc] at hblank
    cases hblank

theorem splitOn_toLine (h : IsSqueezed e.text) : e.toLine.splitOn '\t' = e.fields := by
  apply List.splitOn_intercalate
  · intro field hfield htab
    exact absurd (eq_space_of_mem_fields h field hfield _ htab rfl) (by decide)
  · exact List.cons_ne_nil _ _

theorem newline_not_mem_toLine (h : IsSqueezed e.text) : '\n' ∉ e.toLine := by
  intro hmem
  rcases mem_intercalate hmem with heq | ⟨field, hfield, hmem⟩
  · exact absurd heq (by decide)
  · exact absurd (eq_space_of_mem_fields h field hfield _ hmem rfl) (by decide)

theorem ranges_eq (e : Entry) : (e.ranges.tail.dropLast.splitOn ',').mapM decimal? =
    some [e.clean.start, e.clean.stop, e.source.start, e.source.stop] := by
  rw [ranges, List.singleton_append, List.cons_append, List.tail_cons, List.dropLast_concat,
    List.splitOn_intercalate]
  · exact mapM_map_eq_some fun n _ ↦ decimal?_ofNat n
  · intro digits hdigits
    obtain ⟨n, -, rfl⟩ := List.mem_map.mp hdigits
    exact comma_not_mem_ofNat n
  · exact List.cons_ne_nil _ _

theorem ofLine?_toLine (h : IsSqueezed e.text) : ofLine? e.toLine = some e := by
  have hmarker : ∀ b : Bool, inTitle? (if b then "title" else "body").toList = some b := by decide
  rw [ofLine?, splitOn_toLine h, fields]
  simp only [ranges_eq, decimal?_ofNat, hmarker]
  rfl

end Entry

theorem reads_reportJson (v : Json.Value) :
    Json.Reads (Json.Symbol.ofText (reportJson v)) v [] := by
  have hend : Json.Symbol.ofText ['\n'] = [] := by
    rw [Json.Symbol.ofText, if_pos (by decide), Json.Symbol.ofText]
  have hreads := Json.reads_write Json.isSpaced_indented v 0 ['\n']
    (Json.endsValue_cons rfl (by decide) rfl [])
  rw [hend] at hreads
  exact hreads

namespace Outline

theorem plainFrom_eq (clean : Text) (index : Nat) (buffer : Text) (ss : List Sentence) :
    plainFrom clean index buffer ss =
      ((entriesFrom clean index buffer ss).map Entry.toLine).flatMap (· ++ ['\n']) := by
  induction ss generalizing index buffer with
  | nil => rfl
  | cons s ss ih =>
    rw [plainFrom, entriesFrom, ih]
    simp

theorem index_entriesFrom (clean : Text) (index : Nat) (buffer : Text) (ss : List Sentence) :
    (entriesFrom clean index buffer ss).map (·.index) = List.range' index ss.length := by
  induction ss generalizing index buffer with
  | nil => rfl
  | cons s ss ih => exact congrArg (index :: ·) (ih _ _)

theorem isOf_entriesFrom (index : Nat) (buffer : Text)
    (h : ∀ s ∈ ss, ∃ cs, slice? clean s.clean = some cs) :
    List.Forall₂ (Entry.IsOf clean) ss (entriesFrom clean index buffer ss) := by
  induction ss generalizing index buffer with
  | nil => exact .nil
  | cons s ss ih =>
    obtain ⟨⟨cs, hcs⟩, hss⟩ := List.forall_mem_cons.mp h
    refine .cons ⟨rfl, rfl, rfl, cs, hcs, ?_⟩ (ih _ _ hss)
    rw [Entry.ofSentence, hcs, Option.getD_some, squeezeInto_eq, ← squeeze_eq]
    exact squeezes_squeeze cs

theorem isSqueezed_of_isOf {es : List Entry} (h : List.Forall₂ (Entry.IsOf clean) ss es) :
    ∀ e ∈ es, IsSqueezed e.text := by
  induction h with
  | nil => exact nofun
  | cons he _ ih =>
    obtain ⟨cs, -, hcs⟩ := he.text_eq
    exact List.forall_mem_cons.mpr ⟨hcs.isSqueezed, ih⟩

theorem plainEntries?_lines {es : List Entry} (h : ∀ e ∈ es, IsSqueezed e.text) :
    plainEntries? ((es.map Entry.toLine).flatMap (· ++ ['\n'])) = some es := by
  have hlines : ∀ line ∈ es.map Entry.toLine, '\n' ∉ line := by
    intro line hline
    obtain ⟨e, he, rfl⟩ := List.mem_map.mp hline
    exact Entry.newline_not_mem_toLine (h e he)
  rw [plainEntries?, splitOn_flatMap hlines, List.dropLast_concat]
  exact mapM_map_eq_some fun e he ↦ Entry.ofLine?_toLine (h e he)

theorem jsonEntries?_toJson (file : Text) (o : Outline) : jsonEntries? (o.toJson file) =
    some (entriesFrom o.text 0 [] (o.sentences.getD [])) :=
  mapM_map_eq_some fun e _ ↦ Entry.ofJson?_toJson e

theorem reports (o : Outline) (file : Text)
    (h : ∀ s ∈ o.sentences.getD [], ∃ cs, slice? o.text s.clean = some cs) :
    Reports o.text (o.sentences.getD []) o.toPlain (reportJson (o.toJson file))
      (entriesFrom o.text 0 [] (o.sentences.getD [])) := by
  have hisOf := isOf_entriesFrom 0 [] h
  have hsqueezed := isSqueezed_of_isOf hisOf
  have hplain := plainFrom_eq o.text 0 [] (o.sentences.getD [])
  have hjson := reads_reportJson (o.toJson file)
  refine ⟨⟨_, hplain, ?_, ?_⟩, ?_, ⟨_, hjson, jsonEntries?_toJson file o, ?_⟩, ?_, hisOf⟩
  · rw [List.length_map, hisOf.length_eq]
  · intro line hline
    obtain ⟨e, he, rfl⟩ := List.mem_map.mp hline
    refine ⟨Entry.newline_not_mem_toLine (hsqueezed e he), ?_⟩
    rw [Entry.splitOn_toLine (hsqueezed e he)]
    rfl
  · rw [toPlain, hplain]
    exact plainEntries?_lines hsqueezed
  · intro w hw
    exact (hw.unique hjson).1
  · rw [index_entriesFrom, List.range_eq_range']

end Outline

theorem Splitter.exists_text_of_sentence (s : Splitter) (m : Text) :
    ∀ x ∈ (s.outline 0 m true).sentences.getD [],
      ∃ cs, slice? (s.outline 0 m true).text x.clean = some cs := by
  intro x hx
  exact (isIn_of_mem_splitLines hx).clean.2

/-- What stops a report: the settings, the rules that they give, or the markup, the first of them
that fails. -/
inductive Invocation.FailsWith (i : Invocation) (config markup : Source) : Failure → Prop
  | settings {failure : Failure} :
      i.settings config = .error failure → i.FailsWith config markup failure
  | rules {settings : Settings} {error : RulesError} :
      i.settings config = .ok settings → Splitter.ofRules settings.rules = .error error →
      i.FailsWith config markup (.rules error)
  | markup {settings : Settings} {splitter : Splitter} {error : ReadError} :
      i.settings config = .ok settings → Splitter.ofRules settings.rules = .ok splitter →
      markup.read = .error error → i.FailsWith config markup (.markup i.file error)

namespace Invocation

variable {i : Invocation} {config markup : Source} {failure : Failure}

theorem run_segmented (i : Invocation) (json : Bool) (config markup : Source) :
    (i.segmented json).run config markup = do
      let settings ← i.settings config
      let splitter ← (Splitter.ofRules settings.rules).mapError .rules
      let m ← markup.read.mapError (.markup i.file)
      return (i.segmented json).report splitter m := rfl

theorem FailsWith.run_segmented (h : i.FailsWith config markup failure) (json : Bool) :
    (i.segmented json).run config markup = .error failure := by
  rw [Invocation.run_segmented]
  cases h with
  | settings hsettings =>
    rw [hsettings]
    rfl
  | rules hsettings hrules =>
    rw [hsettings]
    simp only [hrules, bind, Except.bind, Except.mapError]
  | markup hsettings hrules hread =>
    rw [hsettings]
    simp only [hrules, hread, bind, Except.bind, Except.mapError]

/-- No report is printed if one of these fails, and else both are, from the same sentences. -/
theorem failsWith_or_run_segmented (i : Invocation) (config markup : Source) :
    (∃ failure, i.FailsWith config markup failure) ∨
    ∃ settings splitter m, i.settings config = .ok settings ∧
      Splitter.ofRules settings.rules = .ok splitter ∧ markup.read = .ok m ∧
      ∀ json, (i.segmented json).run config markup =
        .ok ((i.segmented json).report splitter m) := by
  cases hsettings : i.settings config with
  | error failure => exact .inl ⟨failure, .settings hsettings⟩
  | ok settings =>
    cases hrules : Splitter.ofRules settings.rules with
    | error error => exact .inl ⟨_, .rules hsettings hrules⟩
    | ok splitter =>
      cases hread : markup.read with
      | error error => exact .inl ⟨_, .markup hsettings hrules hread⟩
      | ok m =>
        refine .inr ⟨settings, splitter, m, rfl, hrules, rfl, fun json ↦ ?_⟩
        rw [run_segmented, hsettings]
        simp only [hrules, hread, bind, Except.bind, Except.mapError]
        rfl

end Invocation

/-- Both reports say the same about the same sentences, and the plain one can be taken apart. -/
theorem reports_agree :
    (∀ (i : Invocation) (config markup : Source),
      (∃ failure, i.FailsWith config markup failure ∧
        ∀ json, (i.segmented json).run config markup = .error failure) ∨
      ∃ settings splitter m plain json entries, i.settings config = .ok settings ∧
        Splitter.ofRules settings.rules = .ok splitter ∧ markup.read = .ok m ∧
        (i.segmented false).run config markup = .ok plain ∧
        (i.segmented true).run config markup = .ok json ∧
        Reports (splitter.outline 0 m true).text
          ((splitter.outline 0 m true).sentences.getD []) plain json entries) ∧
    ∀ cs : Text, Squeezes cs (squeeze cs) ∧ squeeze (squeeze cs) = squeeze cs ∧
      ∀ buffer, squeezeInto buffer cs = squeeze cs := by
  constructor
  · intro i config markup
    rcases i.failsWith_or_run_segmented config markup with ⟨failure, hfailure⟩ | hsuccess
    · exact .inl ⟨failure, hfailure, hfailure.run_segmented⟩
    · obtain ⟨settings, splitter, m, hsettings, hrules, hread, hrun⟩ := hsuccess
      have hreports := Outline.reports (splitter.outline 0 m true) i.file
        (splitter.exists_text_of_sentence m)
      exact .inr ⟨settings, splitter, m, _, _, _, hsettings, hrules, hread, hrun false, hrun true,
        hreports⟩
  · intro cs
    refine ⟨squeezes_squeeze cs, squeeze_squeeze cs, fun buffer ↦ ?_⟩
    rw [squeezeInto_eq, squeeze_eq]

end MarkupText
