import MarkupText.Proofs.Writers
import MarkupText.Session

namespace MarkupText

open Text

inductive Mode
  | whole
  | outline (wantSentences : Bool)

def Mode.request (w : Window) : Mode → Request
  | whole => .whole w
  | outline wantSentences => .outline w wantSentences

namespace Session

def after (s : Session) (rs : List Request) : Session := rs.foldl (fun s r ↦ (s.answer r).2) s

def fresh (s : Session) : Session := ⟨.ofSplitter s.analyzer.splitter, []⟩

end Session

/-- The document `d` is `d'` but for its place, which is `base` bytes further. -/
structure Document.SameAt (base : Nat) (d d' : Document) : Prop where
  window : d.window = d'.window.shift base
  tokenCount : d.tokenCount = d'.tokenCount
  text : d.text = d'.text
  table : d.table = d'.table
  sourceOffset (side : Side) (offset : Nat) :
    RunIndex.sourceOffset side d.table offset = RunIndex.sourceOffset side d'.table offset
  sourceSpan (clean : Span) :
    RunIndex.sourceSpan d.table clean = RunIndex.sourceSpan d'.table clean

structure Outline.SameAt (base : Nat) (o o' : Outline) : Prop where
  window : o.window = o'.window.shift base
  tokenCount : o.tokenCount = o'.tokenCount
  text : o.text = o'.text
  lines : o.lines = o'.lines
  sentences : o.sentences = o'.sentences
  lineIndex? (offset : Nat) : o.lineIndex? offset = o'.lineIndex? offset
  lineHolding? (offset : Nat) : o.lineHolding? offset = o'.lineHolding? offset
  sourceOffset (offset : Nat) : o.sourceOffset offset = o'.sourceOffset offset
  sourceSpan (i : Nat) (clean : Span) :
    o.lines[i]?.map (RunIndex.sourceSpan · clean) = o'.lines[i]?.map (RunIndex.sourceSpan · clean)

/-- The first answer is that a document with the given text was added after `base` bytes of output,
the second is the same with no output before it. -/
inductive Answer.SameAt (base : Nat) (text : Text) : Answer → Answer → Prop
  | whole {d d' : Document} : d.window = ⟨base, base + byteLength text⟩ → d.text = text →
    d.SameAt base d' → SameAt base text (.whole d) (.whole d')
  | outline {o o' : Outline} : o.window = ⟨base, base + byteLength text⟩ → o.text = text →
    o.SameAt base o' → SameAt base text (.outline o) (.outline o')

variable {s : Session} {rs : List Request} {r : Request} {cs ds text : Text} {span : Span}

theorem Document.sameAt_ofMarkup (base : Nat) (markup : Text) :
    (ofMarkup base markup).SameAt base (ofMarkup 0 markup) where
  window := by simp [ofMarkup, Span.shift]
  tokenCount := rfl
  text := rfl
  table := rfl
  sourceOffset _ _ := rfl
  sourceSpan _ := rfl

theorem Outline.sameAt_outline (s : Splitter) (base : Nat) (markup : Text) (wantSentences : Bool) :
    (s.outline base markup wantSentences).SameAt base (s.outline 0 markup wantSentences) where
  window := by simp [Splitter.outline, Span.shift]
  tokenCount := rfl
  text := rfl
  lines := rfl
  sentences := rfl
  lineIndex? _ := rfl
  lineHolding? _ := rfl
  sourceOffset _ := rfl
  sourceSpan _ _ := rfl

namespace Session

theorem answer_whole (s : Session) (w : Window) :
    s.answer (.whole w) =
      let d := Document.ofMarkup (byteLength s.output) w.text
      (.whole d, ⟨{ s.analyzer.reset with table := d.table }, s.output ++ d.text⟩) := by
  simp only [answer, Analyzer.whole_eq]

theorem answer_outline (s : Session) (w : Window) (wantSentences : Bool) :
    s.answer (.outline w wantSentences) =
      let o := s.analyzer.splitter.outline (byteLength s.output) w.text wantSentences
      (.outline o, ⟨{ s.analyzer.reset with
        lines := o.lines
        sentences := (o.sentences.getD []).toArray }, s.output ++ o.text⟩) := by
  simp only [answer, Analyzer.outline_eq]

theorem splitter_answer (s : Session) (r : Request) :
    (s.answer r).2.analyzer.splitter = s.analyzer.splitter := by
  cases r with
  | whole w => rw [answer_whole]; rfl
  | outline w wantSentences => rw [answer_outline]; rfl
  | reset => rfl
  | append text => rfl
  | clear => rfl

/-- A request adds to the output, unless it empties it. -/
theorem output_answer (hr : r ≠ .clear) : s.output <+: (s.answer r).2.output := by
  cases r with
  | whole w =>
    rw [answer_whole]
    exact List.prefix_append _ _
  | outline w wantSentences =>
    rw [answer_outline]
    exact List.prefix_append _ _
  | reset => exact List.prefix_refl _
  | append text => exact List.prefix_append _ _
  | clear => exact absurd rfl hr

theorem splitter_after (s : Session) (rs : List Request) :
    (s.after rs).analyzer.splitter = s.analyzer.splitter := by
  induction rs generalizing s with
  | nil => rfl
  | cons r rs ih => exact (ih (s.answer r).2).trans (s.splitter_answer r)

theorem output_after (hrs : .clear ∉ rs) : s.output <+: (s.after rs).output := by
  induction rs generalizing s with
  | nil => exact List.prefix_refl _
  | cons r rs ih =>
    have hr : r ≠ .clear := fun h ↦ hrs (h ▸ List.mem_cons_self)
    have hrest : .clear ∉ rs := fun h ↦ hrs (List.mem_cons_of_mem r h)
    exact (output_answer hr).trans (ih hrest)

theorem after_append (s : Session) (rs rs' : List Request) :
    s.after (rs ++ rs') = (s.after rs).after rs' := List.foldl_append

end Session

theorem slice?_of_prefix (h : slice? cs span = some text) (hbegins : cs <+: ds) :
    slice? ds span = some text := by
  obtain ⟨as, bs, rfl, hstart, hstop⟩ := slice?_eq_some_iff.mp h
  obtain ⟨es, rfl⟩ := hbegins
  exact slice?_eq_some_iff.mpr ⟨as, bs ++ es, by simp, hstart, hstop⟩

theorem Session.answer_request (s : Session) (mode : Mode) (w : Window) :
    ∃ text, Answer.SameAt (byteLength s.output) text (s.answer (mode.request w)).1
        (s.fresh.answer (mode.request (.whole w.text))).1 ∧
      (s.answer (mode.request w)).2.output = s.output ++ text := by
  cases mode with
  | whole =>
    refine ⟨(Document.ofMarkup 0 w.text).text, ?_, ?_⟩
    · rw [Mode.request, Mode.request, answer_whole, answer_whole]
      exact .whole rfl rfl (Document.sameAt_ofMarkup _ _)
    · rw [Mode.request, answer_whole]
      rfl
  | outline wantSentences =>
    refine ⟨(s.analyzer.splitter.outline 0 w.text wantSentences).text, ?_, ?_⟩
    · rw [Mode.request, Mode.request, answer_outline, answer_outline]
      exact .outline rfl rfl (Outline.sameAt_outline _ _ _ _)
    · rw [Mode.request, answer_outline]
      rfl

/-- What a session answers does not depend on what was asked before, nor on what surrounds a
document, but for where in the output its text stands. It stays there until the output is emptied. -/
theorem answer_after (s : Session) (before : List Request) (mode : Mode) (w : Window) :
    ∃ text,
      Answer.SameAt (byteLength (s.after before).output) text
        ((s.after before).answer (mode.request w)).1
        (s.fresh.answer (mode.request (.whole w.text))).1 ∧
      (s.after (before ++ [mode.request w])).output = (s.after before).output ++ text ∧
      ∀ later, .clear ∉ later →
        slice? (s.after (before ++ mode.request w :: later)).output
          ⟨byteLength (s.after before).output,
            byteLength (s.after before).output + byteLength text⟩ = some text := by
  obtain ⟨text, hsame, houtput⟩ := (s.after before).answer_request mode w
  have hfresh : (s.after before).fresh = s.fresh := by
    rw [Session.fresh, s.splitter_after, Session.fresh]
  rw [hfresh] at hsame
  have hafter : (s.after (before ++ [mode.request w])).output =
      (s.after before).output ++ text := by
    rw [s.after_append]
    exact houtput
  refine ⟨text, hsame, hafter, ?_⟩
  intro later hlater
  have hslice := slice?_append (s.after before).output text []
  rw [List.append_nil, ← hafter] at hslice
  have hsplit : s.after (before ++ mode.request w :: later) =
      (s.after (before ++ [mode.request w])).after later := by
    rw [List.append_cons, ← s.after_append]
  apply slice?_of_prefix hslice
  rw [hsplit]
  exact Session.output_after hlater

end MarkupText
