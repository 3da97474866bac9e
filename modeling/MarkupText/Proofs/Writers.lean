import MarkupText.Analyzer
import MarkupText.Proofs.Blocks
import MarkupText.Proofs.HeldPieces

namespace MarkupText

open Text

variable {σ : Type} [RunStore σ] {output : Buffer} {store : σ} {ts : List Token} {t : Token}
  {w : Writer σ}

structure Writer.HasWritten (output : Buffer) (store : σ) (ts : List Token) (w : Writer σ) :
    Prop where
  base : w.base = output.length
  text : w.output.text = output.text ++ cleanText (events ts)
  store : w.store = RunStore.collect store (placeFrom 0 (events ts))
  region : w.region = regionAfter ts
  tokenCount : w.tokenCount = ts.length

theorem events_concat (ts : List Token) (t : Token) :
    events (ts ++ [t]) = events ts ++ (t.event? (regionAfter ts)).toList := by
  rw [events_append, eventsFrom, eventsFrom, List.append_nil]

namespace Writer

theorem hasWritten_start (output : Buffer) (store : σ) :
    HasWritten output store [] (start output store) where
  base := rfl
  text := (List.append_nil _).symm
  store := rfl
  region := rfl
  tokenCount := rfl

theorem emit_of_ne_nil {f : Fragment} (hf : f.text ≠ []) :
    w.emit f =
      { w with
        output := w.output.append f.text
        store := RunStore.accept w.store ⟨f.source, ⟨w.output.length - w.base,
          w.output.length - w.base + byteLength f.text⟩, f.inTitle⟩ } := by
  have hempty : ¬f.text.isEmpty := fun h ↦ hf (List.isEmpty_iff.mp h)
  rw [emit, if_neg hempty]

namespace HasWritten

theorem length_sub (h : HasWritten output store ts w) :
    w.output.length - w.base = byteLength (cleanText (events ts)) := by
  rw [h.base, ← Buffer.byteLength_text, ← Buffer.byteLength_text, h.text, byteLength_append,
    Nat.add_sub_cancel_left]

theorem step (h : HasWritten output store ts w) (ht : t.text ≠ []) :
    HasWritten output store (ts ++ [t]) (w.step t) := by
  have hevents := events_concat ts t
  have hregion : w.region.after t.kind = regionAfter (ts ++ [t]) := by
    rw [h.region, regionAfter_concat]
  have hcount : w.tokenCount + 1 = (ts ++ [t]).length := by
    rw [h.tokenCount, List.length_append, List.length_singleton]
  rw [← h.region] at hevents
  rw [Writer.step]
  cases he : t.event? w.region with
  | none =>
    rw [he, Option.toList_none, List.append_nil] at hevents
    exact ⟨h.base, hevents ▸ h.text, hevents ▸ h.store, hregion, hcount⟩
  | some e =>
    rw [he, Option.toList_some] at hevents
    cases e with
    | boundary =>
      refine ⟨h.base, ?_, ?_, hregion, hcount⟩
      · rw [hevents, cleanText_append]
        exact h.text.trans (congrArg _ (List.append_nil _).symm)
      · rw [hevents, placeFrom_append, RunStore.collect_append, ← h.store]
        rfl
    | content f =>
      have hf := Token.shownText?_ne_nil ht (Token.event?_eq_content he).1
      simp only [emit_of_ne_nil hf, h.length_sub]
      refine ⟨h.base, ?_, ?_, hregion, hcount⟩
      · rw [hevents, cleanText_append, Buffer.text_append, h.text, List.append_assoc]
        exact congrArg _ (congrArg _ (List.append_nil _).symm)
      · rw [hevents, placeFrom_append, RunStore.collect_append, ← h.store, Nat.zero_add]
        rfl

theorem run (hts : ∀ t ∈ ts, t.text ≠ []) :
    HasWritten output store ts (ts.foldl Writer.step (start output store)) := by
  induction ts using List.reverseRecOn with
  | nil => exact hasWritten_start output store
  | append_singleton ts t ih =>
    rw [List.foldl_concat]
    apply (ih fun u hu ↦ hts u (List.mem_append_left _ hu)).step
    exact hts t (List.mem_append_right _ List.mem_cons_self)

end HasWritten

variable (output : Buffer) (markup : Text) (store : σ)

theorem hasWritten_run : HasWritten output store (tokens markup) (run output markup store) := by
  apply HasWritten.run
  intro t ht
  exact (contiguous_tokens markup).text_ne_nil ht

theorem output_run :
    (run output markup store).output.text =
      output.text ++ (Extraction.run markup store).text :=
  (hasWritten_run output markup store).text

theorem window_run : (run output markup store).window = ⟨byteLength output.text,
    byteLength output.text + byteLength (Extraction.run markup store).text⟩ := by
  rw [window, (hasWritten_run output markup store).base, ← Buffer.byteLength_text,
    ← Buffer.byteLength_text, output_run, byteLength_append]

theorem text_run : (run output markup store).text = (Extraction.run markup store).text := by
  have hslice := slice?_append output.text (Extraction.run markup store).text []
  rw [List.append_nil] at hslice
  rw [text, window_run, output_run, hslice, Option.getD_some]

end Writer

namespace Analyzer

variable (a : Analyzer) (markup : Window) (output : Text) (wantSentences : Bool)

/-- What the tables held before does not matter. -/
theorem whole_eq :
    a.whole markup output =
      let d := Document.ofMarkup (byteLength output) markup.text
      (d, { a.reset with table := d.table }, output ++ d.text) := by
  have hwritten := Writer.hasWritten_run (.ofText output) markup.text ({} : RunTable)
  simp only [whole, reset, Document.ofMarkup, Writer.window_run, Writer.text_run,
    Writer.output_run, hwritten.store, hwritten.tokenCount, Buffer.text_ofText]
  rfl

theorem outline_eq :
    a.outline markup wantSentences output =
      let o := a.splitter.outline (byteLength output) markup.text wantSentences
      (o, { a.reset with lines := o.lines, sentences := (o.sentences.getD []).toArray },
        output ++ o.text) := by
  have hwritten := Writer.hasWritten_run (.ofText output) markup.text ({} : LineBuilder)
  have hsentences (clean : Text) (lines : Array Line) :
      lines.foldl (a.splitter.splitLineInto clean) #[] =
        (a.splitter.splitLines clean lines).toArray := by
    apply Array.toList_inj.mp
    rw [a.splitter.toList_foldl_splitLineInto, List.toList_toArray]
    rfl
  simp only [outline, reset, Splitter.outline, Writer.window_run, Writer.text_run,
    Writer.output_run, hwritten.store, hwritten.tokenCount, Buffer.text_ofText, hsentences]
  cases wantSentences <;> rfl

end Analyzer

end MarkupText
