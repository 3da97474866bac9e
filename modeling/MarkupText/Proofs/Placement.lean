import MarkupText.Proofs.Lossless
import MarkupText.Proofs.Merging

namespace MarkupText

theorem Token.shownText?_ne_nil {t : Token} {text : Text} (ht : t.text ≠ [])
    (h : t.shownText? = some text) : text ≠ [] := by
  unfold Token.shownText? at h
  split at h
  · exact Option.some.inj h ▸ ht
  · exact Option.some.inj h ▸ ht
  · exact Option.some.inj h ▸ ht
  · obtain ⟨c, -, rfl⟩ := Option.map_eq_some_iff.mp h
    exact List.cons_ne_nil c []
  · cases h

theorem Token.event?_eq_content {t : Token} {g : Region} {f : Fragment}
    (h : t.event? g = some (.content f)) :
    t.shownText? = some f.text ∧ f.source = t.span ∧ f.inTitle = g.inTitle := by
  unfold Token.event? at h
  split at h
  · split at h <;> cases h
  · split at h
    · cases h
    · obtain ⟨text, htext, hf⟩ := Option.map_eq_some_iff.mp h
      cases hf
      exact ⟨htext, rfl, rfl⟩

def contents {α : Type} (es : List (Event α)) : List α := es.filterMap Event.content?

@[simp] theorem contents_nil {α : Type} : contents ([] : List (Event α)) = [] := rfl

@[simp] theorem contents_boundary {α : Type} (es : List (Event α)) :
    contents (.boundary :: es) = contents es := rfl

@[simp] theorem contents_content {α : Type} (a : α) (es : List (Event α)) :
    contents (.content a :: es) = a :: contents es := rfl

@[simp] theorem contents_append {α : Type} (es es' : List (Event α)) :
    contents (es ++ es') = contents es ++ contents es' := List.filterMap_append

@[simp] theorem cleanText_content (f : Fragment) (es : List (Event Fragment)) :
    cleanText (.content f :: es) = f.text ++ cleanText es := rfl

/-- The runs among events tile `clean`, and each boundary takes up some of the markup. -/
def Layout (source clean : Span) : List (Event Run) → Prop
  | [] => source.start ≤ source.stop ∧ clean.start = clean.stop
  | .boundary :: es => Layout ⟨source.start + 1, source.stop⟩ clean es
  | .content r :: es => source.start ≤ r.source.start ∧ r.source.start < r.source.stop ∧
      r.clean.start = clean.start ∧ r.clean.start < r.clean.stop ∧
      Layout ⟨r.source.stop, source.stop⟩ ⟨r.clean.stop, clean.stop⟩ es

namespace Layout

variable {source clean : Span} {es : List (Event Run)} {p q stop : Nat}

theorem source_mono (h : Layout ⟨q, stop⟩ clean es) (hpq : p ≤ q) :
    Layout ⟨p, stop⟩ clean es := by
  induction es generalizing p q with
  | nil => exact ⟨Nat.le_trans hpq h.1, h.2⟩
  | cons e es ih =>
    cases e with
    | boundary => exact ih h (Nat.add_le_add_right hpq 1)
    | content r =>
      obtain ⟨hsource, h⟩ := h
      exact ⟨Nat.le_trans hpq hsource, h⟩

theorem tiling (h : Layout source clean es) : Tiling source clean (contents es) := by
  induction es generalizing source clean with
  | nil => exact h
  | cons e es ih =>
    cases e with
    | boundary => exact (ih h).source_mono (Nat.le_succ source.start)
    | content r =>
      obtain ⟨hsource, hlt, hclean, hlt', h⟩ := h
      exact ⟨hsource, hlt, hclean, hlt', ih h⟩

end Layout

theorem layout_placeFrom {start : Nat} {ts : List Token} (hts : Contiguous start ts)
    (g : Region) (offset : Nat) :
    Layout ⟨start, start + Text.byteLength (ts.flatMap Token.text)⟩
      ⟨offset, offset + Text.byteLength (cleanText (eventsFrom g ts))⟩
      (placeFrom offset (eventsFrom g ts)) := by
  induction ts generalizing start g offset with
  | nil => exact ⟨Nat.le_refl _, rfl⟩
  | cons t ts ih =>
    have hlt := hts.offset_lt_stop List.mem_cons_self
    obtain ⟨rfl, hne, hts⟩ := hts
    have hstop : t.offset + Text.byteLength ((t :: ts).flatMap Token.text) =
        t.stop + Text.byteLength (ts.flatMap Token.text) := by
      simp only [List.flatMap_cons, Text.byteLength_append, Token.stop, Token.length,
        Nat.add_assoc]
    rw [hstop, eventsFrom]
    cases he : t.event? g with
    | none => exact (ih hts (g.after t.kind) offset).source_mono (Nat.le_of_lt hlt)
    | some e =>
      cases e with
      | boundary => exact (ih hts (g.after t.kind) offset).source_mono hlt
      | content f =>
        obtain ⟨htext, hsource, -⟩ := Token.event?_eq_content he
        have hpos := Text.byteLength_pos (Token.shownText?_ne_nil hne htext)
        have htail := ih hts (g.after t.kind) (offset + Text.byteLength f.text)
        simp only [Option.toList_some, List.cons_append, List.nil_append, placeFrom, Layout,
          cleanText_content, Text.byteLength_append, hsource, Token.span]
        refine ⟨Nat.le_refl _, hlt, trivial, by omega, ?_⟩
        rwa [← Nat.add_assoc]

theorem exists_token_of_mem {g : Region} {ts : List Token} {f : Fragment}
    (hf : f ∈ contents (eventsFrom g ts)) :
    ∃ t ∈ ts, t.shownText? = some f.text ∧ f.source = t.span := by
  induction ts generalizing g with
  | nil => cases hf
  | cons t ts ih =>
    rw [eventsFrom, contents_append, List.mem_append] at hf
    rcases hf with hf | hf
    · obtain ⟨e, he, hcontent⟩ := List.mem_filterMap.mp hf
      cases e with
      | boundary => cases hcontent
      | content f' =>
        cases hcontent
        obtain ⟨htext, hsource, -⟩ := Token.event?_eq_content (Option.mem_toList.mp he)
        exact ⟨t, List.mem_cons_self, htext, hsource⟩
    · obtain ⟨u, hu, h⟩ := ih hf
      exact ⟨u, List.mem_cons_of_mem t hu, h⟩

theorem exists_fragment_of_mem {es : List (Event Fragment)} (front : Text) {r : Run}
    (hr : r ∈ contents (placeFrom (Text.byteLength front) es)) :
    ∃ f ∈ contents es, r.source = f.source ∧ r.inTitle = f.inTitle ∧
      Text.slice? (front ++ cleanText es) r.clean = some f.text := by
  induction es generalizing front with
  | nil => cases hr
  | cons e es ih =>
    cases e with
    | boundary =>
      obtain ⟨f, hf, h⟩ := ih front hr
      exact ⟨f, hf, h⟩
    | content f =>
      simp only [placeFrom, contents_content, List.mem_cons] at hr
      rcases hr with rfl | hr
      · refine ⟨f, List.mem_cons_self, rfl, rfl, ?_⟩
        rw [cleanText_content, Text.slice?_append]
      · rw [← Text.byteLength_append] at hr
        obtain ⟨f', hf', hsource, htitle, hslice⟩ := ih (front ++ f.text) hr
        refine ⟨f', List.mem_cons_of_mem f hf', hsource, htitle, ?_⟩
        rwa [cleanText_content, ← List.append_assoc]

def fragmentRuns (m : Text) : List Run := contents (placeFrom 0 (events (tokens m)))

theorem layout_tokens (m : Text) : Layout ⟨0, Text.byteLength m⟩
    ⟨0, Text.byteLength (cleanText (events (tokens m)))⟩ (placeFrom 0 (events (tokens m))) := by
  have h := layout_placeFrom (contiguous_tokens m) {} 0
  simp only [flatMap_text_tokens, Nat.zero_add] at h
  exact h

theorem tiling_fragmentRuns (m : Text) : Tiling ⟨0, Text.byteLength m⟩
    ⟨0, Text.byteLength (cleanText (events (tokens m)))⟩ (fragmentRuns m) :=
  (layout_tokens m).tiling

theorem exists_token_of_fragmentRun {m : Text} {r : Run} (hr : r ∈ fragmentRuns m) :
    ∃ t ∈ tokens m, ∃ text, t.shownText? = some text ∧ r.source = t.span ∧
      Text.slice? (cleanText (events (tokens m))) r.clean = some text := by
  obtain ⟨f, hf, hsource, -, hslice⟩ := exists_fragment_of_mem [] hr
  obtain ⟨t, ht, htext, hspan⟩ := exists_token_of_mem hf
  exact ⟨t, ht, f.text, htext, hsource.trans hspan, hslice⟩

end MarkupText
