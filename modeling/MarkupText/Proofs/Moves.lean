import Mathlib.Data.List.Forall2
import MarkupText.Proofs.LineBlocks

namespace MarkupText

structure Span.Avoids (hole r : Span) : Prop where
  le : r.start ≤ r.stop
  apart : r.stop ≤ hole.start ∨ hole.stop ≤ r.start

/-- Where bytes that avoid `hole` are after `n` bytes in it have been replaced by `n'`. -/
def Span.moved (hole : Span) (n n' : Nat) (r : Span) : Span :=
  if r.stop ≤ hole.start then r else ⟨r.start + n' - n, r.stop + n' - n⟩

def Fragment.moved (hole : Span) (n n' : Nat) (f : Fragment) : Fragment :=
  { f with source := hole.moved n n' f.source }

def Run.moved (hole : Span) (n n' : Nat) (r : Run) : Run :=
  { r with source := hole.moved n n' r.source }

def Line.moved (hole : Span) (n n' : Nat) (l : Line) : Line :=
  ⟨l.runs.map (Run.moved hole n n'), by simpa using l.runs_size_pos⟩

def Event.map {α β : Type} (f : α → β) : Event α → Event β
  | content a => content (f a)
  | boundary => boundary

structure Run.Moves (hole : Span) (n n' : Nat) (r r' : Run) : Prop where
  clean : r'.clean = r.clean
  inTitle : r'.inTitle = r.inTitle
  source : r.source.stop ≤ hole.start ∧ r'.source = r.source ∨
    hole.stop ≤ r.source.start ∧ r'.source.start + n = r.source.start + n' ∧
      r'.source.stop + n = r.source.stop + n'

structure Line.Moves (hole : Span) (n n' : Nat) (l l' : Line) : Prop where
  clean : l'.clean = l.clean
  inTitle : l'.inTitle = l.inTitle
  runs : List.Forall₂ (Run.Moves hole n n') l.runs.toList l'.runs.toList

structure Document.Moves (hole : Span) (n n' : Nat) (d d' : Document) : Prop where
  text : d'.text = d.text
  runs : List.Forall₂ (Run.Moves hole n n') d.table.runs.toList d'.table.runs.toList

structure Outline.Moves (hole : Span) (n n' : Nat) (o o' : Outline) : Prop where
  text : o'.text = o.text
  lines : List.Forall₂ (Line.Moves hole n n') o.lines.toList o'.lines.toList

variable {α β : Type} {f : α → β} {hole : Span} {n n' : Nat} {r s : Run} {rs : List Run}

theorem contents_map (es : List (Event α)) :
    contents (es.map (Event.map f)) = (contents es).map f := by
  induction es with
  | nil => rfl
  | cons e es ih =>
    cases e with
    | boundary => exact ih
    | content a => exact congrArg (f a :: ·) ih

theorem Event.map_id : Event.map (id : α → α) = id := by
  funext e
  cases e <;> rfl

theorem Event.map_comp {γ : Type} (h : β → γ) (f : α → β) :
    Event.map h ∘ Event.map f = Event.map (h ∘ f) := by
  funext e
  cases e <;> rfl

theorem Event.map_congr {f' : α → β} {es : List (Event α)} (h : ∀ a ∈ contents es, f a = f' a) :
    es.map (Event.map f) = es.map (Event.map f') := by
  refine List.map_congr_left fun e he ↦ ?_
  cases e with
  | boundary => rfl
  | content a => exact congrArg content (h a (List.mem_filterMap.mpr ⟨_, he, rfl⟩))

theorem blocks_map (es : List (Event α)) : blocks (es.map (Event.map f)) =
    ((blocks es).1.map f, (blocks es).2.map (List.map f)) := by
  induction es with
  | nil => rfl
  | cons e es ih =>
    cases e with
    | boundary => simp [Event.map, blocks, ih]
    | content a => simp [Event.map, blocks, ih]

theorem shownBlocks_map (es : List (Event α)) :
    shownBlocks (es.map (Event.map f)) = (shownBlocks es).map (List.map f) := by
  have hempty : (fun b : List β ↦ !b.isEmpty) ∘ List.map f = fun b ↦ !b.isEmpty := by
    funext b
    simp
  rw [shownBlocks, blocks_map]
  dsimp only
  rw [← List.map_cons, List.filter_map, hempty, shownBlocks]

theorem cleanText_moved (es : List (Event Fragment)) :
    cleanText (es.map (Event.map (Fragment.moved hole n n'))) = cleanText es := by
  induction es with
  | nil => rfl
  | cons e es ih =>
    cases e with
    | boundary => exact ih
    | content g => exact congrArg (g.text ++ ·) ih

theorem placeFrom_moved (offset : Nat) (es : List (Event Fragment)) :
    placeFrom offset (es.map (Event.map (Fragment.moved hole n n'))) =
      (placeFrom offset es).map (Event.map (Run.moved hole n n')) := by
  induction es generalizing offset with
  | nil => rfl
  | cons e es ih =>
    cases e with
    | boundary => exact congrArg (Event.boundary :: ·) (ih offset)
    | content g => exact congrArg (Event.content _ :: ·) (ih _)

namespace Span

variable {r s : Span}

theorem length_moved (hn : hole.start + n < hole.stop) (hr : hole.Avoids r) :
    (hole.moved n n' r).length = r.length := by
  obtain ⟨hle, hr⟩ := hr
  unfold moved length
  split
  · rfl
  · dsimp only
    omega

theorem moved_meets_iff (hn : hole.start + n < hole.stop) (hr : hole.Avoids r)
    (hs : hole.Avoids s) :
    (hole.moved n n' r).stop = (hole.moved n n' s).start ↔ r.stop = s.start := by
  obtain ⟨hle, hr⟩ := hr
  obtain ⟨hle', hs⟩ := hs
  unfold moved
  split <;> split <;> simp only <;> omega

theorem moved_join (hn : hole.start < hole.stop) (hr : hole.Avoids r) (hs : hole.Avoids s)
    (h : r.stop = s.start) :
    (⟨(hole.moved n n' r).start, (hole.moved n n' s).stop⟩ : Span) =
      hole.moved n n' ⟨r.start, s.stop⟩ := by
  obtain ⟨hle, hr⟩ := hr
  obtain ⟨hle', hs⟩ := hs
  unfold moved
  dsimp only
  split
  · split
    · rfl
    · omega
  · split
    · omega
    · rfl

theorem Avoids.join (hn : hole.start < hole.stop) (hr : hole.Avoids r) (hs : hole.Avoids s)
    (h : r.stop = s.start) : hole.Avoids ⟨r.start, s.stop⟩ := by
  obtain ⟨hle, hr⟩ := hr
  obtain ⟨hle', hs⟩ := hs
  constructor <;> dsimp only <;> omega

end Span

namespace Run

theorem avoids_extend (hn : hole.start + n < hole.stop) {l : Run} (hr : hole.Avoids r.source)
    (hs : hole.Avoids s.source) (hl : r.extend? s = some l) : hole.Avoids l.source := by
  obtain ⟨⟨-, -, -, hmeet, -⟩, rfl⟩ := extend?_eq_some_iff.mp hl
  exact hr.join (by omega) hs hmeet

/-- Runs continue one another after the replacement if they did before it. -/
theorem extend?_moved (hn : hole.start + n < hole.stop) (hr : hole.Avoids r.source)
    (hs : hole.Avoids s.source) : (r.moved hole n n').extend? (s.moved hole n n') =
      (r.extend? s).map (moved hole n n') := by
  have hliteral {u : Run} (hu : hole.Avoids u.source) :
      (u.moved hole n n').isLiteral = u.isLiteral := by
    simp only [isLiteral, moved, Span.length_moved hn hu]
  unfold extend?
  rw [hliteral hr, hliteral hs]
  simp only [moved, Span.moved_meets_iff hn hr hs]
  split
  · rename_i h
    rw [Span.moved_join (by omega) hr hs h.2.2.2.1]
    rfl
  · rfl

end Run

theorem mergeAfter_moved (hn : hole.start + n < hole.stop) (hr : hole.Avoids r.source)
    (hrs : ∀ s ∈ rs, hole.Avoids s.source) :
    mergeAfter (r.moved hole n n') (rs.map (Run.moved hole n n')) =
      (mergeAfter r rs).map (Run.moved hole n n') := by
  induction rs generalizing r with
  | nil => rfl
  | cons s rs ih =>
    obtain ⟨hs, hrs⟩ := List.forall_mem_cons.mp hrs
    rw [List.map_cons, mergeAfter, mergeAfter, Run.extend?_moved hn hr hs]
    cases hl : r.extend? s with
    | some longer => exact ih (Run.avoids_extend hn hr hs hl) hrs
    | none => exact congrArg (r.moved hole n n' :: ·) (ih hs hrs)

theorem merge_moved (hn : hole.start + n < hole.stop) (hrs : ∀ r ∈ rs, hole.Avoids r.source) :
    merge (rs.map (Run.moved hole n n')) = (merge rs).map (Run.moved hole n n') := by
  cases rs with
  | nil => rfl
  | cons r rs =>
    obtain ⟨hr, hrs⟩ := List.forall_mem_cons.mp hrs
    exact mergeAfter_moved hn hr hrs

namespace Line

theorem injective_runs : Function.Injective fun l : Line ↦ l.runs.toList := by
  rintro ⟨runs, hpos⟩ ⟨runs', hpos'⟩ h
  obtain rfl : runs = runs' := Array.toList_inj.mp h
  rfl

theorem toList_moved (l : Line) :
    (l.moved hole n n').runs.toList = l.runs.toList.map (Run.moved hole n n') :=
  Array.toList_map

theorem first_moved (l : Line) : (l.moved hole n n').first = l.first.moved hole n n' := by
  simp [first, moved]

theorem last_moved (l : Line) : (l.moved hole n n').last = l.last.moved hole n n' := by
  simp [last, moved, Array.back_eq_getElem]

theorem clean_moved (l : Line) : (l.moved hole n n').clean = l.clean := by
  rw [clean, first_moved, last_moved]
  rfl

theorem inTitle_moved (l : Line) : (l.moved hole n n').inTitle = l.inTitle := by
  rw [inTitle, first_moved]
  rfl

end Line

theorem Run.moves_moved (hn : hole.start + n < hole.stop) (hr : hole.Avoids r.source) :
    r.Moves hole n n' (r.moved hole n n') := by
  obtain ⟨hle, hr⟩ := hr
  refine ⟨rfl, rfl, ?_⟩
  unfold moved Span.moved
  split
  · rename_i hbefore
    exact .inl ⟨hbefore, rfl⟩
  · refine .inr ?_
    dsimp only
    omega

theorem forall₂_moved {γ : Type} {R : γ → γ → Prop} {g : γ → γ} {xs : List γ}
    (h : ∀ x ∈ xs, R x (g x)) : List.Forall₂ R xs (xs.map g) :=
  List.forall₂_map_right_iff.mpr (List.forall₂_same.mpr h)

theorem Line.moves_moved (hn : hole.start + n < hole.stop) {l : Line}
    (hl : ∀ r ∈ l.runs.toList, hole.Avoids r.source) : l.Moves hole n n' (l.moved hole n n') where
  clean := l.clean_moved
  inTitle := l.inTitle_moved
  runs := by
    rw [toList_moved]
    exact forall₂_moved fun r hr ↦ Run.moves_moved hn (hl r hr)

section Documents

variable {m m' : Text}

structure MovesEvents (hole : Span) (n n' : Nat) (m m' : Text) : Prop where
  lt : hole.start + n < hole.stop
  avoids : ∀ f ∈ contents (events (tokens m)), hole.Avoids f.source
  events : events (tokens m') =
    (MarkupText.events (tokens m)).map (Event.map (Fragment.moved hole n n'))

namespace MovesEvents

theorem avoids_run (h : MovesEvents hole n n' m m') (hr : r ∈ fragmentRuns m) :
    hole.Avoids r.source := by
  obtain ⟨f, hf, hsource, -⟩ := exists_fragment_of_mem [] hr
  exact hsource ▸ h.avoids f hf

theorem avoids_merge (h : MovesEvents hole n n' m m') :
    ∀ r ∈ merge (fragmentRuns m), hole.Avoids r.source :=
  forall_merge (fun _ _ _ hr hs hl ↦ Run.avoids_extend h.lt hr hs hl) fun _ hr ↦ h.avoids_run hr

theorem text (h : MovesEvents hole n n' m m') :
    cleanText (MarkupText.events (tokens m')) = cleanText (MarkupText.events (tokens m)) := by
  rw [h.events, cleanText_moved]

theorem placed (h : MovesEvents hole n n' m m') : placeFrom 0 (MarkupText.events (tokens m')) =
    (placeFrom 0 (MarkupText.events (tokens m))).map (Event.map (Run.moved hole n n')) := by
  rw [h.events, placeFrom_moved]

theorem document (h : MovesEvents hole n n' m m') (base : Nat) :
    (Document.ofMarkup base m).Moves hole n n' (Document.ofMarkup base m') where
  text := h.text
  runs := by
    have hruns : fragmentRuns m' = (fragmentRuns m).map (Run.moved hole n n') := by
      rw [fragmentRuns, h.placed, contents_map, fragmentRuns]
    rw [Document.runs_table, Document.runs_table, hruns,
      merge_moved h.lt fun r hr ↦ h.avoids_run hr]
    exact forall₂_moved fun r hr ↦ Run.moves_moved h.lt (h.avoids_merge r hr)

theorem lines_eq (h : MovesEvents hole n n' m m') (s : Splitter) (base : Nat) (want : Bool) :
    (s.outline base m' want).lines.toList =
      (s.outline base m want).lines.toList.map (Line.moved hole n n') := by
  refine List.map_injective_iff.mpr Line.injective_runs ?_
  have hlines (m : Text) : (s.outline base m want).lines.toList.map (·.runs.toList) =
      (shownBlocks (placeFrom 0 (MarkupText.events (tokens m)))).map merge :=
    LineBuilder.runs_lines (titled_tokens m)
  calc (s.outline base m' want).lines.toList.map (·.runs.toList)
    _ = ((shownBlocks (placeFrom 0 (MarkupText.events (tokens m)))).map
          (List.map (Run.moved hole n n'))).map merge := by
      rw [hlines, h.placed, shownBlocks_map]
    _ = ((shownBlocks (placeFrom 0 (MarkupText.events (tokens m)))).map merge).map
          (List.map (Run.moved hole n n')) := by
      rw [List.map_map, List.map_map]
      refine List.map_congr_left fun b hb ↦ merge_moved h.lt fun r hr ↦ h.avoids_run ?_
      rw [fragmentRuns, ← flatten_shownBlocks]
      exact List.mem_flatten_of_mem hb hr
    _ = ((s.outline base m want).lines.toList.map (Line.moved hole n n')).map
          (·.runs.toList) := by
      rw [← hlines, List.map_map, List.map_map]
      exact congrArg (List.map · _) (funext fun l ↦ l.toList_moved.symm)

theorem outline (h : MovesEvents hole n n' m m') (s : Splitter) (base : Nat) (want : Bool) :
    (s.outline base m want).Moves hole n n' (s.outline base m' want) where
  text := h.text
  lines := by
    rw [h.lines_eq]
    refine forall₂_moved fun l hl ↦ Line.moves_moved h.lt fun r hr ↦ h.avoids_merge r ?_
    rw [← Splitter.lineRuns_outline base m s want]
    exact List.mem_flatMap_of_mem hl hr

end MovesEvents

end Documents

end MarkupText

