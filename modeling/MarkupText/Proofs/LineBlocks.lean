import MarkupText.Proofs.Stores

namespace MarkupText

open RunStore

/-- The contents of events, cut at the boundaries; those before the first boundary are apart. -/
def blocks {α : Type} : List (Event α) → List α × List (List α)
  | [] => ([], [])
  | .boundary :: es => ([], (blocks es).1 :: (blocks es).2)
  | .content a :: es => (a :: (blocks es).1, (blocks es).2)

def shownBlocks {α : Type} (es : List (Event α)) : List (List α) :=
  ((blocks es).1 :: (blocks es).2).filter (!·.isEmpty)

/-- The title flag changes at boundaries only. The runs before the first have the flag `title?`, if
it is known. -/
def Titled : Option Bool → List (Event Run) → Prop
  | _, [] => True
  | _, .boundary :: es => Titled none es
  | title?, .content r :: es => (∀ title ∈ title?, r.inTitle = title) ∧ Titled (some r.inTitle) es

namespace RunStore

variable {σ : Type} [RunStore σ]

/-- Adds each run as one of its own, also where it continues the last one. -/
def collectApart (s : σ) : List (Event Run) → σ
  | [] => s
  | .content r :: es => collectApart (push s r) es
  | .boundary :: es => collectApart (endBlock s) es

end RunStore

variable {α : Type} {es : List (Event Run)} {title? : Option Bool}

theorem flatten_blocks (es : List (Event α)) :
    (blocks es).1 ++ (blocks es).2.flatten = contents es := by
  induction es with
  | nil => rfl
  | cons e es ih =>
    cases e with
    | boundary => simpa [blocks] using ih
    | content a => simpa [blocks] using ih

theorem flatten_filter_ne_nil (bs : List (List α)) :
    (bs.filter (!·.isEmpty)).flatten = bs.flatten := by
  induction bs with
  | nil => rfl
  | cons b bs ih => cases b <;> simp [ih]

theorem flatten_shownBlocks (es : List (Event α)) : (shownBlocks es).flatten = contents es := by
  rw [shownBlocks, flatten_filter_ne_nil, List.flatten_cons, flatten_blocks]

theorem shownBlocks_content (a : α) (es : List (Event α)) :
    shownBlocks (.content a :: es) =
      (a :: (blocks es).1) :: (blocks es).2.filter (!·.isEmpty) := rfl

namespace Titled

theorem of_none (h : Titled title? es) : Titled none es := by
  cases es with
  | nil => trivial
  | cons e es =>
    cases e with
    | boundary => exact h
    | content r => exact ⟨nofun, h.2⟩

/-- All runs of a block have one title flag. -/
theorem inTitle_eq (h : Titled title? es) :
    (∀ title ∈ title?, ∀ r ∈ (blocks es).1, r.inTitle = title) ∧
      ∀ b ∈ shownBlocks es, ∀ r ∈ b, ∀ s ∈ b, r.inTitle = s.inTitle := by
  induction es generalizing title? with
  | nil => exact ⟨nofun, nofun⟩
  | cons e es ih =>
    cases e with
    | boundary => exact ⟨nofun, (ih h).2⟩
    | content r =>
      obtain ⟨hr, h⟩ := h
      obtain ⟨hfirst, hrest⟩ := ih h
      have hfirst := hfirst r.inTitle rfl
      refine ⟨fun title htitle ↦ ?_, fun b hb ↦ ?_⟩
      · refine List.forall_mem_cons.mpr ⟨hr title htitle, fun s hs ↦ ?_⟩
        exact (hfirst s hs).trans (hr title htitle)
      · rw [shownBlocks_content] at hb
        rcases List.mem_cons.mp hb with rfl | hb
        · have hsame : ∀ s ∈ r :: (blocks es).1, s.inTitle = r.inTitle :=
            List.forall_mem_cons.mpr ⟨rfl, hfirst⟩
          exact fun s hs u hu ↦ (hsame s hs).trans (hsame u hu).symm
        · refine hrest b ?_
          rw [shownBlocks, List.filter_cons]
          split
          · exact List.mem_cons_of_mem _ hb
          · exact hb

end Titled

namespace Line

theorem inTitle_eq {l : Line} {r : Run} {rs : List Run} (h : l.runs.toList = r :: rs) :
    l.inTitle = r.inTitle := by
  obtain ⟨us, hl⟩ := l.exists_cons
  obtain ⟨rfl, -⟩ := List.cons.inj (hl.symm.trans h)
  rfl

theorem inTitle_push (l : Line) (r : Run) : (l.push r).inTitle = l.inTitle := by
  obtain ⟨rs, hl⟩ := l.exists_cons
  have hpush : (l.push r).runs.toList = l.first :: (rs ++ [r]) := by
    rw [push, Array.toList_push, hl, List.cons_append]
  exact inTitle_eq hpush

theorem inTitle_of_extend {l l' : Line} {r longer : Run} (hl : l.last.extend? r = some longer)
    (hlast : l'.last = longer) (hfront : l'.front = l.front) : l'.inTitle = l.inTitle := by
  have hruns := l.toList_runs
  have hruns' := l'.toList_runs
  obtain ⟨-, rfl⟩ := Run.extend?_eq_some_iff.mp hl
  rw [hfront, hlast] at hruns'
  cases hparts : l.front with
  | nil =>
    rw [hparts] at hruns hruns'
    exact (inTitle_eq hruns').trans (inTitle_eq hruns).symm
  | cons u us =>
    rw [hparts] at hruns hruns'
    exact (inTitle_eq hruns').trans (inTitle_eq hruns).symm

end Line

namespace LineBuilder

/-- Lines never end at a change of the title flag alone, as only boundaries change it. -/
theorem runs_lines_from (es : List (Event Run)) (done : Array Line) :
    (Titled none es → (collect (⟨done, none⟩ : LineBuilder) es).lines.toList.map (·.runs.toList) =
      done.toList.map (·.runs.toList) ++ (shownBlocks es).map merge) ∧
    (∀ line : Line, Titled (some line.inTitle) es →
      (collect (⟨done, some line⟩ : LineBuilder) es).lines.toList.map (·.runs.toList) =
        done.toList.map (·.runs.toList) ++ (line.front ++ mergeAfter line.last (blocks es).1) ::
          ((blocks es).2.filter (!·.isEmpty)).map merge) := by
  induction es generalizing done with
  | nil =>
    constructor
    · intro _
      simp [collect, lines, endBlock, shownBlocks, blocks]
    · intro line _
      simp [collect, lines, endBlock, blocks, mergeAfter, line.toList_runs]
  | cons e es ih =>
    cases e with
    | boundary =>
      refine ⟨fun h ↦ (ih done).1 h, fun line h ↦ ?_⟩
      change (collect (⟨done.push line, none⟩ : LineBuilder) es).lines.toList.map _ = _
      rw [(ih (done.push line)).1 h]
      simp [blocks, mergeAfter, line.toList_runs, shownBlocks]
    | content r =>
      constructor
      · intro h
        change (collect (⟨done, some (.single r)⟩ : LineBuilder) es).lines.toList.map _ = _
        rw [(ih done).2 (.single r) h.2, Line.last_single, Line.front_single, shownBlocks_content]
        rfl
      · intro line h
        have htitle : r.inTitle = line.inTitle := h.1 _ rfl
        have hrest : Titled (some line.inTitle) es := htitle ▸ h.2
        cases hl : line.last.extend? r with
        | some longer =>
          obtain ⟨line', haccept, hlast, hfront⟩ := accept_of_extend done hl
          have hsame := Line.inTitle_of_extend hl hlast hfront
          rw [collect, haccept, (ih done).2 line' (hsame ▸ hrest), hlast, hfront]
          simp only [blocks, mergeAfter, hl]
        | none =>
          have haccept := accept_of_not_extend done hl
          have hlast : (line.push r).last = r := Line.last_of_push rfl
          have hfront : (line.push r).front = line.runs.toList := Line.front_of_push rfl
          rw [if_pos htitle.symm] at haccept
          rw [collect, haccept, (ih done).2 (line.push r) (line.inTitle_push r ▸ hrest), hlast,
            hfront, line.toList_runs]
          simp only [blocks, mergeAfter, hl, List.append_assoc, List.singleton_append]

/-- The runs of the lines are those of the blocks, joined. -/
theorem runs_lines (h : Titled none es) :
    (collect ({} : LineBuilder) es).lines.toList.map (·.runs.toList) =
      (shownBlocks es).map merge :=
  (runs_lines_from es #[]).1 h

theorem runs_linesApart_from (es : List (Event Run)) (done : Array Line) :
    (Titled none es →
      (collectApart (⟨done, none⟩ : LineBuilder) es).lines.toList.map (·.runs.toList) =
        done.toList.map (·.runs.toList) ++ shownBlocks es) ∧
    (∀ line : Line, Titled (some line.inTitle) es →
      (collectApart (⟨done, some line⟩ : LineBuilder) es).lines.toList.map (·.runs.toList) =
        done.toList.map (·.runs.toList) ++ (line.runs.toList ++ (blocks es).1) ::
          (blocks es).2.filter (!·.isEmpty)) := by
  induction es generalizing done with
  | nil =>
    constructor
    · intro _
      simp [collectApart, lines, endBlock, shownBlocks, blocks]
    · intro line _
      simp [collectApart, lines, endBlock, blocks]
  | cons e es ih =>
    cases e with
    | boundary =>
      refine ⟨fun h ↦ (ih done).1 h, fun line h ↦ ?_⟩
      change (collectApart (⟨done.push line, none⟩ : LineBuilder) es).lines.toList.map _ = _
      rw [(ih (done.push line)).1 h]
      simp [blocks, shownBlocks]
    | content r =>
      constructor
      · intro h
        change (collectApart (⟨done, some (.single r)⟩ : LineBuilder) es).lines.toList.map _ = _
        rw [(ih done).2 (.single r) h.2, shownBlocks_content]
        rfl
      · intro line h
        have htitle : r.inTitle = line.inTitle := h.1 _ rfl
        have hrest : Titled (some (line.push r).inTitle) es := by
          rw [line.inTitle_push, ← htitle]
          exact h.2
        have hpush : RunStore.push (⟨done, some line⟩ : LineBuilder) r =
            ⟨done, some (line.push r)⟩ := if_pos htitle.symm
        rw [collectApart, hpush, (ih done).2 (line.push r) hrest, Line.push]
        simp only [blocks, Array.toList_push, List.append_assoc, List.singleton_append]

theorem runs_linesApart (h : Titled none es) :
    (collectApart ({} : LineBuilder) es).lines.toList.map (·.runs.toList) = shownBlocks es :=
  (runs_linesApart_from es #[]).1 h

end LineBuilder

theorem RunTable.runs_collectApart (t : RunTable) (es : List (Event Run)) :
    (collectApart t es).runs.toList = t.runs.toList ++ contents es := by
  induction es generalizing t with
  | nil => exact (List.append_nil _).symm
  | cons e es ih =>
    cases e with
    | boundary => exact ih t
    | content r =>
      rw [collectApart, ih, contents_content]
      simp [RunStore.push]

theorem Region.inTitle_after {g : Region} {t : Token} (ht : t.event? g ≠ some .boundary) :
    (g.after t.kind).inTitle = g.inTitle := by
  cases hkind : t.kind with
  | title edge =>
    have hboundary : t.isBoundary := by simp [Token.isBoundary, hkind]
    have hin : g.inNoIndex := by
      by_contra hnoIndex
      exact ht (by simp [Token.event?, hboundary, hnoIndex])
    simp only [Region.after, hin, if_true]
  | head edge =>
    simp only [Region.after]
    split <;> rfl
  | _ => rfl

theorem titled_placeFrom (g : Region) (offset : Nat) (ts : List Token) :
    Titled (some g.inTitle) (placeFrom offset (eventsFrom g ts)) := by
  induction ts generalizing g offset with
  | nil => trivial
  | cons t ts ih =>
    have htail := ih (g.after t.kind)
    rw [eventsFrom]
    cases he : t.event? g with
    | none =>
      rw [Region.inTitle_after (by simp [he])] at htail
      exact htail offset
    | some e =>
      cases e with
      | boundary => exact (htail offset).of_none
      | content f =>
        obtain ⟨-, -, htitle⟩ := Token.event?_eq_content he
        rw [Region.inTitle_after (by simp [he]), ← htitle] at htail
        refine ⟨fun title hsome ↦ ?_, htail _⟩
        exact htitle.trans (Option.some.inj hsome)

theorem titled_tokens (m : Text) : Titled none (placeFrom 0 (events (tokens m))) :=
  (titled_placeFrom {} 0 (tokens m)).of_none

end MarkupText
