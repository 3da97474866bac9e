import MarkupText.Proofs.LineBlocks

namespace MarkupText

open RunStore

inductive StoreCall
  | push (r : Run)
  | extend (r : Run)
  | endBlock
  | last

namespace StoreCall

/-- What a call leaves. A refused extension changes nothing. -/
def after {σ : Type} [RunStore σ] (s : σ) : StoreCall → σ
  | .push r => RunStore.push s r
  | .extend r => (extendLast? s r).getD s
  | .endBlock => RunStore.endBlock s
  | .last => s

def isPush : StoreCall → Bool
  | .push _ => true
  | _ => false

end StoreCall

def lengthened (r : Run) : List StoreCall → Run
  | [] => r
  | .extend s :: cs => lengthened ((r.extend? s).getD r) cs
  | .last :: cs => lengthened r cs
  | .push _ :: _ => r
  | .endBlock :: _ => r

def pushedRuns : List StoreCall → List Run
  | [] => []
  | .push r :: cs => lengthened r cs :: pushedRuns cs
  | _ :: cs => pushedRuns cs

/-- The pushed runs, with a boundary wherever a line must end. If a block is open, its last run has
the flag `title?`. -/
def journal : Option Bool → List StoreCall → List (Event Run)
  | _, [] => []
  | title?, .push r :: cs =>
    let tail := .content (lengthened r cs) :: journal (some r.inTitle) cs
    if title?.all (· = r.inTitle) then tail else .boundary :: tail
  | title?, .extend _ :: cs => journal title? cs
  | _, .endBlock :: cs => .boundary :: journal none cs
  | title?, .last :: cs => journal title? cs

/-- The elements `i` and `i + 1` of the parts, counted through all of them, are in one part. -/
def Together {α : Type} (parts : List (List α)) (i : Nat) : Prop :=
  ∃ front part back, parts = front ++ part :: back ∧
    front.flatten.length ≤ i ∧ i + 1 < front.flatten.length + part.length

/-- The lines `ls` that calls add are what the runs pushed make, as they are in the end. -/
structure Collected (done : Array Line) (calls : List StoreCall) (ls : List Line) : Prop where
  lines_eq : (calls.foldl StoreCall.after (⟨done, none⟩ : LineBuilder)).lines.toList =
    done.toList ++ ls
  runs_eq : lineRuns ls = pushedRuns calls
  runs_ne_nil : ∀ l ∈ ls, l.runs.toList ≠ []
  inTitle_eq : ∀ l ∈ ls, ∀ r ∈ l.runs.toList, r.inTitle = l.inTitle
  together_iff (front : List StoreCall) (r : Run) (middle : List StoreCall) (s : Run)
    (back : List StoreCall) : calls = front ++ .push r :: (middle ++ .push s :: back) →
    (∀ c ∈ middle, ¬c.isPush) →
    (Together (ls.map (·.runs.toList)) (front.countP (·.isPush)) ↔
      .endBlock ∉ middle ∧ r.inTitle = s.inTitle)
  last_eq (front : List StoreCall) (r : Run) (middle back : List StoreCall) :
    calls = front ++ .push r :: (middle ++ back) →
    (∀ c ∈ middle, ¬c.isPush ∧ c ≠ .endBlock) →
    last? ((front ++ .push r :: middle).foldl StoreCall.after (⟨done, none⟩ : LineBuilder)) =
      some (lengthened r middle)
  closed (front back : List StoreCall) : calls = front ++ back →
    (∀ as r bs, front = as ++ .push r :: bs → .endBlock ∈ bs) →
    let b := front.foldl StoreCall.after (⟨done, none⟩ : LineBuilder)
    last? b = none ∧ ∀ r, extendLast? b r = none ∧ StoreCall.after b (.extend r) = b

variable {α : Type} {r s : Run} {cs : List StoreCall} {title? : Option Bool}

theorem inTitle_extend (r s : Run) : ((r.extend? s).getD r).inTitle = r.inTitle := by
  unfold Run.extend?
  split <;> rfl

theorem inTitle_lengthened (r : Run) (cs : List StoreCall) :
    (lengthened r cs).inTitle = r.inTitle := by
  induction cs generalizing r with
  | nil => rfl
  | cons c cs ih =>
    cases c with
    | extend s => exact (ih _).trans (inTitle_extend r s)
    | last => exact ih r
    | push s => rfl
    | endBlock => rfl

theorem titled_journal (title? : Option Bool) (cs : List StoreCall) :
    Titled title? (journal title? cs) := by
  induction cs generalizing title? with
  | nil => trivial
  | cons c cs ih =>
    cases c with
    | extend s => exact ih title?
    | last => exact ih title?
    | endBlock => exact ih none
    | push r =>
      have htail : Titled (some (lengthened r cs).inTitle) (journal (some r.inTitle) cs) :=
        inTitle_lengthened r cs ▸ ih (some r.inTitle)
      rw [journal]
      split
      · rename_i hsame
        refine ⟨?_, htail⟩
        intro title htitle
        obtain rfl := htitle
        exact (inTitle_lengthened r cs).trans (of_decide_eq_true hsame).symm
      · exact ⟨nofun, htail⟩

theorem contents_journal (title? : Option Bool) (cs : List StoreCall) :
    contents (journal title? cs) = pushedRuns cs := by
  induction cs generalizing title? with
  | nil => rfl
  | cons c cs ih =>
    cases c with
    | extend s => exact ih title?
    | last => exact ih title?
    | endBlock => exact ih none
    | push r =>
      rw [journal, pushedRuns, ← ih (some r.inTitle)]
      split <;> rfl

theorem Line.eq_of_runs {k l : Line} (h : k.runs = l.runs) : k = l := by
  cases k
  cases l
  cases h
  rfl

namespace LineBuilder

/-- Where a run goes depends on its title flag only. -/
theorem exists_push (b : LineBuilder) (title : Bool) : ∃ (done : Array Line) (rs : Array Run),
    ∀ r : Run, r.inTitle = title → ∃ line : Line,
      RunStore.push b r = ⟨done, some line⟩ ∧ line.runs = rs.push r ∧ line.inTitle = title := by
  obtain ⟨done, pending⟩ := b
  cases pending with
  | none => exact ⟨done, #[], fun r hr ↦ ⟨.single r, rfl, rfl, hr⟩⟩
  | some line =>
    by_cases hline : line.inTitle = title
    · refine ⟨done, line.runs, fun r hr ↦ ⟨line.push r, ?_, rfl, ?_⟩⟩
      · exact if_pos (hline.trans hr.symm)
      · exact (line.inTitle_push r).trans hline
    · refine ⟨done.push line, #[], fun r hr ↦ ⟨.single r, ?_, rfl, hr⟩⟩
      exact if_neg fun heq ↦ hline (heq.trans hr)

theorem extendLast?_push (b : LineBuilder) (r s : Run) :
    RunStore.extendLast? (RunStore.push b r) s = (r.extend? s).map (RunStore.push b) := by
  obtain ⟨done, rs, hpush⟩ := exists_push b r.inTitle
  obtain ⟨line, hline, hruns, -⟩ := hpush r rfl
  have hlast : line.last = r := Line.last_of_push hruns
  rw [hline]
  cases hr : r.extend? s with
  | none =>
    have hnone := Line.extendLast?_eq_none (hlast ▸ hr)
    simp [RunStore.extendLast?, LineBuilder.extendLast?, hnone]
  | some longer =>
    have htitle := inTitle_extend r s
    rw [hr, Option.getD_some] at htitle
    obtain ⟨line', hline', hruns', -⟩ := hpush longer htitle
    have hpop : line.runs.pop = rs := by rw [hruns, Array.pop_push]
    have hextend : line.extendLast? s = some line' := by
      rw [Line.extendLast?, hlast, hr, Option.map_some]
      apply congrArg some
      apply Line.eq_of_runs
      exact (congrArg (·.push longer) hpop).trans hruns'.symm
    simp [RunStore.extendLast?, LineBuilder.extendLast?, hextend, hline']

theorem endBlock_push (b : LineBuilder) (r : Run) :
    ∃ done, RunStore.endBlock (RunStore.push b r) = ⟨done, none⟩ := by
  obtain ⟨done, rs, hpush⟩ := exists_push b r.inTitle
  obtain ⟨line, hline, -⟩ := hpush r rfl
  rw [hline]
  exact ⟨done.push line, rfl⟩

theorem last?_push (b : LineBuilder) (r : Run) : RunStore.last? (RunStore.push b r) = some r := by
  obtain ⟨done, rs, hpush⟩ := exists_push b r.inTitle
  obtain ⟨line, hline, hruns, -⟩ := hpush r rfl
  rw [hline]
  exact congrArg some (Line.last_of_push hruns)

theorem push_push_of_ne (b : LineBuilder) (h : r.inTitle ≠ s.inTitle) :
    RunStore.push (RunStore.push b r) s =
      RunStore.push (RunStore.endBlock (RunStore.push b r)) s := by
  obtain ⟨done, rs, hpush⟩ := exists_push b r.inTitle
  obtain ⟨line, hline, -, htitle⟩ := hpush r rfl
  rw [hline]
  exact if_neg (htitle ▸ h)

theorem foldl_after (cs : List StoreCall) :
    (∀ done : Array Line, cs.foldl StoreCall.after (⟨done, none⟩ : LineBuilder) =
      collectApart ⟨done, none⟩ (journal none cs)) ∧
    ∀ (b : LineBuilder) (r : Run), cs.foldl StoreCall.after (RunStore.push b r) =
      collectApart (RunStore.push b (lengthened r cs)) (journal (some r.inTitle) cs) := by
  induction cs with
  | nil => exact ⟨fun _ ↦ rfl, fun _ _ ↦ rfl⟩
  | cons c cs ih =>
    obtain ⟨hnone, hpush⟩ := ih
    cases c with
    | push s =>
      constructor
      · intro done
        exact hpush ⟨done, none⟩ s
      · intro b r
        have hnext := hpush (RunStore.push b r) s
        rw [journal]
        split
        · exact hnext
        · rename_i hne
          have hne : r.inTitle ≠ (lengthened s cs).inTitle := by
            intro heq
            rw [inTitle_lengthened] at heq
            exact hne (decide_eq_true heq)
          rw [push_push_of_ne b hne] at hnext
          exact hnext
    | extend s =>
      constructor
      · exact hnone
      · intro b r
        rw [List.foldl_cons, StoreCall.after, extendLast?_push, lengthened, journal]
        cases hr : r.extend? s with
        | none => exact hpush b r
        | some longer =>
          have hnext := hpush b longer
          have htitle := inTitle_extend r s
          rw [hr] at htitle
          rw [Option.getD_some] at htitle
          rw [htitle] at hnext
          exact hnext
    | endBlock =>
      constructor
      · exact hnone
      · intro b r
        obtain ⟨done, hdone⟩ := endBlock_push b r
        rw [List.foldl_cons, StoreCall.after, lengthened, journal, collectApart, hdone]
        exact hnone done
    | last => exact ⟨hnone, hpush⟩

theorem runs_lines_foldl (done : Array Line) (cs : List StoreCall) :
    (cs.foldl StoreCall.after (⟨done, none⟩ : LineBuilder)).lines.toList.map (·.runs.toList) =
      done.toList.map (·.runs.toList) ++ shownBlocks (journal none cs) := by
  rw [(foldl_after cs).1 done]
  exact (runs_linesApart_from _ done).1 (titled_journal none cs)

end LineBuilder

section Parts

variable {es : List (Event α)} {parts ks ls : List (List α)} {i : Nat}

theorem length_flatten_le (h : ks <+: ls) : ks.flatten.length ≤ ls.flatten.length := by
  obtain ⟨ms, rfl⟩ := h
  rw [List.flatten_append, List.length_append]
  exact Nat.le_add_right _ _

theorem not_together_of_cut (hparts : parts = ks ++ ls) (hcut : ks.flatten.length = i + 1) :
    ¬Together parts i := by
  intro h
  obtain ⟨front, part, back, hparts', hlow, hhigh⟩ := h
  have hks : ks <+: parts := ⟨ls, hparts.symm⟩
  have hfront : front ++ [part] <+: parts := ⟨back, by rw [hparts', List.append_assoc]; rfl⟩
  have hlength : (front ++ [part]).flatten.length = front.flatten.length + part.length := by
    rw [List.flatten_concat, List.length_append]
  rcases List.prefix_or_prefix_of_prefix hks hfront with hle | hle
  · rcases List.prefix_concat_iff.mp hle with rfl | hle
    · omega
    · have hcount := length_flatten_le hle
      omega
  · have hcount := length_flatten_le hle
    omega

/-- The block of one content among those of all. -/
theorem exists_blocks (front : List (Event α)) (a : α) (es : List (Event α)) :
    ∃ ks p, (blocks (front ++ .content a :: es)).1 :: (blocks (front ++ .content a :: es)).2 =
        ks ++ (p ++ a :: (blocks es).1) :: (blocks es).2 ∧
      ks.flatten.length + p.length = (contents front).length := by
  induction front with
  | nil => exact ⟨[], [], rfl, rfl⟩
  | cons e front ih =>
    obtain ⟨ks, p, hblocks, hcount⟩ := ih
    cases e with
    | boundary => exact ⟨[] :: ks, p, congrArg ([] :: ·) hblocks, hcount⟩
    | content b =>
      cases ks with
      | nil =>
        obtain ⟨hfirst, hrest⟩ := List.cons.inj hblocks
        refine ⟨[], b :: p, ?_, ?_⟩
        · exact congrArg₂ (fun q qs ↦ (b :: q) :: qs) hfirst hrest
        · rw [contents_content, List.length_cons, List.length_cons, ← hcount]
          rfl
      | cons k ks =>
        obtain ⟨hfirst, hrest⟩ := List.cons.inj hblocks
        refine ⟨(b :: k) :: ks, p, ?_, ?_⟩
        · exact congrArg₂ (fun q qs ↦ (b :: q) :: qs) hfirst hrest
        · rw [contents_content, List.length_cons, ← hcount, List.flatten_cons, List.flatten_cons,
            List.cons_append, List.length_cons, Nat.succ_add]

theorem exists_shownBlocks (front : List (Event α)) (a : α) (es : List (Event α)) :
    ∃ ks p, shownBlocks (front ++ .content a :: es) =
        ks ++ (p ++ a :: (blocks es).1) :: (blocks es).2.filter (!·.isEmpty) ∧
      ks.flatten.length + p.length = (contents front).length := by
  obtain ⟨ks, p, hblocks, hcount⟩ := exists_blocks front a es
  refine ⟨ks.filter (!·.isEmpty), p, ?_, ?_⟩
  · rw [shownBlocks, hblocks, List.filter_append, List.filter_cons_of_pos]
    simp
  · rw [flatten_filter_ne_nil, hcount]

/-- Two contents with nothing but boundaries between them are in one block if there is none. -/
theorem together_shownBlocks_iff (front middle back : List (Event α)) (a b : α)
    (hmiddle : ∀ e ∈ middle, e = .boundary) :
    Together (shownBlocks (front ++ .content a :: (middle ++ .content b :: back)))
      (contents front).length ↔ middle = [] := by
  obtain ⟨ks, p, hparts, hcount⟩ := exists_shownBlocks front a (middle ++ .content b :: back)
  cases middle with
  | nil =>
    refine iff_of_true ⟨ks, _, _, hparts, ?_, ?_⟩ rfl
    · omega
    · rw [← hcount, List.length_append, List.length_cons]
      simp only [List.nil_append, blocks, List.length_cons]
      omega
  | cons e middle =>
    obtain rfl := hmiddle e List.mem_cons_self
    refine iff_of_false (not_together_of_cut (hparts.trans (List.append_cons ks _ _)) ?_)
      (List.cons_ne_nil _ _)
    simp only [List.flatten_concat, List.length_append, List.length_cons, List.cons_append, blocks,
      List.length_nil]
    omega

end Parts

/-- What the journal has before the content of one push. -/
theorem exists_journal (title? : Option Bool) (front : List StoreCall) (r : Run)
    (cs : List StoreCall) :
    ∃ es, journal title? (front ++ .push r :: cs) =
        es ++ .content (lengthened r cs) :: journal (some r.inTitle) cs ∧
      (contents es).length = front.countP (·.isPush) ∧
      ((∀ c ∈ front, ¬c.isPush) → (es = [] ↔ .endBlock ∉ front ∧ title?.all (· = r.inTitle))) := by
  induction front generalizing title? with
  | nil =>
    rw [List.nil_append, journal]
    split
    · rename_i hsame
      exact ⟨[], rfl, rfl, fun _ ↦ iff_of_true rfl ⟨List.not_mem_nil, hsame⟩⟩
    · rename_i hne
      exact ⟨[.boundary], rfl, rfl, fun _ ↦ iff_of_false nofun fun h ↦ hne h.2⟩
  | cons c front ih =>
    cases c with
    | push s =>
      obtain ⟨es, hes, hcount, -⟩ := ih (some s.inTitle)
      rw [List.cons_append, journal, hes, List.countP_cons_of_pos rfl, ← hcount]
      split
      · exact ⟨.content _ :: es, rfl, rfl, fun h ↦ absurd rfl (h _ List.mem_cons_self)⟩
      · exact ⟨.boundary :: .content _ :: es, rfl, rfl,
          fun h ↦ absurd rfl (h _ List.mem_cons_self)⟩
    | endBlock =>
      obtain ⟨es, hes, hcount, -⟩ := ih none
      refine ⟨.boundary :: es, congrArg (Event.boundary :: ·) hes, hcount, fun _ ↦ ?_⟩
      exact iff_of_false nofun fun h ↦ h.1 List.mem_cons_self
    | extend s =>
      obtain ⟨es, hes, hcount, hnil⟩ := ih title?
      refine ⟨es, hes, hcount, fun h ↦ ?_⟩
      rw [hnil (List.forall_mem_cons.mp h).2, List.mem_cons]
      simp
    | last =>
      obtain ⟨es, hes, hcount, hnil⟩ := ih title?
      refine ⟨es, hes, hcount, fun h ↦ ?_⟩
      rw [hnil (List.forall_mem_cons.mp h).2, List.mem_cons]
      simp

theorem eq_boundary_of_contents {es : List (Event α)} (h : contents es = []) :
    ∀ e ∈ es, e = .boundary := by
  intro e he
  cases e with
  | boundary => rfl
  | content a =>
    have hmem : a ∈ contents es := List.mem_filterMap.mpr ⟨_, he, rfl⟩
    rw [h] at hmem
    cases hmem

theorem together_journal_iff (front middle back : List StoreCall) (r s : Run)
    (hmiddle : ∀ c ∈ middle, ¬c.isPush) :
    Together (shownBlocks (journal none (front ++ .push r :: (middle ++ .push s :: back))))
        (front.countP (·.isPush)) ↔
      .endBlock ∉ middle ∧ r.inTitle = s.inTitle := by
  obtain ⟨es, hes, hcount, -⟩ := exists_journal none front r (middle ++ .push s :: back)
  obtain ⟨es', hes', hcount', hnil⟩ := exists_journal (some r.inTitle) middle s back
  have hcontents : contents es' = [] := by
    rw [List.countP_eq_zero.mpr hmiddle] at hcount'
    exact List.eq_nil_of_length_eq_zero hcount'
  rw [hes, hes', ← hcount,
    together_shownBlocks_iff es es' _ _ _ (eq_boundary_of_contents hcontents), hnil hmiddle]
  simp

theorem journal_eq_nil (h : ∀ c ∈ cs, ¬c.isPush ∧ c ≠ .endBlock) : journal title? cs = [] := by
  induction cs with
  | nil => rfl
  | cons c cs ih =>
    obtain ⟨hc, hcs⟩ := List.forall_mem_cons.mp h
    cases c with
    | push r => exact absurd rfl hc.1
    | endBlock => exact absurd rfl hc.2
    | extend r => exact ih hcs
    | last => exact ih hcs

namespace LineBuilder

theorem last?_foldl (done : Array Line) (front : List StoreCall) (r : Run)
    (h : ∀ c ∈ cs, ¬c.isPush ∧ c ≠ .endBlock) :
    RunStore.last? ((front ++ .push r :: cs).foldl StoreCall.after (⟨done, none⟩ : LineBuilder)) =
      some (lengthened r cs) := by
  rw [List.foldl_append, List.foldl_cons, StoreCall.after, (foldl_after cs).2, journal_eq_nil h]
  exact last?_push _ _

theorem pending_endBlock (b : LineBuilder) : (RunStore.endBlock b).pending = none := by
  obtain ⟨done, pending⟩ := b
  cases pending <;> rfl

theorem extendLast?_of_pending {b : LineBuilder} (hb : b.pending = none) (r : Run) :
    RunStore.extendLast? b r = none := by
  simp [RunStore.extendLast?, LineBuilder.extendLast?, hb]

/-- No block is open after calls of which each push is followed by the end of a block. -/
theorem pending_foldl (done : Array Line) (front : List StoreCall)
    (h : ∀ as r bs, front = as ++ .push r :: bs → .endBlock ∈ bs) :
    (front.foldl StoreCall.after (⟨done, none⟩ : LineBuilder)).pending = none := by
  induction front using List.reverseRecOn with
  | nil => rfl
  | append_singleton front c ih =>
    have hfront (hc : c ≠ .endBlock) : ∀ as r bs, front = as ++ .push r :: bs → .endBlock ∈ bs := by
      intro as r bs heq
      have hmem := h as r (bs ++ [c]) (by rw [heq, List.append_assoc, List.cons_append])
      rcases List.mem_append.mp hmem with hmem | hlast
      · exact hmem
      · exact absurd (List.mem_singleton.mp hlast).symm hc
    rw [List.foldl_concat]
    cases c with
    | push r => exact absurd (h front r [] rfl) List.not_mem_nil
    | endBlock => exact pending_endBlock _
    | extend r =>
      have hpending := ih (hfront nofun)
      rw [StoreCall.after, extendLast?_of_pending hpending]
      exact hpending
    | last => exact ih (hfront nofun)

end LineBuilder

/-- Each run is kept in order, in the line of the run before it unless a block ended or the title
flag changed between the two. -/
theorem collected_calls (done : Array Line) (calls : List StoreCall) :
    ∃ ls, Collected done calls ls := by
  obtain ⟨ks, ls, hlines, hks, hls⟩ :=
    List.map_eq_append_iff.mp (LineBuilder.runs_lines_foldl done calls)
  have hdone : ks = done.toList := by
    apply (List.map_inj_right fun k l h ↦ ?_).mp hks
    exact Line.eq_of_runs (Array.toList_inj.mp h)
  refine ⟨ls, hdone ▸ hlines, ?_, ?_, ?_, ?_, ?_, ?_⟩
  · rw [lineRuns, List.flatMap_def, hls, flatten_shownBlocks, contents_journal]
  · intro l _
    obtain ⟨rs, hrs⟩ := l.exists_cons
    exact hrs ▸ List.cons_ne_nil _ _
  · intro l hl r hr
    obtain ⟨rs, hrs⟩ := l.exists_cons
    have hblock : l.runs.toList ∈ shownBlocks (journal none calls) := hls ▸ List.mem_map_of_mem hl
    exact (titled_journal none calls).inTitle_eq.2 _ hblock r hr l.first (hrs ▸ List.mem_cons_self)
  · intro front r middle s back hcalls hmiddle
    rw [hls, hcalls]
    exact together_journal_iff front middle back r s hmiddle
  · intro front r middle back _ hmiddle
    exact LineBuilder.last?_foldl done front r hmiddle
  · intro front back _ hfront
    have hpending := LineBuilder.pending_foldl done front hfront
    refine ⟨congrArg (Option.map Line.last) hpending, fun r ↦ ?_⟩
    have hnone := LineBuilder.extendLast?_of_pending hpending r
    exact ⟨hnone, congrArg (Option.getD · _) hnone⟩

end MarkupText
