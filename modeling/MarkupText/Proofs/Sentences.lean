import MarkupText.Proofs.Origins
import MarkupText.Proofs.Provenance
import MarkupText.Proofs.Trimming

namespace MarkupText

open Text

def Sentence.Apart (x y : Sentence) : Prop :=
  x.clean.stop ≤ y.clean.start ∨ y.clean.stop ≤ x.clean.start

/-- What an outline of `m` says of a sentence `x`: it fills a part of one line, from a character
that is not blank to another, and its markup begins where that of the first character does and
stops where that of the last one does. -/
structure Sentence.IsIn (m : Text) (o : Outline) (x : Sentence) : Prop where
  line : ∃ (i : Nat) (l : Line), o.lines[i]? = some l ∧ x.inTitle = l.inTitle ∧
    ∀ (j : Nat) (k : Line), o.lines[j]? = some k →
      (k.clean.start ≤ x.clean.start ∧ x.clean.stop ≤ k.clean.stop ↔ j = i)
  clean : x.clean.start < x.clean.stop ∧ ∃ cs, slice? o.text x.clean = some cs
  source : x.source.start < x.source.stop ∧ x.source.stop ≤ byteLength m ∧
    ∃ cs, slice? m x.source = some cs
  first : ∃ front c back r, o.text = front ++ c :: back ∧ x.clean.start = byteLength front ∧
    isBlank c = false ∧ ComesFrom m front c r ∧ x.source.start = r.start
  last : ∃ front c back r, o.text = front ++ c :: back ∧
    x.clean.stop = byteLength front + c.utf8Size ∧ isBlank c = false ∧
    ComesFrom m front c r ∧ x.source.stop = r.stop

/-- `xs` are the sentences of an outline of `m`, in order, with all that is not blank in them. -/
structure Outline.HasSentences (m : Text) (o : Outline) (xs : List Sentence) : Prop where
  isIn : ∀ x ∈ xs, x.IsIn m o
  ordered : xs.Pairwise fun x y ↦
    x.clean.stop ≤ y.clean.start ∧ x.source.stop ≤ y.source.start
  covered (front : Text) (c : Char) (back : Text) : o.text = front ++ c :: back →
    isBlank c = false → ∃! x, x ∈ xs ∧
      x.clean.start ≤ byteLength front ∧ byteLength front + c.utf8Size ≤ x.clean.stop
  lines : ∀ l ∈ o.lines.toList, ∃ cs, l.text? o.text = some cs

variable {m text cs : Text} {s : Splitter} {base : Nat} {l : Line} {x : Sentence}

theorem exists_text_of_line (hl : l ∈ (s.outline base m true).lines.toList) :
    ∃ cs, l.text? (s.outline base m true).text = some cs := by
  have htiling := tiling_lines base m s true
  have hmem {r : Run} (hr : r ∈ l.runs.toList) : r ∈ merge (fragmentRuns m) := by
    rw [← Splitter.lineRuns_outline base m s true]
    exact List.mem_flatMap.mpr ⟨l, hl, hr⟩
  obtain ⟨as, has⟩ := exists_slice_of_merge (hmem l.first_mem)
  obtain ⟨bs, hbs⟩ := exists_slice_of_merge (hmem l.last_mem)
  exact exists_slice?_between has hbs (Nat.le_of_lt (Outline.clean_lt htiling hl))

/-- A sentence of a line is a part of the text, without blanks around it. -/
theorem exists_of_mem_splitLine (htext : l.text? text = some cs) (hx : x ∈ s.splitLine text l) :
    ∃ as body bs, text = as ++ (body ++ bs) ∧ IsTrimmed body ∧
      x.clean = ⟨byteLength as, byteLength as + byteLength body⟩ ∧ x.inTitle = l.inTitle := by
  obtain ⟨us, vs, rfl, hstart, -⟩ := slice?_eq_some_iff.mp htext
  obtain ⟨r, hr, rfl⟩ := List.mem_map.mp hx
  obtain ⟨as, body, bs, hcut, hbody, hspan⟩ := exists_of_mem_trimmedSpans hr
  rw [htext, Option.getD_some, s.flatten_pieces] at hcut
  refine ⟨us ++ as, body, bs ++ vs, ?_, hbody, ?_, rfl⟩
  · simp [hcut]
  · simp only [hspan, Span.shift, hstart, byteLength_append, Nat.zero_add, Nat.add_assoc]

theorem exists_sentence_of_line {xs ys : Text} {c : Char} (htext : l.text? text = some cs)
    (hcs : cs = xs ++ c :: ys) (hc : isBlank c = false) :
    ∃ x ∈ s.splitLine text l, x.clean.start ≤ l.clean.start + byteLength xs ∧
      l.clean.start + byteLength xs + c.utf8Size ≤ x.clean.stop := by
  obtain ⟨r, hr, hstart, hstop⟩ := exists_trimmedSpan 0 ((s.flatten_pieces cs).trans hcs) hc
  refine ⟨_, List.mem_map_of_mem (by rw [htext]; exact hr), ?_, ?_⟩ <;>
  · simp only [Span.shift]
    omega

theorem pairwise_splitLine (s : Splitter) (text : Text) (l : Line) :
    (s.splitLine text l).Pairwise fun x y ↦ x.clean.stop ≤ y.clean.start := by
  refine List.pairwise_map.mpr ((pairwise_trimmedSpans 0 _).imp ?_)
  intro r r' hle
  simpa [Span.shift] using hle

theorem pairwise_splitLines (s : Splitter) (base : Nat) (m : Text) :
    (s.splitLines (s.outline base m true).text (s.outline base m true).lines).Pairwise
      fun x y ↦ x.clean.stop ≤ y.clean.start := by
  have htiling := tiling_lines base m s true
  refine List.pairwise_flatMap.mpr ⟨fun l _ ↦ pairwise_splitLine s _ l, ?_⟩
  refine (Outline.pairwise_lines htiling).imp ?_
  intro k l hkl x hx y hy
  obtain ⟨-, -, -, hstop⟩ := mem_splitLine hx
  obtain ⟨-, hstart, -⟩ := mem_splitLine hy
  exact Nat.le_trans hstop (Nat.le_trans hkl hstart)

theorem sourceSpan_of_mem_splitLines
    (hx : x ∈ s.splitLines (s.outline base m true).text (s.outline base m true).lines) :
    x.source = ⟨offsetIn .left x.clean.start (merge (fragmentRuns m)),
      offsetIn .right x.clean.stop (merge (fragmentRuns m))⟩ := by
  obtain ⟨l, hl, hxl⟩ := List.mem_flatMap.mp hx
  obtain ⟨hsource, hbounds⟩ := mem_splitLine hxl
  rw [hsource, (tiling_lines base m s true).sourceSpan_line hl hbounds,
    Splitter.lineRuns_outline]

/-- A range inside a line is inside no other line. -/
theorem Outline.inside_line_iff {o : Outline} {source clean r : Span} {i j : Nat} {k : Line}
    (h : Tiling source clean (lineRuns o.lines.toList)) (hl : o.lines[i]? = some l)
    (hlow : l.clean.start ≤ r.start) (hlt : r.start < r.stop) (hhigh : r.stop ≤ l.clean.stop)
    (hk : o.lines[j]? = some k) :
    k.clean.start ≤ r.start ∧ r.stop ≤ k.clean.stop ↔ j = i := by
  constructor
  · rintro ⟨hlow', hhigh'⟩
    rcases Nat.lt_trichotomy i j with hij | rfl | hji
    · have hle := Outline.le_start_of_lt h hl hk hij
      omega
    · rfl
    · have hle := Outline.le_start_of_lt h hk hl hji
      omega
  · rintro rfl
    obtain rfl := Option.some.inj (hl.symm.trans hk)
    exact ⟨hlow, hhigh⟩

theorem isIn_of_mem_splitLines
    (hx : x ∈ s.splitLines (s.outline base m true).text (s.outline base m true).lines) :
    x.IsIn m (s.outline base m true) := by
  have htiling := tiling_lines base m s true
  have hmerge := (tiling_fragmentRuns m).merge
  have hsource := sourceSpan_of_mem_splitLines hx
  obtain ⟨l, hl, hxl⟩ := List.mem_flatMap.mp hx
  obtain ⟨i, hi⟩ := List.mem_iff_getElem?.mp hl
  rw [Array.getElem?_toList] at hi
  obtain ⟨-, hlow, hlt, hhigh⟩ := mem_splitLine hxl
  obtain ⟨cs, htext⟩ := exists_text_of_line hl
  obtain ⟨as, body, bs, hcut, hbody, hclean, htitle⟩ := exists_of_mem_splitLine htext hxl
  obtain ⟨c, rest, hhead, hc⟩ := hbody.head
  obtain ⟨front, d, hlast, hd⟩ := hbody.last
  have hfirst : (s.outline base m true).text = as ++ c :: (rest ++ bs) := by rw [hcut, hhead]; rfl
  have hfinal : (s.outline base m true).text = (as ++ front) ++ d :: bs := by
    rw [hcut, hlast]
    simp
  have hstop : x.clean.stop = byteLength (as ++ front) + d.utf8Size := by
    rw [hclean, hlast]
    simp only [byteLength_append, byteLength_cons, byteLength_nil]
    omega
  obtain ⟨r, hr, hrstart, hrstop⟩ := exists_comesFrom hfirst
  obtain ⟨r', hr', -, hr'stop⟩ := exists_comesFrom hfinal
  have hstart : x.source.start = r.start := by rw [hsource, hclean, ← hrstart]
  have hend : x.source.stop = r'.stop := by rw [hsource, hstop, ← hr'stop]
  obtain ⟨hrlt, ds, hds⟩ := hr.exists_slice
  obtain ⟨-, es, hes⟩ := hr'.exists_slice
  have hle : r.stop ≤ r'.stop := by
    rw [← hrstop, ← hr'stop, ← hstop]
    refine hmerge.offsetIn_mono ?_
    rw [hclean, hhead]
    simp only [byteLength_cons]
    omega
  refine ⟨⟨i, l, hi, htitle, ?_⟩, ⟨hlt, body, ?_⟩, ⟨?_, ?_, ?_⟩, ?_, ?_⟩
  · intro j k hk
    exact Outline.inside_line_iff htiling hi hlow hlt hhigh hk
  · exact slice?_eq_some_iff.mpr ⟨as, bs, hcut, by rw [hclean], by rw [hclean]⟩
  · omega
  · rw [hend]
    exact stop_le_of_slice? hes
  · rw [show x.source = ⟨r.start, r'.stop⟩ by rw [← hstart, ← hend]]
    exact exists_slice?_between hds hes (by omega)
  · exact ⟨as, c, rest ++ bs, r, hfirst, by rw [hclean], hc, hr, hstart⟩
  · exact ⟨as ++ front, d, bs, r', hfinal, hstop, hd, hr', hend⟩

/-- Each character that is not blank is in a sentence. -/
theorem exists_sentence_of_character {front back : Text} {c : Char}
    (h : (s.outline base m true).text = front ++ c :: back) (hc : isBlank c = false) :
    ∃ x ∈ s.splitLines (s.outline base m true).text (s.outline base m true).lines,
      x.clean.start ≤ byteLength front ∧ byteLength front + c.utf8Size ≤ x.clean.stop := by
  have hsize := c.utf8Size_pos
  obtain ⟨l, hl, hlow, hhigh⟩ := exists_line_of_character s base true h
  obtain ⟨cs, htext⟩ := exists_text_of_line hl
  obtain ⟨as, bs, hcut, hstart, hstop⟩ := slice?_eq_some_iff.mp htext
  obtain ⟨xs, ys, rfl, hcs⟩ := exists_cut (hcut.symm.trans h) (by omega) (by omega)
  obtain ⟨x, hx, hxstart, hxstop⟩ := exists_sentence_of_line htext hcs hc
  refine ⟨x, List.mem_flatMap.mpr ⟨l, hl, hx⟩, ?_, ?_⟩ <;>
  · rw [byteLength_append, ← hstart]
    assumption

/-- The sentences of a document are its text but for blanks between them, in order. Each is a part
of one line and lies in the markup where its first and its last character do. -/
theorem outline_hasSentences (s : Splitter) (base : Nat) (m : Text) :
    ∃ xs, (s.outline base m true).sentences = some xs ∧
      (s.outline base m true).HasSentences m xs := by
  have hpairwise := pairwise_splitLines s base m
  refine ⟨_, rfl, ?_, ?_, ?_, ?_⟩
  · exact fun x hx ↦ isIn_of_mem_splitLines hx
  · refine hpairwise.imp_of_mem ?_
    intro x y hx hy hle
    refine ⟨hle, ?_⟩
    have hmerge := (tiling_fragmentRuns m).merge
    rw [sourceSpan_of_mem_splitLines hx, sourceSpan_of_mem_splitLines hy]
    exact Nat.le_trans hmerge.offsetIn_right_le_left (hmerge.offsetIn_mono hle)
  · intro front c back h hc
    have hsize := c.utf8Size_pos
    obtain ⟨x, hx, hstart, hstop⟩ := exists_sentence_of_character h hc
    refine ⟨x, ⟨hx, hstart, hstop⟩, ?_⟩
    rintro y ⟨hy, hystart, hystop⟩
    by_contra hne
    have hsymm : Std.Symm Sentence.Apart := ⟨fun _ _ ↦ Or.symm⟩
    have hapart : List.Pairwise Sentence.Apart _ := hpairwise.imp Or.inl
    rcases hapart.forall hx hy (Ne.symm hne) with hle | hle <;> omega
  · exact fun l hl ↦ exists_text_of_line hl

end MarkupText
