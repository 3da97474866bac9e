import MarkupText.Text.Basic

namespace MarkupText.Text

/-- A character of the text begins at the byte `n`, or the text ends there. -/
def IsCharBoundary (cs : Text) (n : Nat) : Prop :=
  ∃ front back, cs = front ++ back ∧ byteLength front = n

theorem byteLength_pos {cs : Text} (hcs : cs ≠ []) : 0 < byteLength cs := by
  cases cs with
  | nil => exact absurd rfl hcs
  | cons c cs =>
    have hc := c.utf8Size_pos
    simp only [byteLength_cons]
    omega

theorem length_le_byteLength (cs : Text) : cs.length ≤ byteLength cs := by
  induction cs with
  | nil => simp
  | cons c cs ih =>
    have hc := c.utf8Size_pos
    simp only [List.length_cons, byteLength_cons]
    omega

theorem append_inj_of_byteLength {as bs cs ds : Text} (h : as ++ bs = cs ++ ds)
    (hlen : byteLength as = byteLength cs) : as = cs ∧ bs = ds := by
  induction as generalizing cs with
  | nil =>
    cases cs with
    | nil => exact ⟨rfl, h⟩
    | cons c cs =>
      have hc := c.utf8Size_pos
      simp only [byteLength_nil, byteLength_cons] at hlen
      omega
  | cons a as ih =>
    cases cs with
    | nil =>
      have ha := a.utf8Size_pos
      simp only [byteLength_nil, byteLength_cons] at hlen
      omega
    | cons c cs =>
      simp only [List.cons_append, List.cons.injEq] at h
      obtain ⟨rfl, h⟩ := h
      simp only [byteLength_cons] at hlen
      obtain ⟨rfl, hbs⟩ := ih h (by omega)
      exact ⟨rfl, hbs⟩

/-- Of two cuts of a text the one further in front is a cut of what the other leaves in front. -/
theorem exists_between {as bs cs ds : Text} (h : as ++ bs = cs ++ ds)
    (hle : byteLength as ≤ byteLength cs) : ∃ us, cs = as ++ us ∧ bs = us ++ ds := by
  rcases List.append_eq_append_iff.mp h with hcut | ⟨us, rfl, rfl⟩
  · exact hcut
  · cases us with
    | nil => exact ⟨[], by simp, rfl⟩
    | cons u us =>
      have hpos := u.utf8Size_pos
      simp only [byteLength_append, byteLength_cons] at hle
      omega

theorem exists_cut {as us bs before after : Text} {c : Char}
    (h : as ++ (us ++ bs) = before ++ c :: after) (hlow : byteLength as ≤ byteLength before)
    (hhigh : byteLength before < byteLength as + byteLength us) :
    ∃ xs ys, before = as ++ xs ∧ us = xs ++ c :: ys := by
  obtain ⟨xs, rfl, hus⟩ := exists_between h hlow
  rw [byteLength_append] at hhigh
  rcases List.append_eq_append_iff.mp hus with ⟨zs, rfl, -⟩ | ⟨zs, rfl, hzs⟩
  · rw [byteLength_append] at hhigh
    omega
  · cases zs with
    | nil =>
      simp only [List.append_nil] at hhigh
      omega
    | cons z zs =>
      obtain ⟨rfl, -⟩ := List.cons.inj hzs
      exact ⟨xs, zs, rfl, rfl⟩

theorem dropBytes?_eq_some {n : Nat} {cs ds : Text} (h : dropBytes? n cs = some ds) :
    ∃ as, cs = as ++ ds ∧ n = byteLength as := by
  fun_induction dropBytes? n cs with
  | case1 cs => exact ⟨[], by simpa using h, rfl⟩
  | case2 n => cases h
  | case3 n c cs hc ih =>
    obtain ⟨as, rfl, hn⟩ := ih h
    refine ⟨c :: as, rfl, ?_⟩
    simp only [byteLength_cons]
    omega
  | case4 n c cs hc => cases h

theorem takeBytes?_eq_some {n : Nat} {cs ds : Text} (h : takeBytes? n cs = some ds) :
    ∃ bs, cs = ds ++ bs ∧ n = byteLength ds := by
  fun_induction takeBytes? n cs generalizing ds with
  | case1 cs =>
    cases h
    exact ⟨cs, rfl, rfl⟩
  | case2 n => cases h
  | case3 n c cs hc ih =>
    obtain ⟨es, hes, rfl⟩ := Option.map_eq_some_iff.mp h
    obtain ⟨bs, rfl, hn⟩ := ih hes
    refine ⟨bs, rfl, ?_⟩
    simp only [byteLength_cons]
    omega
  | case4 n c cs hc => cases h

/-- A slice is what stands between the texts that fill the bytes before and after it. -/
theorem slice?_eq_some_iff {cs ds : Text} {r : Span} :
    slice? cs r = some ds ↔ ∃ as bs, cs = as ++ (ds ++ bs) ∧
      r.start = byteLength as ∧ r.stop = byteLength as + byteLength ds := by
  constructor
  · intro h
    unfold slice? at h
    split at h
    · obtain ⟨es, hes, hds⟩ := Option.bind_eq_some_iff.mp h
      obtain ⟨as, rfl, hstart⟩ := dropBytes?_eq_some hes
      obtain ⟨bs, rfl, hlen⟩ := takeBytes?_eq_some hds
      refine ⟨as, bs, rfl, hstart, ?_⟩
      simp only [Span.length] at hlen
      omega
    · cases h
  · rintro ⟨as, bs, rfl, hstart, hstop⟩
    cases r
    simp only at hstart hstop
    rw [hstart, hstop, slice?_append]

theorem byteLength_slice? {cs ds : Text} {r : Span} (h : slice? cs r = some ds) :
    byteLength ds = r.length := by
  obtain ⟨as, bs, -, hstart, hstop⟩ := slice?_eq_some_iff.mp h
  simp only [Span.length]
  omega

theorem stop_le_of_slice? {cs ds : Text} {r : Span} (h : slice? cs r = some ds) :
    r.stop ≤ byteLength cs := by
  obtain ⟨as, bs, rfl, hstart, hstop⟩ := slice?_eq_some_iff.mp h
  simp only [byteLength_append]
  omega

theorem slice?_join {cs ds es : Text} {r s : Span} (h : slice? cs r = some ds)
    (h' : slice? cs s = some es) (hmeet : r.stop = s.start) :
    slice? cs ⟨r.start, s.stop⟩ = some (ds ++ es) := by
  obtain ⟨as, bs, hcs, hr, hr'⟩ := slice?_eq_some_iff.mp h
  obtain ⟨as', bs', hcs', hs, hs'⟩ := slice?_eq_some_iff.mp h'
  have hcut : (as ++ ds) ++ bs = as' ++ (es ++ bs') := by
    rw [List.append_assoc, ← hcs, hcs']
  obtain ⟨rfl, rfl⟩ := append_inj_of_byteLength hcut (by rw [byteLength_append]; omega)
  refine slice?_eq_some_iff.mpr ⟨as, bs', ?_, hr, ?_⟩
  · rw [hcs, List.append_assoc]
  · simp only [byteLength_append] at hs' ⊢
    omega

/-- A slice of a slice is a slice of the whole, further on by where the outer one starts. -/
theorem slice?_shift_iff {cs ds es : Text} {r s : Span} (h : slice? cs r = some ds) :
    slice? ds s = some es ↔ s.stop ≤ r.length ∧ slice? cs (s.shift r.start) = some es := by
  have hlen := byteLength_slice? h
  obtain ⟨as, bs, rfl, hstart, -⟩ := slice?_eq_some_iff.mp h
  constructor
  · intro h'
    have hstop := stop_le_of_slice? h'
    obtain ⟨xs, ys, rfl, hxs, hys⟩ := slice?_eq_some_iff.mp h'
    refine ⟨hlen ▸ hstop, slice?_eq_some_iff.mpr ⟨as ++ xs, ys ++ bs, by simp, ?_, ?_⟩⟩ <;>
      simp only [Span.shift, byteLength_append] <;> omega
  · rintro ⟨hle, h'⟩
    obtain ⟨xs, ys, hcut, hxs, hys⟩ := slice?_eq_some_iff.mp h'
    simp only [Span.shift] at hxs hys
    obtain ⟨us, rfl, hrest⟩ := exists_between hcut (by omega)
    rw [← List.append_assoc us] at hrest
    rw [byteLength_append] at hxs hys
    obtain ⟨vs, rfl, -⟩ := exists_between hrest.symm (by rw [byteLength_append]; omega)
    refine slice?_eq_some_iff.mpr ⟨us, vs, List.append_assoc .., ?_, ?_⟩ <;> omega

/-- A text can be cut at two places in order where no character is cut. -/
theorem exists_slice?_iff {cs : Text} {r : Span} : (∃ ds, slice? cs r = some ds) ↔
    r.start ≤ r.stop ∧ cs.IsCharBoundary r.start ∧ cs.IsCharBoundary r.stop := by
  constructor
  · rintro ⟨ds, h⟩
    obtain ⟨as, bs, rfl, hstart, hstop⟩ := slice?_eq_some_iff.mp h
    refine ⟨by omega, ⟨as, ds ++ bs, rfl, hstart.symm⟩, as ++ ds, bs, by simp, ?_⟩
    rw [byteLength_append, hstop]
  · rintro ⟨hle, ⟨as, bs, hcs, hstart⟩, cs', ds, hcs', hstop⟩
    obtain ⟨us, rfl, -⟩ := exists_between (hcs.symm.trans hcs') (by omega)
    refine ⟨us, slice?_eq_some_iff.mpr ⟨as, ds, ?_, hstart.symm, ?_⟩⟩
    · rw [hcs', List.append_assoc]
    · rw [← hstop, byteLength_append]

theorem slice?_slice {cs xs ys zs : Text} {r : Span} (h : slice? cs r = some (xs ++ ys ++ zs)) :
    slice? cs ⟨r.start + byteLength xs, r.start + byteLength xs + byteLength ys⟩ = some ys := by
  obtain ⟨as, bs, rfl, hstart, -⟩ := slice?_eq_some_iff.mp h
  refine slice?_eq_some_iff.mpr ⟨as ++ xs, zs ++ bs, by simp, ?_, ?_⟩ <;>
    simp only [byteLength_append] <;> omega

/-- A text can be cut from where one slice starts to where another one stops. -/
theorem exists_slice?_between {cs ds es : Text} {r s : Span} (h : slice? cs r = some ds)
    (h' : slice? cs s = some es) (hle : r.start ≤ s.stop) :
    ∃ us, slice? cs ⟨r.start, s.stop⟩ = some us := by
  obtain ⟨as, bs, hcs, hr, -⟩ := slice?_eq_some_iff.mp h
  obtain ⟨as', bs', hcs', -, hs⟩ := slice?_eq_some_iff.mp h'
  have hlen : byteLength as ≤ byteLength (as' ++ es) := by rw [byteLength_append]; omega
  have hcut : as ++ (ds ++ bs) = (as' ++ es) ++ bs' := by rw [← hcs, hcs', List.append_assoc]
  obtain ⟨us, hus, -⟩ := exists_between hcut hlen
  refine ⟨us, slice?_eq_some_iff.mpr ⟨as, bs', ?_, hr, ?_⟩⟩
  · rw [← List.append_assoc, ← hus, hcs', List.append_assoc]
  · rw [hs, ← byteLength_append, ← byteLength_append, hus]

end MarkupText.Text
