import MarkupText.Proofs.Slices
import MarkupText.Window

namespace MarkupText

open Text

namespace Window

inductive Over (buffer : Text) : Window → Prop
  | whole : Over buffer (.whole buffer)
  | part {span : Span} {w : Window} : of? buffer span = some w → Over buffer w
  | slice {w v : Window} {span : Span} : Over buffer w → w.slice? span = some v → Over buffer v

/-- `slice?` with offsets of 64 bits. It has no result where a sum overflows. -/
def wordSlice? (w : Window) (start stop : BitVec 64) : Option (Option Window) :=
  if start.toNat ≤ stop.toNat ∧ stop.toNat ≤ w.length then
    let offset := BitVec.ofNat 64 w.offset
    if offset.uaddOverflow start || offset.uaddOverflow stop then none
    else some (of? w.buffer ⟨(offset + start).toNat, (offset + stop).toNat⟩)
  else some none

/-- A window stands in its buffer as its offset and its length say, no character is cut at its ends,
and a part of a window is what its text has there. -/
structure Nests (buffer : Text) (w : Window) : Prop where
  buffer_eq : w.buffer = buffer
  stop_le : w.offset + w.length ≤ byteLength buffer
  isCharBoundary_start : buffer.IsCharBoundary w.offset
  isCharBoundary_stop : buffer.IsCharBoundary (w.offset + w.length)
  text_eq : Text.slice? buffer ⟨w.offset, w.offset + w.length⟩ = some w.text
  wordSlice_eq (start stop : BitVec 64) : byteLength buffer < Nat.pow 2 64 →
    w.wordSlice? start stop = some (w.slice? ⟨start.toNat, stop.toNat⟩)
  exists_slice (r : Span) : (∃ v, w.slice? r = some v) ↔
    r.start ≤ r.stop ∧ w.text.IsCharBoundary r.start ∧ w.text.IsCharBoundary r.stop
  slice_text (r : Span) (v : Window) : w.slice? r = some v →
    ∃ front back, w.text = front ++ (v.text ++ back) ∧ r.start = byteLength front ∧
      r.stop = byteLength (front ++ v.text)
  slice_slice (a b c d : Nat) (u v : Window) : w.slice? ⟨a, b⟩ = some u →
    u.slice? ⟨c, d⟩ = some v → w.slice? ⟨a + c, a + d⟩ = some v

variable {buffer : Text} {w v : Window} {r : Span}

/-- The place of a window in its buffer determines its text. -/
theorem eq_of_span (hbuffer : v.buffer = w.buffer) (hspan : v.span = w.span) : v = w := by
  obtain ⟨buffer, span, text, h⟩ := v
  obtain ⟨buffer', span', text', h'⟩ := w
  obtain rfl : buffer = buffer' := hbuffer
  obtain rfl : span = span' := hspan
  obtain rfl := Option.some.inj (h.symm.trans h')
  rfl

theorem of?_eq_some_iff : of? buffer r = some w ↔ w.buffer = buffer ∧ w.span = r := by
  unfold of?
  constructor
  · intro h
    split at h
    · obtain rfl := Option.some.inj h
      exact ⟨rfl, rfl⟩
    · cases h
  · intro h
    obtain ⟨rfl, rfl⟩ := h
    split
    · exact congrArg some (eq_of_span rfl rfl)
    · rename_i hnone
      rw [w.slice?_buffer] at hnone
      cases hnone

theorem start_le_stop (w : Window) : w.span.start ≤ w.span.stop := by
  obtain ⟨as, bs, -, hstart, hstop⟩ := slice?_eq_some_iff.mp w.slice?_buffer
  omega

theorem offset_add_length (w : Window) : w.offset + w.length = w.span.stop := by
  have hle := w.start_le_stop
  simp only [offset, length, Span.length]
  omega

/-- A part of a window is the window on that part of its text. -/
theorem slice?_eq_some_iff : w.slice? r = some v ↔
    v.buffer = w.buffer ∧ v.span = r.shift w.offset ∧ Text.slice? w.text r = some v.text := by
  have htext (hbuffer : v.buffer = w.buffer) (hspan : v.span = r.shift w.offset) :
      Text.slice? w.text r = some v.text ↔ r.stop ≤ w.length := by
    have hv := v.slice?_buffer
    rw [hbuffer, hspan] at hv
    rw [slice?_shift_iff w.slice?_buffer]
    exact and_iff_left hv
  unfold slice?
  split
  · rename_i hin
    rw [of?_eq_some_iff]
    constructor
    · intro h
      exact ⟨h.1, h.2, (htext h.1 h.2).mpr hin.2⟩
    · intro h
      exact ⟨h.1, h.2.1⟩
  · rename_i hout
    constructor
    · nofun
    · intro h
      obtain ⟨hbuffer, hspan, hcs⟩ := h
      obtain ⟨hle, -⟩ := exists_slice?_iff.mp ⟨_, hcs⟩
      exact absurd ⟨hle, (htext hbuffer hspan).mp hcs⟩ hout

theorem exists_slice?_iff_text : (∃ v, w.slice? r = some v) ↔
    ∃ cs, Text.slice? w.text r = some cs := by
  constructor
  · intro h
    obtain ⟨v, hv⟩ := h
    exact ⟨v.text, (slice?_eq_some_iff.mp hv).2.2⟩
  · intro h
    obtain ⟨cs, hcs⟩ := h
    obtain ⟨-, hbuffer⟩ := (slice?_shift_iff w.slice?_buffer).mp hcs
    exact ⟨⟨w.buffer, r.shift w.offset, cs, hbuffer⟩, slice?_eq_some_iff.mpr ⟨rfl, rfl, hcs⟩⟩

theorem slice?_slice? {a b c d : Nat} {u : Window} (hu : w.slice? ⟨a, b⟩ = some u)
    (hv : u.slice? ⟨c, d⟩ = some v) : w.slice? ⟨a + c, a + d⟩ = some v := by
  obtain ⟨hbuffer, hspan, htext⟩ := slice?_eq_some_iff.mp hu
  obtain ⟨hbuffer', hspan', htext'⟩ := slice?_eq_some_iff.mp hv
  refine slice?_eq_some_iff.mpr ⟨hbuffer'.trans hbuffer, ?_, ?_⟩
  · rw [hspan', offset, hspan]
    simp only [Span.shift, Nat.add_assoc]
  · exact ((slice?_shift_iff htext).mp htext').2

theorem Over.buffer_eq (h : Over buffer w) : w.buffer = buffer := by
  induction h with
  | whole => rfl
  | part hw => exact (of?_eq_some_iff.mp hw).1
  | slice _ hv ih => exact (slice?_eq_some_iff.mp hv).1.trans ih

/-- Both ends are moved into the buffer only after they are known to be in the window. -/
theorem wordSlice?_eq (hbuffer : byteLength w.buffer < Nat.pow 2 64) (start stop : BitVec 64) :
    w.wordSlice? start stop = some (w.slice? ⟨start.toNat, stop.toNat⟩) := by
  have hfits : byteLength w.buffer < 18446744073709551616 := hbuffer
  have hstop := stop_le_of_slice? w.slice?_buffer
  have hend := w.offset_add_length
  have hoffset : (BitVec.ofNat 64 w.offset).toNat = w.offset := Nat.mod_eq_of_lt (by omega)
  have hsum (x : BitVec 64) (hx : x.toNat ≤ w.length) :
      (BitVec.ofNat 64 w.offset).uaddOverflow x = false ∧
        (BitVec.ofNat 64 w.offset + x).toNat = w.offset + x.toNat := by
    rw [BitVec.uaddOverflow, BitVec.toNat_add, hoffset]
    exact ⟨decide_eq_false (by omega), Nat.mod_eq_of_lt (by omega)⟩
  unfold wordSlice? slice?
  split
  · rename_i hin
    obtain ⟨hstart, hstart'⟩ := hsum start (Nat.le_trans hin.1 hin.2)
    obtain ⟨hstop, hstop'⟩ := hsum stop hin.2
    simp only [hstart, hstop, hstart', hstop', Bool.or_self, Bool.false_eq_true, if_false]
    rfl
  · rfl

/-- Parts of parts are parts, and none leaves the buffer or cuts a character. -/
theorem nests_of_over (h : Over buffer w) : w.Nests buffer := by
  obtain rfl := h.buffer_eq
  have htext : Text.slice? w.buffer ⟨w.offset, w.offset + w.length⟩ = some w.text := by
    rw [w.offset_add_length]
    exact w.slice?_buffer
  have hstop := stop_le_of_slice? htext
  obtain ⟨-, hfront, hback⟩ := exists_slice?_iff.mp ⟨_, htext⟩
  refine ⟨rfl, hstop, hfront, hback, htext, ?_, ?_, ?_, ?_⟩
  · intro start stop hbuffer
    exact wordSlice?_eq hbuffer start stop
  · intro r
    rw [exists_slice?_iff_text, exists_slice?_iff]
  · intro r v hv
    obtain ⟨-, -, hcs⟩ := slice?_eq_some_iff.mp hv
    obtain ⟨front, back, hcut, hstart, hend⟩ := Text.slice?_eq_some_iff.mp hcs
    exact ⟨front, back, hcut, hstart, by rw [byteLength_append, hend]⟩
  · intro a b c d u v hu hv
    exact slice?_slice? hu hv

theorem nests_of_over_accent : ∃ w, Over "aébc".toList w ∧ w.text = "éb".toList ∧
    w.Nests "aébc".toList ∧ w.slice? ⟨0, 1⟩ = none ∧ w.slice? ⟨2, Nat.pow 2 64 - 1⟩ = none := by
  let u : Window := ⟨"aébc".toList, ⟨1, 5⟩, "ébc".toList, rfl⟩
  let w : Window := ⟨"aébc".toList, ⟨1, 4⟩, "éb".toList, rfl⟩
  have hu : of? "aébc".toList ⟨1, 5⟩ = some u := of?_eq_some_iff.mpr ⟨rfl, rfl⟩
  have hw : u.slice? ⟨0, 3⟩ = some w := slice?_eq_some_iff.mpr ⟨rfl, rfl, rfl⟩
  have hover : Over "aébc".toList w := .slice (.part hu) hw
  exact ⟨w, hover, rfl, nests_of_over hover, rfl, rfl⟩

end Window

end MarkupText
