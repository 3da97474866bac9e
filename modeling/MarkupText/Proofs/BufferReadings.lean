import Mathlib.Data.List.Forall2
import MarkupText.Proofs.Windows
import MarkupText.Source

namespace MarkupText

open Text

def readAll {β σ : Type} (read : β → σ → Except ReadError Span × β) (buffer : β) :
    List σ → List (Except ReadError Span) × β
  | [] => ([], buffer)
  | s :: ss =>
    let (result, buffer) := read buffer s
    let (results, buffer) := readAll read buffer ss
    (result :: results, buffer)

def Source.readInto (buffer : Text) (s : Source) : Except ReadError Span × Text :=
  match s.appendTo buffer with
  | .ok (buffer, span) => (.ok span, buffer)
  | .error e => (.error e, buffer)

/-- How bytes come to a buffer: in pieces, which there are none of where a file is missing. What is
decoded when all have come is the new bytes or all that the buffer then has. -/
structure Delivery where
  pieces? : Option (List ByteArray)
  decodesAll : Bool

namespace Delivery

/-- Puts the pieces behind the bytes of a buffer as they come. What proves to be no UTF-8 is cut off
again. -/
def into (buffer : ByteArray) (d : Delivery) : Except ReadError Span × ByteArray :=
  match d.pieces? with
  | none => (.error .notFound, buffer)
  | some pieces =>
    let filled := pieces.foldl (· ++ ·) buffer
    let decoded := if d.decodesAll then filled else filled.extract buffer.size filled.size
    if decoded.validateUTF8 then (.ok ⟨buffer.size, filled.size⟩, filled)
    else (.error .invalidData, filled.extract 0 buffer.size)

def bytes? (d : Delivery) : Option ByteArray := d.pieces?.map (·.foldl (· ++ ·) .empty)

end Delivery

/-- Sources are read into a buffer one after the other. The bytes of a document are added to it, and
no other source changes it. -/
inductive ReadsInto :
    Text → List Source → List (Except ReadError Span) → List Text → Text → Prop
  | done {buffer : Text} : ReadsInto buffer [] [] [] buffer
  | document {buffer final cs : Text} {s : Source} {ss : List Source}
      {results : List (Except ReadError Span)} {documents : List Text} :
      s.bytes? = some cs.utf8Encode → ReadsInto (buffer ++ cs) ss results documents final →
      ReadsInto buffer (s :: ss) (.ok ⟨byteLength buffer, byteLength (buffer ++ cs)⟩ :: results)
        (cs :: documents) final
  | invalid {buffer final : Text} {bytes : ByteArray} {s : Source} {ss : List Source}
      {results : List (Except ReadError Span)} {documents : List Text} :
      s.bytes? = some bytes → (∀ cs : Text, bytes ≠ cs.utf8Encode) →
      ReadsInto buffer ss results documents final →
      ReadsInto buffer (s :: ss) (.error .invalidData :: results) documents final
  | missing {buffer final : Text} {s : Source} {ss : List Source}
      {results : List (Except ReadError Span)} {documents : List Text} :
      s.bytes? = none → ReadsInto buffer ss results documents final →
      ReadsInto buffer (s :: ss) (.error .notFound :: results) documents final

def Abut (start stop : Nat) : List Span → Prop
  | [] => start = stop
  | r :: rs => r.start = start ∧ r.start ≤ r.stop ∧ Abut r.stop stop rs

def spansOf (results : List (Except ReadError Span)) : List Span :=
  results.filterMap Except.toOption

/-- Readings into a buffer have added documents to it and nothing else, at the places that they have
given. Another way for the same bytes to come would have made no difference. -/
structure AddsDocuments (buffer : Text) (ss : List Source)
    (results : List (Except ReadError Span)) (documents : List Text) (final : Text) : Prop where
  reads : ReadsInto buffer ss results documents final
  final_eq : final = buffer ++ documents.flatten
  abut : Abut (byteLength buffer) (byteLength final) (spansOf results)
  windows : List.Forall₂ (fun r cs ↦ ∃ w, Window.of? final r = some w ∧ w.text = cs)
    (spansOf results) documents
  sources (ss' : List Source) : ss'.map Source.bytes? = ss.map Source.bytes? →
    readAll Source.readInto buffer ss' = (results, final)
  deliveries (ds : List Delivery) : ds.map Delivery.bytes? = ss.map Source.bytes? →
    readAll Delivery.into buffer.utf8Encode ds = (results, final.utf8Encode)

variable {buffer final cs : Text} {bytes : ByteArray} {s : Source} {ss : List Source}
  {results : List (Except ReadError Span)} {documents : List Text}

theorem size_utf8Encode (cs : Text) : cs.utf8Encode.size = byteLength cs := by
  induction cs with
  | nil => rfl
  | cons c cs ih =>
    rw [List.utf8Encode_cons, ByteArray.size_append, ih, List.utf8Encode_singleton,
      List.size_toByteArray, String.length_utf8EncodeChar, byteLength_cons]

/-- Behind a text, bytes are UTF-8 just where they are so alone. -/
theorem isValidUTF8_utf8Encode_append_iff (cs : Text) (bytes : ByteArray) :
    (cs.utf8Encode ++ bytes).IsValidUTF8 ↔ bytes.IsValidUTF8 := by
  induction cs with
  | nil => rw [List.utf8Encode_nil, ByteArray.empty_append]
  | cons c cs ih =>
    rw [List.utf8Encode_cons, ByteArray.append_assoc,
      ByteArray.isValidUTF8_utf8Encode_singleton_append_iff, ih]

theorem foldl_append_pieces (buffer : ByteArray) (pieces : List ByteArray) :
    pieces.foldl (· ++ ·) buffer = buffer ++ pieces.foldl (· ++ ·) .empty := by
  induction pieces generalizing buffer with
  | nil => exact ByteArray.append_empty.symm
  | cons piece pieces ih =>
    rw [List.foldl_cons, List.foldl_cons, ih, ih (.empty ++ piece), ByteArray.empty_append,
      ByteArray.append_assoc]

theorem fromUTF8?_utf8Encode (cs : Text) :
    String.fromUTF8? cs.utf8Encode = some (String.ofList cs) := by
  have hvalid : cs.utf8Encode.IsValidUTF8 := ByteArray.isValidUTF8_utf8Encode
  rw [String.fromUTF8?, dif_pos hvalid, Option.some.injEq]
  apply String.toByteArray_inj.mp
  rw [String.toByteArray_ofList]
  rfl

theorem readAll_cons {β σ : Type} {read : β → σ → Except ReadError Span × β} {buffer buffer' : β}
    {s : σ} {result : Except ReadError Span} (h : read buffer s = (result, buffer')) (ss : List σ) :
    readAll read buffer (s :: ss) =
      (result :: (readAll read buffer' ss).1, (readAll read buffer' ss).2) := by
  rw [readAll, h]

namespace Source

theorem readInto_document (h : s.bytes? = some cs.utf8Encode) (buffer : Text) :
    s.readInto buffer = (.ok ⟨byteLength buffer, byteLength (buffer ++ cs)⟩, buffer ++ cs) := by
  have hread : s.read = .ok cs := by
    rw [read, h]
    dsimp only
    rw [fromUTF8?_utf8Encode]
    exact congrArg Except.ok String.toList_ofList
  rw [readInto, appendTo, hread, byteLength_append]
  rfl

theorem readInto_error {e : ReadError} (h : s.read = .error e) (buffer : Text) :
    s.readInto buffer = (.error e, buffer) := by
  rw [readInto, appendTo, h]
  rfl

theorem read_invalid (h : s.bytes? = some bytes) (hbytes : ¬bytes.IsValidUTF8) :
    s.read = .error .invalidData := by
  rw [read, h]
  dsimp only
  rw [String.fromUTF8?, dif_neg hbytes]

theorem read_missing (h : s.bytes? = none) : s.read = .error .notFound := by
  rw [read, h]

theorem exists_readsInto (buffer : Text) (ss : List Source) : ∃ documents,
    ReadsInto buffer ss (readAll readInto buffer ss).1 documents
      (readAll readInto buffer ss).2 := by
  induction ss generalizing buffer with
  | nil => exact ⟨[], .done⟩
  | cons s ss ih =>
    cases hbytes : s.bytes? with
    | none =>
      rw [readAll_cons (readInto_error (read_missing hbytes) buffer)]
      obtain ⟨documents, h⟩ := ih buffer
      exact ⟨documents, .missing hbytes h⟩
    | some bytes =>
      by_cases hvalid : bytes.IsValidUTF8
      · obtain ⟨cs, rfl⟩ := hvalid
        rw [readAll_cons (readInto_document hbytes buffer)]
        obtain ⟨documents, h⟩ := ih (buffer ++ cs)
        exact ⟨cs :: documents, .document hbytes h⟩
      · rw [readAll_cons (readInto_error (read_invalid hbytes hvalid) buffer)]
        obtain ⟨documents, h⟩ := ih buffer
        exact ⟨documents, .invalid hbytes (fun cs hcs ↦ hvalid ⟨cs, hcs⟩) h⟩

theorem readAll_congr {ss ss' : List Source} (h : ss'.map bytes? = ss.map bytes?)
    (buffer : Text) : readAll readInto buffer ss' = readAll readInto buffer ss := by
  induction ss generalizing buffer ss' with
  | nil =>
    obtain rfl := List.map_eq_nil_iff.mp h
    rfl
  | cons s ss ih =>
    obtain ⟨s', ss', rfl, hbytes, hss⟩ := List.map_eq_cons_iff.mp h
    have hread : s'.readInto buffer = s.readInto buffer := by
      rw [readInto, readInto, appendTo, appendTo, read, read, hbytes]
    simp only [readAll, hread, ih hss]

end Source

namespace Delivery

variable {d : Delivery} {ds : List Delivery}

/-- It makes no difference whether a text is decoded once more with the bytes behind it. -/
theorem into_eq (h : d.bytes? = some bytes) (buffer : Text) : d.into buffer.utf8Encode =
    if bytes.IsValidUTF8 then
      (.ok ⟨byteLength buffer, byteLength buffer + bytes.size⟩, buffer.utf8Encode ++ bytes)
    else (.error .invalidData, buffer.utf8Encode) := by
  obtain ⟨pieces, hpieces, rfl⟩ := Option.map_eq_some_iff.mp h
  rw [into, hpieces]
  dsimp only
  rw [foldl_append_pieces]
  generalize pieces.foldl (· ++ ·) ByteArray.empty = bytes
  have hold : (buffer.utf8Encode ++ bytes).extract 0 buffer.utf8Encode.size = buffer.utf8Encode :=
    ByteArray.extract_append_eq_left rfl
  have hnew : (buffer.utf8Encode ++ bytes).extract buffer.utf8Encode.size
      (buffer.utf8Encode ++ bytes).size = bytes :=
    ByteArray.extract_append_eq_right rfl ByteArray.size_append
  have hdecoded : (if d.decodesAll then buffer.utf8Encode ++ bytes else bytes).validateUTF8 ↔
      bytes.IsValidUTF8 := by
    rw [ByteArray.validateUTF8_eq_true_iff]
    split
    · exact isValidUTF8_utf8Encode_append_iff buffer bytes
    · rfl
  rw [hold, hnew, ByteArray.size_append, size_utf8Encode]
  exact if_congr hdecoded rfl rfl

theorem into_document (h : d.bytes? = some cs.utf8Encode) (buffer : Text) :
    d.into buffer.utf8Encode =
      (.ok ⟨byteLength buffer, byteLength (buffer ++ cs)⟩, (buffer ++ cs).utf8Encode) := by
  rw [into_eq h, if_pos ByteArray.isValidUTF8_utf8Encode, size_utf8Encode, byteLength_append,
    List.utf8Encode_append]

theorem into_invalid (h : d.bytes? = some bytes) (hbytes : ∀ cs : Text, bytes ≠ cs.utf8Encode)
    (buffer : Text) : d.into buffer.utf8Encode = (.error .invalidData, buffer.utf8Encode) := by
  rw [into_eq h, if_neg fun ⟨cs, hcs⟩ ↦ hbytes cs hcs]

theorem into_missing (h : d.bytes? = none) (buffer : Text) :
    d.into buffer.utf8Encode = (.error .notFound, buffer.utf8Encode) := by
  rw [into, Option.map_eq_none_iff.mp h]

theorem readAll_eq (h : ReadsInto buffer ss results documents final)
    (hds : ds.map bytes? = ss.map Source.bytes?) :
    readAll into buffer.utf8Encode ds = (results, final.utf8Encode) := by
  induction h generalizing ds with
  | done =>
    obtain rfl := List.map_eq_nil_iff.mp hds
    rfl
  | document hs _ ih =>
    obtain ⟨d, ds, rfl, hd, hds⟩ := List.map_eq_cons_iff.mp hds
    rw [readAll_cons (into_document (hd.trans hs) _), ih hds]
  | invalid hs hbytes _ ih =>
    obtain ⟨d, ds, rfl, hd, hds⟩ := List.map_eq_cons_iff.mp hds
    rw [readAll_cons (into_invalid (hd.trans hs) hbytes _), ih hds]
  | missing hs _ ih =>
    obtain ⟨d, ds, rfl, hd, hds⟩ := List.map_eq_cons_iff.mp hds
    rw [readAll_cons (into_missing (hd.trans hs) _), ih hds]

end Delivery

namespace ReadsInto

theorem final_eq (h : ReadsInto buffer ss results documents final) :
    final = buffer ++ documents.flatten := by
  induction h with
  | done => exact (List.append_nil _).symm
  | document _ _ ih => rw [ih, List.flatten_cons, List.append_assoc]
  | invalid _ _ _ ih => exact ih
  | missing _ _ ih => exact ih

theorem abut (h : ReadsInto buffer ss results documents final) :
    Abut (byteLength buffer) (byteLength final) (spansOf results) := by
  induction h with
  | done => rfl
  | document _ _ ih =>
    refine ⟨rfl, ?_, ih⟩
    rw [byteLength_append]
    exact Nat.le_add_right _ _
  | invalid _ _ _ ih => exact ih
  | missing _ _ ih => exact ih

theorem windows (h : ReadsInto buffer ss results documents final) :
    List.Forall₂ (fun r cs ↦ ∃ w, Window.of? final r = some w ∧ w.text = cs)
      (spansOf results) documents := by
  induction h with
  | done => exact .nil
  | @document buffer final cs s ss results documents _ h ih =>
    have hslice : Text.slice? final ⟨byteLength buffer, byteLength (buffer ++ cs)⟩ = some cs := by
      rw [h.final_eq, List.append_assoc, byteLength_append]
      exact slice?_append buffer cs documents.flatten
    exact .cons ⟨⟨final, _, cs, hslice⟩, Window.of?_eq_some_iff.mpr ⟨rfl, rfl⟩, rfl⟩ ih
  | invalid _ _ _ ih => exact ih
  | missing _ _ ih => exact ih

end ReadsInto

/-- Whatever sources are read into a buffer, in whatever pieces, it has the documents among them
behind what it had before, and nothing of the others. -/
theorem addsDocuments_readAll (buffer : Text) (ss : List Source) : ∃ documents,
    AddsDocuments buffer ss (readAll Source.readInto buffer ss).1 documents
      (readAll Source.readInto buffer ss).2 := by
  obtain ⟨documents, h⟩ := Source.exists_readsInto buffer ss
  refine ⟨documents, h, h.final_eq, h.abut, h.windows, ?_, ?_⟩
  · intro ss' hss'
    exact Source.readAll_congr hss' buffer
  · intro ds hds
    exact Delivery.readAll_eq h hds

end MarkupText
