import Mathlib
import Sil.SourceText.Parse

/-!
Places and extents of a source. A cursor that has moved along a source stands at a place of it: its
offset counts the bytes before its text. So the extent between two places spans the characters
between them, and the text of a node with this extent, cut out of the encoded source and decoded
again, is these characters.
-/
namespace Sil.Text
open String

theorem decodeFrom_append (xs rest : List UInt8) (position : Nat) :
    decodeFrom position xs.length (xs ++ rest) = decodeFrom (position + xs.length) 0 rest := by
  induction xs generalizing position with
  | nil => rfl
  | cons b xs ih =>
    rw [List.cons_append, List.length_cons, decodeFrom, ih]
    congr 1
    omega

theorem byte_toNat {n : Nat} (h : n < 256) : (UInt8.ofNat n).toNat = n := by
  simpa using h

/-- A byte that continues a character, with its six low bits. -/
def continuing (bits : Nat) : UInt8 := UInt8.ofNat (bits + 0x80)

theorem continuation_cons {range : Nat × Nat} {low : Nat} (hbits : low < 64)
    (hrange : range.1 ≤ low + 0x80 ∧ low + 0x80 ≤ range.2) (bits wanted : Nat) (rest : List UInt8) :
    continuation range bits (wanted + 1) (continuing low :: rest) =
      let r := continuation (0x80, 0xBF) (bits * 64 + low) wanted rest
      (r.1 + 1, r.2) := by
  have hbyte : (continuing low).toNat = low + 0x80 := byte_toNat (by omega)
  simp [continuation, hbyte, hrange]

/-- All bytes after the second one are in the same range. -/
theorem continuation_map (lows : List Nat) (h : ∀ low ∈ lows, low < 64) (bits : Nat)
    (rest : List UInt8) :
    continuation (0x80, 0xBF) bits lows.length (lows.map continuing ++ rest) =
      (lows.length, lows.foldl (fun n low => n * 64 + low) bits, false) := by
  induction lows generalizing bits with
  | nil => rfl
  | cons low lows ih =>
    rw [List.forall_mem_cons] at h
    rw [List.map_cons, List.cons_append, List.length_cons,
      continuation_cons h.1 (by dsimp only; omega), ih h.2]
    rfl

/-- A character of several bytes. -/
theorem decodeChar_continuing {lead bits low : Nat} (lows : List Nat)
    (hlead : 0x80 ≤ lead ∧ lead < 256) (hstart : startByte? lead = some (lows.length + 1, bits))
    (hlow : low < 64)
    (hsecond : (secondRange lead).1 ≤ low + 0x80 ∧ low + 0x80 ≤ (secondRange lead).2)
    (hlows : ∀ low ∈ lows, low < 64) (position : Nat) (rest : List UInt8) :
    decodeChar position (UInt8.ofNat lead) (continuing low :: lows.map continuing ++ rest) =
      .ok (Char.ofNat (lows.foldl (fun n low => n * 64 + low) (bits * 64 + low)),
        lows.length + 2) := by
  have hb : ¬ UInt8.ofNat lead < 0x80 := by
    rw [UInt8.lt_iff_toNat_lt, byte_toNat hlead.2]
    exact Nat.not_lt.mpr hlead.1
  rw [decodeChar, if_neg hb, byte_toNat hlead.2, hstart, List.cons_append]
  dsimp only
  rw [continuation_cons hlow hsecond, continuation_map lows hlows, if_pos rfl]

theorem startByte?_two {bits : Nat} (h : 2 ≤ bits ∧ bits < 32) :
    startByte? (bits + 0xC0) = some (1, bits) := by
  rw [startByte?, if_pos (by simp; omega), Nat.add_sub_cancel]

theorem startByte?_three {bits : Nat} (h : bits < 16) :
    startByte? (bits + 0xE0) = some (2, bits) := by
  rw [startByte?, if_neg (by simp), if_pos (by simp; omega), Nat.add_sub_cancel]

theorem startByte?_four {bits : Nat} (h : bits < 5) :
    startByte? (bits + 0xF0) = some (3, bits) := by
  rw [startByte?, if_neg (by simp), if_neg (by simp), if_pos (by simp; omega), Nat.add_sub_cancel]

/-- The bytes of a character are decoded to it. -/
theorem decodeChar_utf8EncodeChar (c : Char) (position : Nat) (rest : List UInt8) :
    ∃ b more, utf8EncodeChar c = b :: more ∧
      decodeChar position b (more ++ rest) = .ok (c, more.length + 1) := by
  have hvalid : c.toNat < 0xD800 ∨ (0xDFFF < c.toNat ∧ c.toNat < 0x110000) := c.valid
  have hv : c.val.toNat = c.toNat := rfl
  have hchar {n : Nat} (h : n = c.toNat) : Char.ofNat n = c := by rw [h, Char.ofNat_toNat]
  unfold utf8EncodeChar
  rw [hv]
  dsimp only
  generalize c.toNat = v at hvalid hchar
  -- The number of bytes grows with the code point.
  split
  · rename_i hone
    have hb : UInt8.ofNat v < 0x80 := by
      rw [UInt8.lt_iff_toNat_lt, byte_toNat (by omega)]
      exact Nat.lt_succ_of_le hone
    refine ⟨_, _, rfl, ?_⟩
    rw [decodeChar, if_pos hb, byte_toNat (by omega), hchar rfl]
    rfl
  split
  · refine ⟨_, _, rfl, ?_⟩
    rw [← hchar (n := v / 64 % 32 * 64 + v % 64) (by omega)]
    refine decodeChar_continuing [] (by omega) (startByte?_two (by omega)) (by omega) ?_ (by simp)
      position rest
    unfold secondRange
    split_ifs <;> dsimp only <;> omega
  split
  · refine ⟨_, _, rfl, ?_⟩
    rw [← hchar (n := (v / 4096 % 16 * 64 + v / 64 % 64) * 64 + v % 64) (by omega)]
    refine decodeChar_continuing [v % 64] (by omega) (startByte?_three (by omega)) (by omega) ?_
      (by simp; omega) position rest
    unfold secondRange
    split_ifs <;> dsimp only <;> omega
  · refine ⟨_, _, rfl, ?_⟩
    rw [← hchar (n := ((v / 262144 % 8 * 64 + v / 4096 % 64) * 64 + v / 64 % 64) * 64 + v % 64)
      (by omega)]
    refine decodeChar_continuing [v / 64 % 64, v % 64] (by omega) (startByte?_four (by omega))
      (by omega) ?_ (by simp; omega) position rest
    unfold secondRange
    split_ifs <;> dsimp only <;> omega

theorem decodeFrom_utf8Encode (cs : List Char) (position : Nat) :
    decodeFrom position 0 (cs.flatMap utf8EncodeChar) = .ok cs := by
  induction cs generalizing position with
  | nil => rfl
  | cons c cs ih =>
    obtain ⟨b, more, hc, hdecode⟩ :=
      decodeChar_utf8EncodeChar c position (cs.flatMap utf8EncodeChar)
    rw [List.flatMap_cons, hc, List.cons_append, decodeFrom, hdecode]
    show (decodeFrom (position + 1) more.length (more ++ cs.flatMap utf8EncodeChar) >>= fun r =>
        .ok (c :: r)) = _
    rw [decodeFrom_append, ih]
    rfl

private theorem toList_loop (bytes : ByteArray) (i : Nat) (r : List UInt8) :
    ByteArray.toList.loop bytes i r = r.reverse ++ bytes.data.toList.drop i := by
  fun_induction ByteArray.toList.loop bytes i r with
  | case1 i r hlt ih =>
    have hget : bytes.get! i = bytes.data.toList[i] := by
      obtain ⟨data⟩ := bytes
      exact (getElem!_pos data i hlt).trans (Array.getElem_toList hlt).symm
    rw [ih, List.reverse_cons, List.append_assoc, List.drop_eq_getElem_cons hlt, ← hget]
    rfl
  | case2 i r hge =>
    rw [List.drop_eq_nil_of_le (by simpa using hge), List.append_nil]

theorem toList_byteArray (bytes : ByteArray) : bytes.toList = bytes.data.toList :=
  toList_loop bytes 0 []

/-- Decoding undoes encoding. -/
theorem decodeUtf8_utf8Encode (cs : List Char) : decodeUtf8 cs.utf8Encode.toList = .ok cs := by
  have hbytes : cs.utf8Encode.toList = cs.flatMap utf8EncodeChar := by
    simp [toList_byteArray, List.utf8Encode]
  rw [hbytes]
  exact decodeFrom_utf8Encode cs 0
end Sil.Text

namespace Sil.SourceText

namespace Cursor

variable (c : Cursor) (n : Nat)

@[simp] theorem rest_next : c.next.rest = c.rest.tail := by
  unfold next
  split
  · simp_all
  · split <;> simp_all

theorem byte_next : c.next.byte = c.byte + (c.rest.take 1).utf8Encode.size := by
  unfold next
  split
  · simp_all
  · rename_i ch rest hrest
    have hsize : [ch].utf8Encode.size = ch.utf8Size := by simp [List.utf8Encode_singleton]
    split
    · rename_i hfeed
      subst hfeed
      simp [hrest, hsize, Char.utf8Size]
    · simp [hrest, hsize]

@[simp] theorem rest_advance : (c.advance n).rest = c.rest.drop n := by
  induction n generalizing c with
  | zero => rfl
  | succ n ih => rw [advance, ih, rest_next, List.drop_tail]

/-- The offset of a place counts the bytes of the characters before it. -/
theorem byte_advance : (c.advance n).byte = c.byte + (c.rest.take n).utf8Encode.size := by
  induction n generalizing c with
  | zero => simp [advance]
  | succ n ih =>
    rw [advance, ih, byte_next, rest_next]
    cases c.rest with
    | nil => simp
    | cons ch rest =>
      simp [List.utf8Encode_cons (l := rest.take n), Nat.add_assoc]

end Cursor

/-- A cursor at a place of a source: its text is the rest of the source, and its offset counts the
bytes before. -/
def Place (source : ByteArray) (c : Cursor) : Prop :=
  ∃ before : List Char, source = (before ++ c.rest).utf8Encode ∧ c.byte = before.utf8Encode.size

def Spans (source : ByteArray) (e : Extent) (text : List Char) : Prop :=
  ∃ before after : List Char, source = (before ++ text ++ after).utf8Encode ∧
    e.startByte = before.utf8Encode.size ∧ e.endByte = (before ++ text).utf8Encode.size

variable {source : ByteArray} {c : Cursor} {n : Nat}

theorem Place.advance (h : Place source c) (n : Nat) : Place source (c.advance n) := by
  obtain ⟨before, hsource, hbyte⟩ := h
  refine ⟨before ++ c.rest.take n, ?_, ?_⟩
  · rw [hsource, Cursor.rest_advance, List.append_assoc, List.take_append_drop]
  · rw [Cursor.byte_advance, hbyte, List.utf8Encode_append, ByteArray.size_append]

theorem Place.spans (h : Place source c) (n : Nat) :
    Spans source (c.extentTo (c.advance n)) (c.rest.take n) := by
  obtain ⟨before, hsource, hbyte⟩ := h
  refine ⟨before, c.rest.drop n, ?_, ?_, ?_⟩
  · rw [hsource, List.append_assoc, List.take_append_drop]
  · rw [← hbyte]
    rfl
  · rw [List.utf8Encode_append, ByteArray.size_append, ← hbyte, ← Cursor.byte_advance]
    rfl

theorem Spans.slice_eq {e : Extent} {text : List Char} (h : Spans source e text) :
    Concrete.slice source e.startByte e.endByte = text.utf8Encode.toList := by
  obtain ⟨before, after, rfl, hstart, hend⟩ := h
  have hclamp (xs ys : List Char) : min (xs ++ ys).utf8Encode.size
      (if (xs.utf8Encode.size : Int) < 0 then (xs.utf8Encode.size : Int) +
      (xs ++ ys).utf8Encode.size
        else (xs.utf8Encode.size : Int)).toNat = xs.utf8Encode.size := by
    rw [if_neg (by omega), Int.toNat_natCast, List.utf8Encode_append, ByteArray.size_append]
    omega
  have hextract : (before ++ text ++ after).utf8Encode.extract before.utf8Encode.size
      (before ++ text).utf8Encode.size = text.utf8Encode := by
    rw [List.utf8Encode_append, List.utf8Encode_append, ByteArray.append_assoc,
      ByteArray.size_append]
    exact (ByteArray.extract_append_size_add (i := 0)).trans (ByteArray.extract_append_eq_left rfl)
  unfold Concrete.slice
  dsimp only
  rw [hstart, hend, hclamp (before ++ text) after, List.append_assoc, hclamp before (text ++ after),
    ← List.append_assoc, hextract]

/-- The text of a node is the text that its extent spans. -/
theorem Spans.text_eq {t : ConcreteTree} {text : List Char} (h : Spans source t.extent text) :
    Concrete.text source t = .ok (String.ofList text) := by
  rw [Concrete.text, h.slice_eq, Text.decodeUtf8_utf8Encode]

end Sil.SourceText
