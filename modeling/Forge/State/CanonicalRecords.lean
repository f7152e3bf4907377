import Forge.State.Codec

/-!
# Canonical records

Which byte strings `decode` accepts, compared with what `encode` writes. Every record that fits its
length field is read back from the bytes written for it, whatever follows them (`record_round_trip`).
The other direction has two gaps: `decode` looks neither at the reserved bytes `6..8` of the header
nor at the padding it skips, so an accepted record is written back as it was read exactly where these
are zero (`encode_decode_iff`).
-/

namespace Forge.StateCodec

/-- Records are written as they are read, in whole blocks of eight bytes, and no cut before the end of
the payload is mistaken for a record. -/
theorem record_round_trip (record : StateRecord) (hfit : Fits record) :
    (∀ rest, decode (encode record ++ rest) = .ok (record, (encode record).length)) ∧
      (encode record).length % 8 = 0 ∧
      ∀ front, front <+: encode record → front.length < 40 + record.payload.length →
        ∃ status, decode front = .error status := by
  refine ⟨decode_encode record hfit, length_encode_mod record, fun front hfront hshort => ?_⟩
  rw [List.prefix_iff_eq_take.mp hfront]
  exact decode_take_short record hfit _ hshort

/-- A graph delta of three bytes, behind which five bytes of padding stand. -/
theorem record_round_trip_graphDelta :
    (∀ rest, decode (encode ⟨.graphDelta, 1, 0, 1, [7, 8, 9]⟩ ++ rest) =
        .ok (⟨.graphDelta, 1, 0, 1, [7, 8, 9]⟩, (encode ⟨.graphDelta, 1, 0, 1, [7, 8, 9]⟩).length)) ∧
      (encode ⟨.graphDelta, 1, 0, 1, [7, 8, 9]⟩).length % 8 = 0 ∧
      ∀ front, front <+: encode ⟨.graphDelta, 1, 0, 1, [7, 8, 9]⟩ →
        front.length < 40 + [(7 : Byte), 8, 9].length → ∃ status, decode front = .error status :=
  record_round_trip ⟨.graphDelta, 1, 0, 1, [7, 8, 9]⟩ (by decide)

/-! ## Writing back what was read -/

/-- The reserved header bytes are zero, and so is what stands between the length the header gives and
the next multiple of eight. -/
def ZeroFill (bytes : Bytes) : Prop :=
  (bytes.drop 6).take 2 = [0, 0] ∧
    (bytes.drop (LittleEndian.value (bytes.take 4))).take
        (padding (LittleEndian.value (bytes.take 4))) =
      List.replicate (padding (LittleEndian.value (bytes.take 4))) 0

instance (bytes : Bytes) : Decidable (ZeroFill bytes) := inferInstanceAs (Decidable (_ ∧ _))

theorem headerBytes_recordOf {header payload : Bytes} (hheader : header.length = 32)
    (hlen : LittleEndian.value (header.take 4) = 40 + payload.length) :
    headerBytes (recordOf header payload) = header.take 6 ++ ([0, 0] ++ header.drop 8) := by
  have hzero : LittleEndian.bytes 2 0 = [0, 0] := by decide
  have hfields : header.drop 8 = (header.drop 8).take 8 ++ ((header.drop 16).take 8 ++
      (header.drop 24).take 8) := by
    have hlast : (header.drop 24).take 8 = header.drop 24 :=
      List.take_of_length_le (by simp; omega)
    rw [hlast, show header.drop 24 = (header.drop 16).drop 8 by rw [List.drop_drop],
      List.take_append_drop, show header.drop 16 = (header.drop 8).drop 8 by rw [List.drop_drop],
      List.take_append_drop]
  have hfront : header.take 6 = header.take 4 ++ (header.drop 4).take 2 :=
    List.take_add (i := 4) (j := 2)
  rw [headerBytes, hfields, hfront, hzero]
  simp only [recordOf, ← hlen]
  rw [bytes_u32_value (by simp; omega), bytes_u16_value (by simp; omega),
    bytes_u64_value (by simp; omega), bytes_u64_value (by simp; omega),
    bytes_u64_value (by simp; omega)]
  simp only [List.append_assoc]

theorem headerBytes_recordOf_eq_iff {header payload : Bytes} (hheader : header.length = 32)
    (hlen : LittleEndian.value (header.take 4) = 40 + payload.length) :
    headerBytes (recordOf header payload) = header ↔ (header.drop 6).take 2 = [0, 0] := by
  have hcut : header = header.take 6 ++ ((header.drop 6).take 2 ++ header.drop 8) := by
    rw [show header.drop 8 = (header.drop 6).drop 2 by rw [List.drop_drop], List.take_append_drop,
      List.take_append_drop]
  rw [headerBytes_recordOf hheader hlen]
  constructor
  · intro h
    have htail := List.append_cancel_left (h.trans hcut)
    exact (List.append_inj_left htail (by simp; omega)).symm
  · intro h
    rw [← h, ← hcut]

namespace Accepted

variable {bytes header crc pcrc body : Bytes} {record : StateRecord} {consumed : Nat}

theorem length_payload (h : Accepted bytes header crc pcrc body record consumed) :
    LittleEndian.value (header.take 4) = 40 + record.payload.length := by
  have hle := h.le_len
  have hbody := h.len_le
  rw [h.record_eq]
  simp only [recordOf, List.length_take]
  omega

theorem recordOf_payload (h : Accepted bytes header crc pcrc body record consumed) :
    recordOf header record.payload = record := by
  rw [h.record_eq]
  rfl

theorem payload_eq (h : Accepted bytes header crc pcrc body record consumed) :
    record.payload = body.take record.payload.length := by
  have hlen := h.length_payload
  have hpayload : record.payload = body.take (LittleEndian.value (header.take 4) - 40) := by
    rw [h.record_eq, recordOf]
  rwa [hlen, Nat.add_sub_cancel_left] at hpayload

theorem crc_payload (h : Accepted bytes header crc pcrc body record consumed) :
    crc32c record.payload = UInt32.ofNat (LittleEndian.value pcrc) := by
  rw [h.payload_eq, ← Nat.add_sub_cancel_left (n := 40) (m := record.payload.length),
    ← h.length_payload, h.pcrc_eq]

theorem length_field_eq (h : Accepted bytes header crc pcrc body record consumed) :
    LittleEndian.value (bytes.take 4) = 40 + record.payload.length := by
  rw [← h.length_payload, ← List.drop_zero (l := bytes), h.field (by omega), List.drop_zero]

theorem take_consumed (h : Accepted bytes header crc pcrc body record consumed)
    (haligned : consumed % 8 = 0) :
    bytes.take consumed = header ++ (crc ++ (pcrc ++ (record.payload ++
      (body.drop record.payload.length).take (padding (40 + record.payload.length))))) := by
  have hlen := h.length_payload
  have hbody := h.len_le
  have hconsumed : consumed = 40 + (record.payload.length + padding (40 + record.payload.length)) := by
    have heq := h.consumed_eq
    rw [hlen] at heq
    unfold padding at heq ⊢
    omega
  have hfront : bytes.take 40 = header ++ (crc ++ pcrc) := by
    rw [h.bytes_eq, ← List.append_assoc crc, ← List.append_assoc header]
    exact List.take_left' (by simp [h.length_header, h.length_crc, h.length_pcrc])
  rw [hconsumed, List.take_add, hfront, h.drop_forty, List.take_add, ← h.payload_eq]
  simp only [List.append_assoc]

end Accepted

/-- **Canonical exactly where nothing is ignored**: a record that ends on a multiple of eight is written
back as it was read if and only if the reserved and the padding bytes were zero. -/
theorem encode_decode_iff {bytes : Bytes} {record : StateRecord} {consumed : Nat}
    (h : decode bytes = .ok (record, consumed)) (haligned : consumed % 8 = 0) :
    encode record = bytes.take consumed ↔ ZeroFill bytes := by
  obtain ⟨header, crc, pcrc, body, hok⟩ := decode_ok h
  have hpad : (bytes.drop (40 + record.payload.length)).take (padding (40 + record.payload.length)) =
      (body.drop record.payload.length).take (padding (40 + record.payload.length)) := by
    rw [← List.drop_drop, hok.drop_forty]
  have hcrc : LittleEndian.bytes 4 (crc32c header).toNat = crc := by
    rw [hok.crc_eq, bytes_u32_value hok.length_crc]
  have hpcrc : LittleEndian.bytes 4 (crc32c record.payload).toNat = pcrc := by
    rw [hok.crc_payload, bytes_u32_value hok.length_pcrc]
  have hheader : headerBytes record = header ↔ (bytes.drop 6).take 2 = [0, 0] := by
    rw [hok.field (by omega)]
    have hiff := headerBytes_recordOf_eq_iff hok.length_header hok.length_payload
    rwa [hok.recordOf_payload] at hiff
  rw [ZeroFill, hok.length_field_eq, hpad, ← hheader, encode_eq, hok.take_consumed haligned, hpcrc]
  constructor
  · intro heq
    obtain ⟨hfront, htail⟩ := List.append_inj heq (by simp [hok.length_header])
    rw [hfront, hcrc] at htail
    have hpadding := List.append_cancel_left (List.append_cancel_left
      (List.append_cancel_left htail))
    exact ⟨hfront, hpadding.symm⟩
  · rintro ⟨hfront, hpadding⟩
    rw [hfront, hcrc, hpadding, padBytes]

/-- The written bytes of a record are themselves canonical. -/
theorem encode_decode_iff_graphDelta :
    encode ⟨.graphDelta, 1, 0, 1, [7]⟩ = (encode ⟨.graphDelta, 1, 0, 1, [7]⟩ ++ [1, 2, 3]).take
        (encode ⟨.graphDelta, 1, 0, 1, [7]⟩).length ↔
      ZeroFill (encode ⟨.graphDelta, 1, 0, 1, [7]⟩ ++ [1, 2, 3]) :=
  encode_decode_iff (decode_encode ⟨.graphDelta, 1, 0, 1, [7]⟩ (by decide) [1, 2, 3])
    (length_encode_mod _)

/-! ## Padding -/

theorem getElem?_encode_padding (record : StateRecord) {i : Nat}
    (hi : 40 + record.payload.length ≤ i) (hlt : i < (encode record).length) :
    (encode record)[i]? = some 0 := by
  rw [length_encode] at hlt
  rw [encode_eq_front, List.getElem?_append_right (by simp; omega), length_frontBytes,
    List.getElem?_append_right (by omega), padBytes, List.getElem?_replicate, if_pos (by omega)]

/-- A record of one payload byte whose last padding byte is one is accepted as if it were zero. -/
theorem padding_not_canonical :
    decode ((encode ⟨.graphDelta, 1, 0, 1, [7]⟩).set 47 1) = .ok (⟨.graphDelta, 1, 0, 1, [7]⟩, 48) ∧
      48 % 8 = 0 ∧
      encode ⟨.graphDelta, 1, 0, 1, [7]⟩ ≠
        ((encode ⟨.graphDelta, 1, 0, 1, [7]⟩).set 47 1).take 48 := by
  have hlength : (encode ⟨.graphDelta, 1, 0, 1, [7]⟩).length = 48 := length_encode _
  refine ⟨?_, rfl, fun heq => ?_⟩
  · have hread := decode_set_padding ⟨.graphDelta, 1, 0, 1, [7]⟩ (by decide) 47 (by decide) 1 []
    rwa [List.append_nil, hlength] at hread
  · have hzero := getElem?_encode_padding ⟨.graphDelta, 1, 0, 1, [7]⟩ (i := 47) (by decide)
      (by rw [hlength]; decide)
    rw [heq, List.take_of_length_le (by rw [List.length_set, hlength]),
      List.getElem?_set_self (by rw [hlength]; decide)] at hzero
    exact absurd hzero (by decide)

end Forge.StateCodec
