import Forge.Base.Header

/-!
# FST-1 state records

`StateCodec` of `state_codec.cpp`. A record is a 40-byte header, the payload and zero padding up to
eight bytes; bytes `32..36` of the header hold a checksum of the 32 bytes before them, bytes `36..40`
one of the payload, and nothing covers the padding.

`encode_eq` gives the layout and `decode_layout` reads any 40 bytes or more in these terms. From the
two follow the round trip (`decode_encode`), what a cut record decodes to (`decode_take_short`,
`decode_take_padding`) and what a record with one changed byte decodes to (`decode_set_covered`,
`decode_set_padding`).
-/

namespace Forge

/-- `enum class StateRecordType : std::uint16_t`; `decode` casts any 16-bit value to it. -/
structure StateRecordType where
  value : UInt16
deriving DecidableEq, Repr

namespace StateRecordType

def txnBegin : StateRecordType := ⟨0x1000⟩
def graphDelta : StateRecordType := ⟨0x1010⟩
def inputDelta : StateRecordType := ⟨0x1011⟩
def jobDelta : StateRecordType := ⟨0x1012⟩
def txnCommit : StateRecordType := ⟨0x10F0⟩
def checkpoint : StateRecordType := ⟨0x10F1⟩

end StateRecordType

structure StateRecord where
  type : StateRecordType := .txnBegin
  txnId : UInt64 := 0
  baseSequence : UInt64 := 0
  newSequence : UInt64 := 0
  payload : Bytes := []
deriving DecidableEq, Repr

namespace StateCodec

abbrev kStateHeaderSize : Nat := 40

/-- Bytes missing from `size` to the next multiple of eight. -/
def padding (size : Nat) : Nat := (8 - size % 8) % 8

def encode (record : StateRecord) : Bytes :=
  let out := appendU32Le [] (UInt32.ofNat (kStateHeaderSize + record.payload.length))
  let out := appendU16Le out record.type.value
  let out := appendU16Le out 0
  let out := appendU64Le out record.txnId
  let out := appendU64Le out record.baseSequence
  let out := appendU64Le out record.newSequence
  let out := appendU32Le out 0
  let out := appendU32Le out (crc32c record.payload)
  let headerCrc := crc32c (out.take (kStateHeaderSize - 8))
  let out := patchHeaderCrc out headerCrc
  let out := out ++ record.payload
  -- `while (out.size() % 8 != 0) out.push_back(0)`
  out ++ List.replicate (padding out.length) 0

def formatError (message : Str) : Status := Status.error .format "state-codec" message

/-- The record at the front of `bytes` and the number of bytes `consumed`. -/
def decode (bytes : Bytes) : Result (StateRecord × Nat) :=
  if bytes.length < kStateHeaderSize then
    .error (formatError "truncated state record")
  else do
    let len ← readU32Le bytes 0
    if len.toNat < kStateHeaderSize ∨ len.toNat > bytes.length then
      .error (formatError "invalid state record length")
    else do
      let header := bytes.take kStateHeaderSize
      let expectedHeaderCrc ← readU32Le header 32
      let header := clearHeaderCrc header
      if crc32c (header.take (kStateHeaderSize - 8)) ≠ expectedHeaderCrc then
        .error (formatError "state header crc mismatch")
      else do
        let type ← readU16Le bytes 4
        let txnId ← readU64Le bytes 8
        let baseSequence ← readU64Le bytes 16
        let newSequence ← readU64Le bytes 24
        let payloadCrc ← readU32Le bytes 36
        let payload := (bytes.take len.toNat).drop kStateHeaderSize
        if crc32c payload ≠ payloadCrc then
          .error (formatError "state payload crc mismatch")
        else
          -- `while (*consumed < bytes.size() && (*consumed % 8) != 0) ++*consumed`, from `len`
          let consumed := min (len.toNat + padding len.toNat) bytes.length
          .ok (⟨⟨type⟩, txnId, baseSequence, newSequence, payload⟩, consumed)

/-! ## The layout of a record -/

/-- The 32 header bytes the header checksum covers. -/
def headerBytes (record : StateRecord) : Bytes :=
  LittleEndian.bytes 4 (UInt32.ofNat (40 + record.payload.length)).toNat ++
    (LittleEndian.bytes 2 record.type.value.toNat ++ (LittleEndian.bytes 2 0 ++
      (LittleEndian.bytes 8 record.txnId.toNat ++ (LittleEndian.bytes 8 record.baseSequence.toNat ++
        LittleEndian.bytes 8 record.newSequence.toNat))))

@[simp] theorem length_headerBytes (record : StateRecord) : (headerBytes record).length = 32 := by
  simp [headerBytes]

/-- The padding bytes of a record. -/
def padBytes (record : StateRecord) : Bytes :=
  List.replicate (padding (40 + record.payload.length)) 0

theorem encode_eq (record : StateRecord) :
    encode record = headerBytes record ++
      (LittleEndian.bytes 4 (crc32c (headerBytes record)).toNat ++
        (LittleEndian.bytes 4 (crc32c record.payload).toNat ++ (record.payload ++ padBytes record))) := by
  have hout : appendU32Le (appendU32Le (appendU64Le (appendU64Le (appendU64Le (appendU16Le
      (appendU16Le (appendU32Le [] (UInt32.ofNat (kStateHeaderSize + record.payload.length)))
        record.type.value) 0) record.txnId) record.baseSequence) record.newSequence) 0)
          (crc32c record.payload) =
      headerBytes record ++ (LittleEndian.bytes 4 (0 : UInt32).toNat ++
        (LittleEndian.bytes 4 (crc32c record.payload).toNat ++ [])) := by
    simp [appendU16Le_eq, appendU32Le_eq, appendU64Le_eq, headerBytes]
  have hcrc : ((headerBytes record ++ (LittleEndian.bytes 4 (0 : UInt32).toNat ++
      (LittleEndian.bytes 4 (crc32c record.payload).toNat ++ []))).take (kStateHeaderSize - 8)) =
      headerBytes record := List.take_left' (length_headerBytes record)
  simp only [encode, hout, hcrc, patchHeaderCrc_eq _ _ _ _ (length_headerBytes record)]
  have hlen : 32 + (4 + (4 + record.payload.length)) = 40 + record.payload.length := by omega
  simp [padBytes, hlen]

/-! ## Decoding in terms of the layout -/

/-- The record whose 32 covered header bytes are `header`. -/
def recordOf (header payload : Bytes) : StateRecord where
  type := ⟨UInt16.ofNat (LittleEndian.value ((header.drop 4).take 2))⟩
  txnId := UInt64.ofNat (LittleEndian.value ((header.drop 8).take 8))
  baseSequence := UInt64.ofNat (LittleEndian.value ((header.drop 16).take 8))
  newSequence := UInt64.ofNat (LittleEndian.value ((header.drop 24).take 8))
  payload := payload

theorem decode_short {bytes : Bytes} (h : bytes.length < 40) :
    decode bytes = .error (formatError "truncated state record") := if_pos h

/-- What `decode` makes of any 40 bytes or more: `header` is what the header checksum covers, `crc`
and `pcrc` are the two stored checksums and `body` is the rest of the input. -/
theorem decode_layout (header crc pcrc body : Bytes) (hheader : header.length = 32)
    (hcrc : crc.length = 4) (hpcrc : pcrc.length = 4) :
    decode (header ++ (crc ++ (pcrc ++ body))) =
      let len := LittleEndian.value (header.take 4)
      if len < 40 ∨ len > 40 + body.length then
        .error (formatError "invalid state record length")
      else if crc32c header ≠ UInt32.ofNat (LittleEndian.value crc) then
        .error (formatError "state header crc mismatch")
      else if crc32c (body.take (len - 40)) ≠ UInt32.ofNat (LittleEndian.value pcrc) then
        .error (formatError "state payload crc mismatch")
      else
        .ok (recordOf header (body.take (len - 40)), min (len + padding len) (40 + body.length)) := by
  have hs : HeaderSplit (header ++ (crc ++ (pcrc ++ body))) header crc pcrc body :=
    ⟨rfl, hheader, hcrc, hpcrc⟩
  have hlength := hs.length_bytes
  have hcover : (clearHeaderCrc ((header ++ (crc ++ (pcrc ++ body))).take kStateHeaderSize)).take
      (kStateHeaderSize - 8) = header := hs.cover
  rw [decode, if_neg (by rw [hlength]; simp), hs.readU32Le (by omega), List.drop_zero]
  simp only [bind, Except.bind]
  rw [hs.length_field_toNat, hlength, hs.read_crc, hs.readU16Le (by omega), hs.readU64Le (by omega),
    hs.readU64Le (by omega), hs.readU64Le (by omega), hs.read_pcrc, hs.take_drop]
  simp only [hcover]
  rfl

/-- What `decode` accepts, read backwards: the layout of the accepted bytes. -/
structure Accepted (bytes header crc pcrc body : Bytes) (record : StateRecord) (consumed : Nat) :
    Prop extends HeaderSplit bytes header crc pcrc body where
  le_len : 40 ≤ LittleEndian.value (header.take 4)
  len_le : LittleEndian.value (header.take 4) ≤ 40 + body.length
  crc_eq : crc32c header = UInt32.ofNat (LittleEndian.value crc)
  pcrc_eq : crc32c (body.take (LittleEndian.value (header.take 4) - 40)) =
    UInt32.ofNat (LittleEndian.value pcrc)
  record_eq : record = recordOf header (body.take (LittleEndian.value (header.take 4) - 40))
  consumed_eq : consumed = min (LittleEndian.value (header.take 4) +
    padding (LittleEndian.value (header.take 4))) (40 + body.length)

theorem decode_ok {bytes : Bytes} {record : StateRecord} {consumed : Nat}
    (h : decode bytes = .ok (record, consumed)) :
    ∃ header crc pcrc body, Accepted bytes header crc pcrc body record consumed := by
  rcases Nat.lt_or_ge bytes.length 40 with hshort | hlong
  · rw [decode_short hshort] at h
    cases h
  · obtain ⟨header, crc, pcrc, body, hs⟩ := exists_headerSplit hlong
    rw [hs.bytes_eq, decode_layout _ _ _ _ hs.length_header hs.length_crc hs.length_pcrc] at h
    dsimp only at h
    split_ifs at h with hlen hheaderCrc hpayloadCrc
    obtain ⟨hrecord, hconsumed⟩ := Prod.ext_iff.mp (Except.ok.inj h)
    exact ⟨_, _, _, _, hs, by omega, by omega, not_not.mp hheaderCrc, not_not.mp hpayloadCrc,
      hrecord.symm, hconsumed.symm⟩

theorem decode_consumed {bytes : Bytes} {record : StateRecord} {consumed : Nat}
    (h : decode bytes = .ok (record, consumed)) : 0 < consumed ∧ consumed ≤ bytes.length := by
  obtain ⟨header, crc, pcrc, body, hok⟩ := decode_ok h
  have hlen := hok.length_bytes
  have hle := hok.le_len
  have hconsumed := hok.consumed_eq
  omega

theorem decode_append {bytes : Bytes} {record : StateRecord} {consumed : Nat}
    (h : decode bytes = .ok (record, consumed)) (rest : Bytes) :
    ∃ consumed', decode (bytes ++ rest) = .ok (record, consumed') ∧
      (consumed' = consumed ∨ consumed = bytes.length) := by
  -- the padding skipped may change, and only where the record is the last one
  obtain ⟨header, crc, pcrc, body, hok⟩ := decode_ok h
  have hlen := hok.length_bytes
  have hle := hok.le_len
  have hbody := hok.len_le
  have hconsumed := hok.consumed_eq
  have hsplit : bytes ++ rest = header ++ (crc ++ (pcrc ++ (body ++ rest))) := by
    simp [hok.bytes_eq]
  refine ⟨min (LittleEndian.value (header.take 4) + padding (LittleEndian.value (header.take 4)))
    (40 + (body ++ rest).length), ?_, ?_⟩
  · rw [hsplit, decode_layout _ _ _ _ hok.length_header hok.length_crc hok.length_pcrc]
    dsimp only
    rw [List.take_append_of_le_length (by omega), if_neg (by rw [List.length_append]; omega),
      if_neg (not_not.mpr hok.crc_eq), if_neg (not_not.mpr hok.pcrc_eq), hok.record_eq]
  · rw [List.length_append]
    omega

/-! ## Records the encoder can write -/

/-- The length field of the record does not overflow its 32 bits. -/
def Fits (record : StateRecord) : Prop := 40 + record.payload.length < 2 ^ 32

instance (record : StateRecord) : Decidable (Fits record) := inferInstanceAs (Decidable (_ < _))

theorem decode_fits {bytes : Bytes} {record : StateRecord} {consumed : Nat}
    (h : decode bytes = .ok (record, consumed)) : Fits record := by
  obtain ⟨header, crc, pcrc, body, hok⟩ := decode_ok h
  have hvalue := LittleEndian.value_lt (header.take 4)
  rw [List.length_take_of_le (by rw [hok.length_header]; omega)] at hvalue
  have hle := hok.le_len
  rw [Fits, hok.record_eq]
  simp only [recordOf, List.length_take]
  omega

/-- The bytes of a record before its payload. -/
def frontBytes (record : StateRecord) : Bytes :=
  headerBytes record ++ (LittleEndian.bytes 4 (crc32c (headerBytes record)).toNat ++
    LittleEndian.bytes 4 (crc32c record.payload).toNat)

@[simp] theorem length_frontBytes (record : StateRecord) : (frontBytes record).length = 40 := by
  simp [frontBytes]

theorem encode_eq_front (record : StateRecord) :
    encode record = frontBytes record ++ (record.payload ++ padBytes record) := by
  simp [encode_eq, frontBytes]

theorem length_encode (record : StateRecord) :
    (encode record).length =
      40 + record.payload.length + padding (40 + record.payload.length) := by
  simp [encode_eq_front, padBytes, Nat.add_assoc]

theorem length_encode_mod (record : StateRecord) : (encode record).length % 8 = 0 := by
  rw [length_encode, padding]
  omega

theorem length_field (record : StateRecord) (hfit : Fits record) :
    LittleEndian.value ((headerBytes record).take 4) = 40 + record.payload.length := by
  rw [headerBytes, List.take_left' (LittleEndian.length_bytes 4 _), LittleEndian.value_bytes,
    UInt32.toNat_ofNat', Nat.mod_eq_of_lt hfit]
  exact Nat.mod_eq_of_lt hfit

theorem recordOf_headerBytes (record : StateRecord) (payload : Bytes) :
    recordOf (headerBytes record) payload = { record with payload } := by
  simp [recordOf, headerBytes, List.drop_append, List.drop_of_length_le,
    List.take_of_length_le, value_u16_bytes, value_u64_bytes]

theorem decode_front (record : StateRecord) (hfit : Fits record) (body : Bytes) :
    decode (frontBytes record ++ body) =
      if body.length < record.payload.length then
        .error (formatError "invalid state record length")
      else if crc32c (body.take record.payload.length) ≠ crc32c record.payload then
        .error (formatError "state payload crc mismatch")
      else
        .ok ({ record with payload := body.take record.payload.length },
          min (encode record).length (40 + body.length)) := by
  rw [frontBytes, List.append_assoc, List.append_assoc,
    decode_layout _ _ _ _ (length_headerBytes record) (LittleEndian.length_bytes 4 _)
      (LittleEndian.length_bytes 4 _)]
  simp only [length_field record hfit, value_u32_bytes, recordOf_headerBytes, length_encode,
    Nat.add_sub_cancel_left]
  by_cases hshort : body.length < record.payload.length
  · rw [if_pos (Or.inr (by omega)), if_pos hshort]
  · rw [if_neg (by omega), if_neg hshort, if_neg (by simp)]

/-- **Round trip**: a record is read back from the front of any bytes that start with it. -/
theorem decode_encode (record : StateRecord) (hfit : Fits record) (rest : Bytes) :
    decode (encode record ++ rest) = .ok (record, (encode record).length) := by
  rw [encode_eq_front, List.append_assoc, List.append_assoc, decode_front record hfit,
    if_neg (by simp), if_neg (by simp)]
  simp [padBytes, length_encode]
  omega

theorem decode_take_short (record : StateRecord) (hfit : Fits record) (n : Nat)
    (hn : n < 40 + record.payload.length) : ∃ status, decode ((encode record).take n) = .error status := by
  rcases Nat.lt_or_ge n 40 with hshort | hlong
  · exact ⟨_, decode_short (by rw [List.length_take]; omega)⟩
  · rw [encode_eq_front, List.take_append, List.take_of_length_le (by simpa using hlong),
      length_frontBytes, decode_front record hfit, if_pos (by simp; omega)]
    exact ⟨_, rfl⟩

theorem decode_take_padding (record : StateRecord) (hfit : Fits record) (n : Nat)
    (hn : 40 + record.payload.length ≤ n) (hle : n ≤ (encode record).length) :
    decode ((encode record).take n) = .ok (record, n) := by
  have hbody : ((record.payload ++ padBytes record).take (n - 40)).take record.payload.length =
      record.payload := by
    rw [List.take_take, Nat.min_eq_left (by omega), List.take_left']
    rfl
  have hlen : ((record.payload ++ padBytes record).take (n - 40)).length = n - 40 := by
    rw [List.length_take_of_le]
    simp only [encode_eq_front, List.length_append, length_frontBytes] at hle
    simp only [List.length_append]
    omega
  rw [encode_eq_front, List.take_append, List.take_of_length_le (by simp; omega),
    length_frontBytes, decode_front record hfit, hbody, hlen, if_neg (by omega),
    if_neg (by simp), show 40 + (n - 40) = n by omega, Nat.min_eq_right hle]

/-! ## One changed byte -/

theorem decode_header_mismatch (header crc pcrc body : Bytes) (hheader : header.length = 32)
    (hcrc : crc.length = 4) (hpcrc : pcrc.length = 4)
    (h : crc32c header ≠ UInt32.ofNat (LittleEndian.value crc)) :
    ∃ status, decode (header ++ (crc ++ (pcrc ++ body))) = .error status := by
  rw [decode_layout header crc pcrc body hheader hcrc hpcrc]
  simp only [if_pos h]
  split
  · exact ⟨_, rfl⟩
  · exact ⟨_, rfl⟩

theorem decode_set_covered (record : StateRecord) (hfit : Fits record) (i : Nat)
    (hi : i < 40 + record.payload.length) {v : Byte} (hv : (encode record)[i]? ≠ some v)
    (rest : Bytes) : ∃ status, decode ((encode record).set i v ++ rest) = .error status := by
  -- the length check fails, or one of the two checksums differs from what is stored
  have hH := length_headerBytes record
  rcases Nat.lt_or_ge i 32 with h32 | h32
  · -- in the covered header bytes
    rw [encode_eq, List.getElem?_append_left (by omega)] at hv
    rw [encode_eq, List.set_append_left _ _ (by omega)]
    simp only [List.append_assoc]
    refine decode_header_mismatch _ _ _ _ (by simp) (by simp) (by simp) ?_
    rw [value_u32_bytes]
    simpa using crc32c_set_ne _ _ (by omega) hv [] []
  rw [encode_eq, List.set_append_right _ _ (by omega), hH]
  rw [encode_eq, List.getElem?_append_right (by omega), hH] at hv
  rcases Nat.lt_or_ge i 36 with h36 | h36
  · -- in the stored header checksum
    rw [List.getElem?_append_left (by simp; omega)] at hv
    rw [List.set_append_left _ _ (by simp; omega)]
    simp only [List.append_assoc]
    exact decode_header_mismatch _ _ _ _ hH (by simp) (by simp) (ofNat_value_set_ne _ (by omega) hv)
  rw [List.set_append_right _ _ (by simp; omega), LittleEndian.length_bytes]
  rw [List.getElem?_append_right (by simp; omega), LittleEndian.length_bytes] at hv
  have hlen := length_field record hfit
  rcases Nat.lt_or_ge i 40 with h40 | h40
  · -- in the stored payload checksum
    rw [List.getElem?_append_left (by simp; omega)] at hv
    rw [List.set_append_left _ _ (by simp; omega)]
    simp only [List.append_assoc]
    rw [decode_layout _ _ _ _ hH (by simp) (by simp), hlen]
    simp only [value_u32_bytes, Nat.add_sub_cancel_left, List.take_left]
    rw [if_neg (by simp), if_neg (by simp), if_pos (ofNat_value_set_ne _ (by omega) hv)]
    exact ⟨_, rfl⟩
  · -- in the payload
    rw [List.getElem?_append_right (by simp; omega), LittleEndian.length_bytes,
      List.getElem?_append_left (by omega)] at hv
    rw [List.set_append_right _ _ (by simp; omega), LittleEndian.length_bytes,
      List.set_append_left _ _ (by omega)]
    simp only [List.append_assoc]
    rw [decode_layout _ _ _ _ hH (by simp) (by simp), hlen]
    simp only [value_u32_bytes, Nat.add_sub_cancel_left]
    rw [if_neg (by simp), if_neg (by simp), List.take_left' (by simp), if_pos]
    · exact ⟨_, rfl⟩
    · simpa using crc32c_set_ne _ _ (by omega) hv [] []

theorem decode_set_padding (record : StateRecord) (hfit : Fits record) (i : Nat)
    (hi : 40 + record.payload.length ≤ i) (v : Byte) (rest : Bytes) :
    decode ((encode record).set i v ++ rest) = .ok (record, (encode record).length) := by
  -- no checksum covers the padding
  rw [encode_eq_front, List.set_append_right _ _ (by simp; omega), length_frontBytes,
    List.set_append_right _ _ (by omega), List.append_assoc, List.append_assoc,
    decode_front record hfit, if_neg (by simp), if_neg (by simp)]
  simp [padBytes, length_encode]
  omega

-- Sealed: the replay is proved from the facts above, whatever the layout is.
attribute [irreducible] encode decode

end StateCodec

end Forge
