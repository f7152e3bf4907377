import Forge.Base.Checked

/-!
# The common header

Wire frames and state records start with forty bytes of one shape: 32 bytes that a checksum covers,
that checksum, and a checksum of the payload behind them. `HeaderSplit` cuts any forty bytes or more
there, and its lemmas say what the readers return in these terms.
-/

namespace Forge

/-! ## Definitions -/

/-- The four assignments `out[32] = ..; out[33] = ..; out[34] = ..; out[35] = ..`. -/
def patchHeaderCrc (out : Bytes) (headerCrc : UInt32) : Bytes :=
  (((out.set 32 (headerCrc &&& 0xff).toUInt8).set 33 ((headerCrc >>> 8) &&& 0xff).toUInt8).set 34
    ((headerCrc >>> 16) &&& 0xff).toUInt8).set 35 ((headerCrc >>> 24) &&& 0xff).toUInt8

/-- `header[32] = header[33] = header[34] = header[35] = 0`. -/
def clearHeaderCrc (header : Bytes) : Bytes :=
  (((header.set 32 0).set 33 0).set 34 0).set 35 0

/-! ## Writing -/

theorem u32_bytes_eq (v : UInt32) :
    LittleEndian.bytes 4 v.toNat = [(v &&& 0xff).toUInt8, ((v >>> 8) &&& 0xff).toUInt8,
      ((v >>> 16) &&& 0xff).toUInt8, ((v >>> 24) &&& 0xff).toUInt8] :=
  (appendU32Le_eq [] v).symm

theorem patchHeaderCrc_eq (header rest : Bytes) (v w : UInt32) (h : header.length = 32) :
    patchHeaderCrc (header ++ (LittleEndian.bytes 4 w.toNat ++ rest)) v =
      header ++ (LittleEndian.bytes 4 v.toNat ++ rest) := by
  rw [u32_bytes_eq, u32_bytes_eq, patchHeaderCrc]
  simp [h]

theorem value_u16_bytes (v : UInt16) : UInt16.ofNat (LittleEndian.value (LittleEndian.bytes 2 v.toNat)) = v := by
  have hv : v.toNat < 256 ^ 2 := v.toNat_lt
  rw [LittleEndian.value_bytes, Nat.mod_eq_of_lt hv, UInt16.ofNat_toNat]

theorem value_u32_bytes (v : UInt32) : UInt32.ofNat (LittleEndian.value (LittleEndian.bytes 4 v.toNat)) = v := by
  have hv : v.toNat < 256 ^ 4 := v.toNat_lt
  rw [LittleEndian.value_bytes, Nat.mod_eq_of_lt hv, UInt32.ofNat_toNat]

theorem value_u64_bytes (v : UInt64) : UInt64.ofNat (LittleEndian.value (LittleEndian.bytes 8 v.toNat)) = v := by
  have hv : v.toNat < 256 ^ 8 := v.toNat_lt
  rw [LittleEndian.value_bytes, Nat.mod_eq_of_lt hv, UInt64.ofNat_toNat]

theorem bytes_u16_value {bs : Bytes} (h : bs.length = 2) :
    LittleEndian.bytes 2 (UInt16.ofNat (LittleEndian.value bs)).toNat = bs := by
  have hlt : LittleEndian.value bs < 256 ^ 2 := by
    simpa [h] using LittleEndian.value_lt bs
  rw [UInt16.toNat_ofNat', show 2 ^ 16 = 256 ^ 2 by norm_num, Nat.mod_eq_of_lt hlt, ← h,
    LittleEndian.bytes_value]

theorem bytes_u32_value {bs : Bytes} (h : bs.length = 4) :
    LittleEndian.bytes 4 (UInt32.ofNat (LittleEndian.value bs)).toNat = bs := by
  have hlt : LittleEndian.value bs < 256 ^ 4 := by
    simpa [h] using LittleEndian.value_lt bs
  rw [UInt32.toNat_ofNat', show 2 ^ 32 = 256 ^ 4 by norm_num, Nat.mod_eq_of_lt hlt, ← h,
    LittleEndian.bytes_value]

theorem bytes_u64_value {bs : Bytes} (h : bs.length = 8) :
    LittleEndian.bytes 8 (UInt64.ofNat (LittleEndian.value bs)).toNat = bs := by
  have hlt : LittleEndian.value bs < 256 ^ 8 := by
    simpa [h] using LittleEndian.value_lt bs
  rw [UInt64.toNat_ofNat', show 2 ^ 64 = 256 ^ 8 by norm_num, Nat.mod_eq_of_lt hlt, ← h,
    LittleEndian.bytes_value]

/-! ## Reading -/

theorem ofNat_value_set_ne (w : UInt32) {j : Nat} (hj : j < 4) {v : Byte}
    (hne : (LittleEndian.bytes 4 w.toNat)[j]? ≠ some v) :
    w ≠ UInt32.ofNat (LittleEndian.value ((LittleEndian.bytes 4 w.toNat).set j v)) := by
  intro heq
  have hlt := LittleEndian.value_lt ((LittleEndian.bytes 4 w.toNat).set j v)
  rw [List.length_set, LittleEndian.length_bytes] at hlt
  have hval : LittleEndian.value ((LittleEndian.bytes 4 w.toNat).set j v) =
      LittleEndian.value (LittleEndian.bytes 4 w.toNat) := by
    have hnat := congrArg UInt32.toNat heq
    rw [UInt32.toNat_ofNat'] at hnat
    rw [LittleEndian.value_bytes, Nat.mod_eq_of_lt (show w.toNat < 256 ^ 4 from w.toNat_lt)]
    exact (Nat.mod_eq_of_lt hlt).symm.trans hnat.symm
  have hsame := LittleEndian.value_inj (by simp) hval
  rw [← hsame] at hne
  simp [hj] at hne

theorem take_clearHeaderCrc (header : Bytes) : (clearHeaderCrc header).take 32 = header.take 32 := by
  simp [clearHeaderCrc, List.take_set_of_le]

/-- `bytes` is the covered `header`, the two stored checksums and the `body` behind them. -/
structure HeaderSplit (bytes header crc pcrc body : Bytes) : Prop where
  bytes_eq : bytes = header ++ (crc ++ (pcrc ++ body))
  length_header : header.length = 32
  length_crc : crc.length = 4
  length_pcrc : pcrc.length = 4

theorem exists_headerSplit {bytes : Bytes} (h : 40 ≤ bytes.length) :
    ∃ header crc pcrc body, HeaderSplit bytes header crc pcrc body := by
  refine ⟨bytes.take 32, (bytes.drop 32).take 4, (bytes.drop 36).take 4, bytes.drop 40, ?_, ?_, ?_, ?_⟩
  · rw [show bytes.drop 40 = (bytes.drop 36).drop 4 by rw [List.drop_drop], List.take_append_drop,
      show bytes.drop 36 = (bytes.drop 32).drop 4 by rw [List.drop_drop], List.take_append_drop,
      List.take_append_drop]
  · simp; omega
  · simp; omega
  · simp; omega

namespace HeaderSplit

variable {bytes header crc pcrc body : Bytes}

theorem length_bytes (h : HeaderSplit bytes header crc pcrc body) :
    bytes.length = 40 + body.length := by
  simp [h.bytes_eq, h.length_header, h.length_crc, h.length_pcrc]
  omega

theorem field (h : HeaderSplit bytes header crc pcrc body) {offset w : Nat} (hw : offset + w ≤ 32) :
    (bytes.drop offset).take w = (header.drop offset).take w := by
  have hheader := h.length_header
  rw [h.bytes_eq, List.drop_append_of_le_length (by omega),
    List.take_append_of_le_length (by simp; omega)]

theorem readU16Le (h : HeaderSplit bytes header crc pcrc body) {offset : Nat} (hw : offset + 2 ≤ 32) :
    readU16Le bytes offset =
      .ok (UInt16.ofNat (LittleEndian.value ((header.drop offset).take 2))) := by
  rw [readU16Le_eq _ _ (by rw [h.length_bytes]; omega), h.field hw]

theorem readU32Le (h : HeaderSplit bytes header crc pcrc body) {offset : Nat} (hw : offset + 4 ≤ 32) :
    readU32Le bytes offset =
      .ok (UInt32.ofNat (LittleEndian.value ((header.drop offset).take 4))) := by
  rw [readU32Le_eq _ _ (by rw [h.length_bytes]; omega), h.field hw]

theorem readU64Le (h : HeaderSplit bytes header crc pcrc body) {offset : Nat} (hw : offset + 8 ≤ 32) :
    readU64Le bytes offset =
      .ok (UInt64.ofNat (LittleEndian.value ((header.drop offset).take 8))) := by
  rw [readU64Le_eq _ _ (by rw [h.length_bytes]; omega), h.field hw]

theorem read_crc (h : HeaderSplit bytes header crc pcrc body) :
    Forge.readU32Le (bytes.take 40) 32 = .ok (UInt32.ofNat (LittleEndian.value crc)) := by
  have hstored : ((bytes.take 40).drop 32).take 4 = crc := by
    simp [h.bytes_eq, List.take_append, h.length_header, h.length_crc, h.length_pcrc]
  rw [readU32Le_eq _ _ (by rw [List.length_take, h.length_bytes]; omega), hstored]

theorem read_pcrc (h : HeaderSplit bytes header crc pcrc body) :
    Forge.readU32Le bytes 36 = .ok (UInt32.ofNat (LittleEndian.value pcrc)) := by
  have hstored : (bytes.drop 36).take 4 = pcrc := by
    simp [h.bytes_eq, List.drop_append, List.drop_of_length_le, h.length_header, h.length_crc,
      h.length_pcrc]
  rw [readU32Le_eq _ _ (by rw [h.length_bytes]; omega), hstored]

theorem cover (h : HeaderSplit bytes header crc pcrc body) :
    (clearHeaderCrc (bytes.take 40)).take 32 = header := by
  rw [take_clearHeaderCrc, List.take_take, h.bytes_eq]
  exact List.take_left' h.length_header

theorem take_drop (h : HeaderSplit bytes header crc pcrc body) (n : Nat) :
    (bytes.take n).drop 40 = body.take (n - 40) := by
  rw [List.drop_take]
  simp [h.bytes_eq, List.drop_append, List.drop_of_length_le, h.length_header, h.length_crc,
    h.length_pcrc]

theorem drop_forty (h : HeaderSplit bytes header crc pcrc body) : bytes.drop 40 = body := by
  simp [h.bytes_eq, List.drop_append, List.drop_of_length_le, h.length_header, h.length_crc,
    h.length_pcrc]

theorem length_field_toNat (h : HeaderSplit bytes header crc pcrc body) :
    (UInt32.ofNat (LittleEndian.value (header.take 4))).toNat = LittleEndian.value (header.take 4) := by
  have hlt := LittleEndian.value_lt (header.take 4)
  rw [List.length_take_of_le (by rw [h.length_header]; omega)] at hlt
  exact (UInt32.toNat_ofNat' ..).trans (Nat.mod_eq_of_lt hlt)

end HeaderSplit

end Forge
