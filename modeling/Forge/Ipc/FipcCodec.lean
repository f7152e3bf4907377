import Forge.Base.Header
import Forge.Lib.Incremental

/-!
# FIPC frames

`FipcCodec` of `fipc_codec.cpp`. A frame is a 40-byte header and the payload: bytes `32..36` of the
header hold a checksum of the 32 bytes before them, bytes `36..40` one of the payload. The decoder keeps
the bytes of an unfinished frame and closes at the first malformed one.

`parse` is the part of `feed` behind its guards. `parse_layout` reads any 40 bytes or more in terms of
the layout; from it follow that `parse` is an incremental decoder and that a frame comes from exactly
the bytes `encode` makes of it.
-/

namespace Forge

open Incremental (Front Decoder)

/-- `enum class FrameType : std::uint16_t`; the decoder casts any 16-bit value to it. -/
structure FrameType where
  value : UInt16
deriving DecidableEq, Repr

namespace FrameType

def hello : FrameType := ⟨0x0001⟩
def welcome : FrameType := ⟨0x0002⟩
def openStream : FrameType := ⟨0x0010⟩
def credit : FrameType := ⟨0x0011⟩
def closeStream : FrameType := ⟨0x0012⟩
def buildRequest : FrameType := ⟨0x0030⟩
def cancelRequest : FrameType := ⟨0x0031⟩
def statusEvent : FrameType := ⟨0x0040⟩

end FrameType

structure FipcFrame where
  type : FrameType := .hello
  flags : UInt16 := 0
  streamId : UInt32 := 0
  streamGeneration : UInt32 := 0
  sequence : UInt64 := 0
  requestToken : UInt64 := 0
  payload : Bytes := []
deriving DecidableEq, Repr

/-- `DecodeResult`, with the frame and the diagnostic where the state has one. -/
inductive DecodeResult
  | needMore
  | frame (frame : FipcFrame)
  | closed (diagnostic : Status)
deriving DecidableEq

structure FipcCodec where
  limits : Limits := {}
  buffer : Bytes := []
  closed : Bool := false

namespace FipcCodec

abbrev kFrameHeaderSize : Nat := 40

def protocolError (message : Str) : Status := Status.error .protocol "fipc" message

def encode (frame : FipcFrame) : Bytes :=
  let frameLen := UInt32.ofNat (kFrameHeaderSize + frame.payload.length)
  let out := appendU32Le [] frameLen
  let out := appendU16Le out frame.type.value
  let out := appendU16Le out frame.flags
  let out := appendU32Le out frame.streamId
  let out := appendU32Le out frame.streamGeneration
  let out := appendU64Le out frame.sequence
  let out := appendU64Le out frame.requestToken
  let out := appendU32Le out 0
  let out := appendU32Le out (crc32c frame.payload)
  let headerCrc := crc32c (out.take (kFrameHeaderSize - 8))
  let out := patchHeaderCrc out headerCrc
  out ++ frame.payload

/-- The checks of `feed` on the `frameLen` bytes of a complete frame. The readers' `.value()` finds a
value each time: there are forty bytes. -/
def readFrame (limits : Limits) (buffer : Bytes) (frameLen : Nat) : Result FipcFrame := do
  let header := buffer.take kFrameHeaderSize
  let expectedHeaderCrc ← readU32Le header 32
  let header := clearHeaderCrc header
  if crc32c (header.take (kFrameHeaderSize - 8)) ≠ expectedHeaderCrc then
    .error (protocolError "header crc mismatch")
  else do
    let type ← readU16Le buffer 4
    let flags ← readU16Le buffer 6
    let streamId ← readU32Le buffer 8
    let streamGeneration ← readU32Le buffer 12
    let sequence ← readU64Le buffer 16
    let requestToken ← readU64Le buffer 24
    let payloadCrc ← readU32Le buffer 36
    let payload := (buffer.take frameLen).drop kFrameHeaderSize
    if payload.length > limits.maxPayloadBytes.toNat ∨ crc32c payload ≠ payloadCrc then
      .error (protocolError "payload crc mismatch")
    else
      .ok ⟨⟨type⟩, flags, streamId, streamGeneration, sequence, requestToken, payload⟩

/-- The front of the buffer, as `feed` reads it once the new bytes are in. -/
def parse (limits : Limits) (buffer : Bytes) : Front Byte FipcFrame Status :=
  if buffer.length < kFrameHeaderSize then
    .more
  else match readU32Le buffer 0 with
    | .error _ => .more
    | .ok frameLen =>
      if frameLen.toNat < kFrameHeaderSize ∨ frameLen > limits.maxFrameBytes then
        .bad (protocolError "invalid frame length")
      else if buffer.length < frameLen.toNat then
        .more
      else match readFrame limits buffer frameLen.toNat with
        | .error diagnostic => .bad diagnostic
        | .ok frame => .frame frame (buffer.drop frameLen.toNat)

def feed (codec : FipcCodec) (data : Bytes) : DecodeResult × FipcCodec :=
  let msa := codec.limits.maxSingleAllocation.toNat
  if codec.closed then
    (.closed (protocolError "session already closed"), codec)
  else if data.length > msa ∨ codec.buffer.length > msa - data.length then
    (.closed (protocolError "connection buffer limit exceeded"), { codec with closed := true })
  else
    let buffer := codec.buffer ++ data
    match parse codec.limits buffer with
    | .more => (.needMore, { codec with buffer })
    | .bad diagnostic => (.closed diagnostic, { codec with buffer, closed := true })
    | .frame frame rest => (.frame frame, { codec with buffer := rest })

/-! ## The layout of a frame -/

/-- The 32 header bytes the header checksum covers. -/
def headerBytes (frame : FipcFrame) : Bytes :=
  LittleEndian.bytes 4 (UInt32.ofNat (40 + frame.payload.length)).toNat ++
    (LittleEndian.bytes 2 frame.type.value.toNat ++ (LittleEndian.bytes 2 frame.flags.toNat ++
      (LittleEndian.bytes 4 frame.streamId.toNat ++ (LittleEndian.bytes 4 frame.streamGeneration.toNat ++
        (LittleEndian.bytes 8 frame.sequence.toNat ++ LittleEndian.bytes 8 frame.requestToken.toNat)))))

@[simp] theorem length_headerBytes (frame : FipcFrame) : (headerBytes frame).length = 32 := by
  simp [headerBytes]

theorem encode_eq (frame : FipcFrame) :
    encode frame = headerBytes frame ++
      (LittleEndian.bytes 4 (crc32c (headerBytes frame)).toNat ++
        (LittleEndian.bytes 4 (crc32c frame.payload).toNat ++ frame.payload)) := by
  have hout : appendU32Le (appendU32Le (appendU64Le (appendU64Le (appendU32Le (appendU32Le (appendU16Le
      (appendU16Le (appendU32Le [] (UInt32.ofNat (kFrameHeaderSize + frame.payload.length)))
        frame.type.value) frame.flags) frame.streamId) frame.streamGeneration) frame.sequence)
          frame.requestToken) 0) (crc32c frame.payload) =
      headerBytes frame ++ (LittleEndian.bytes 4 (0 : UInt32).toNat ++
        (LittleEndian.bytes 4 (crc32c frame.payload).toNat ++ [])) := by
    simp [appendU16Le_eq, appendU32Le_eq, appendU64Le_eq, headerBytes]
  have hcrc : ((headerBytes frame ++ (LittleEndian.bytes 4 (0 : UInt32).toNat ++
      (LittleEndian.bytes 4 (crc32c frame.payload).toNat ++ []))).take (kFrameHeaderSize - 8)) =
      headerBytes frame := List.take_left' (length_headerBytes frame)
  simp only [encode, hout, hcrc, patchHeaderCrc_eq _ _ _ _ (length_headerBytes frame)]
  simp

theorem length_encode (frame : FipcFrame) : (encode frame).length = 40 + frame.payload.length := by
  simp [encode_eq]
  omega

/-- The frame whose 32 covered header bytes are `header`. -/
def frameOf (header payload : Bytes) : FipcFrame where
  type := ⟨UInt16.ofNat (LittleEndian.value ((header.drop 4).take 2))⟩
  flags := UInt16.ofNat (LittleEndian.value ((header.drop 6).take 2))
  streamId := UInt32.ofNat (LittleEndian.value ((header.drop 8).take 4))
  streamGeneration := UInt32.ofNat (LittleEndian.value ((header.drop 12).take 4))
  sequence := UInt64.ofNat (LittleEndian.value ((header.drop 16).take 8))
  requestToken := UInt64.ofNat (LittleEndian.value ((header.drop 24).take 8))
  payload := payload

/-! ## Parsing in terms of the layout -/

variable {limits : Limits}

theorem parse_short {buffer : Bytes} (h : buffer.length < 40) : parse limits buffer = .more := if_pos h

theorem parse_nil : parse limits [] = .more := parse_short (by simp)

theorem parse_layout {buffer header crc pcrc body : Bytes}
    (h : HeaderSplit buffer header crc pcrc body) :
    parse limits buffer =
      let len := LittleEndian.value (header.take 4)
      let payload := body.take (len - 40)
      if len < 40 ∨ len > limits.maxFrameBytes.toNat then
        .bad (protocolError "invalid frame length")
      else if 40 + body.length < len then
        .more
      else if crc32c header ≠ UInt32.ofNat (LittleEndian.value crc) then
        .bad (protocolError "header crc mismatch")
      else if payload.length > limits.maxPayloadBytes.toNat ∨
          crc32c payload ≠ UInt32.ofNat (LittleEndian.value pcrc) then
        .bad (protocolError "payload crc mismatch")
      else
        .frame (frameOf header payload) (body.drop (len - 40)) := by
  have hlength := h.length_bytes
  have hcover : (clearHeaderCrc (buffer.take kFrameHeaderSize)).take (kFrameHeaderSize - 8) = header :=
    h.cover
  have hcrc : readU32Le (buffer.take kFrameHeaderSize) 32 = .ok (UInt32.ofNat (LittleEndian.value crc)) :=
    h.read_crc
  have hread (n : Nat) : readFrame limits buffer n =
      if crc32c header ≠ UInt32.ofNat (LittleEndian.value crc) then
        .error (protocolError "header crc mismatch")
      else if (body.take (n - 40)).length > limits.maxPayloadBytes.toNat ∨
          crc32c (body.take (n - 40)) ≠ UInt32.ofNat (LittleEndian.value pcrc) then
        .error (protocolError "payload crc mismatch")
      else
        .ok (frameOf header (body.take (n - 40))) := by
    rw [readFrame, hcrc]
    simp only [bind, Except.bind]
    rw [hcover, h.readU16Le (by omega), h.readU16Le (by omega), h.readU32Le (by omega),
      h.readU32Le (by omega), h.readU64Le (by omega), h.readU64Le (by omega), h.read_pcrc, h.take_drop]
    rfl
  rw [parse, if_neg (by rw [hlength]; simp), h.readU32Le (by omega), List.drop_zero]
  simp only [hread, UInt32.lt_iff_toNat_lt, gt_iff_lt, h.length_field_toNat, hlength, kFrameHeaderSize]
  have hdrop (n : Nat) (hn : 40 ≤ n) : buffer.drop n = body.drop (n - 40) := by
    obtain ⟨m, rfl⟩ := Nat.exists_eq_add_of_le hn
    rw [← List.drop_drop, h.drop_forty, Nat.add_sub_cancel_left]
  split_ifs with hlen hshort hcrc' hpayload
  · rfl
  · rfl
  · rfl
  · rfl
  · rw [hdrop _ (by omega)]

theorem frameOf_headerBytes (frame : FipcFrame) : frameOf (headerBytes frame) frame.payload = frame := by
  simp [frameOf, headerBytes, List.drop_append, List.drop_of_length_le,
    List.take_of_length_le, value_u16_bytes, value_u32_bytes, value_u64_bytes]

theorem headerBytes_frameOf {header payload : Bytes} (hheader : header.length = 32)
    (hlen : LittleEndian.value (header.take 4) = 40 + payload.length) :
    headerBytes (frameOf header payload) = header := by
  have hfield (offset w : Nat) (h : offset + w ≤ 32) : ((header.drop offset).take w).length = w := by
    simp
    omega
  rw [headerBytes]
  simp only [frameOf, ← hlen]
  rw [bytes_u32_value (show (header.take 4).length = 4 from hfield 0 4 (by omega)),
    bytes_u16_value (hfield 4 2 (by omega)),
    bytes_u16_value (hfield 6 2 (by omega)), bytes_u32_value (hfield 8 4 (by omega)),
    bytes_u32_value (hfield 12 4 (by omega)), bytes_u64_value (hfield 16 8 (by omega)),
    bytes_u64_value (hfield 24 8 (by omega))]
  have hcut (offset w : Nat) : (header.drop offset).take w ++ header.drop (offset + w) =
      header.drop offset := by
    rw [← List.drop_drop, List.take_append_drop]
  have hlast : (header.drop 24).take 8 = header.drop 24 := List.take_of_length_le (by simp; omega)
  rw [hlast, hcut 16 8, hcut 12 4, hcut 8 4, hcut 6 2, hcut 4 2, List.take_append_drop]

/-- The frame fits the limits. -/
def Fits (limits : Limits) (frame : FipcFrame) : Prop :=
  40 + frame.payload.length ≤ limits.maxFrameBytes.toNat ∧
    frame.payload.length ≤ limits.maxPayloadBytes.toNat

instance (limits : Limits) (frame : FipcFrame) : Decidable (Fits limits frame) :=
  inferInstanceAs (Decidable (_ ∧ _))

theorem value_length_field {frame : FipcFrame} (hfits : Fits limits frame) :
    LittleEndian.value ((headerBytes frame).take 4) = 40 + frame.payload.length := by
  have hlt := limits.maxFrameBytes.toNat_lt
  have hfit := hfits.1
  rw [headerBytes, List.take_left' (LittleEndian.length_bytes 4 _), LittleEndian.value_bytes,
    UInt32.toNat_ofNat', Nat.mod_eq_of_lt (by omega)]
  exact Nat.mod_eq_of_lt (by omega)

/-- **Round trip**: a frame is read back from the front of any bytes that start with it. -/
theorem parse_encode {frame : FipcFrame} (hfits : Fits limits frame) (rest : Bytes) :
    parse limits (encode frame ++ rest) = .frame frame rest := by
  have hs : HeaderSplit (encode frame ++ rest) (headerBytes frame)
      (LittleEndian.bytes 4 (crc32c (headerBytes frame)).toNat)
      (LittleEndian.bytes 4 (crc32c frame.payload).toNat) (frame.payload ++ rest) :=
    ⟨by simp [encode_eq], length_headerBytes frame, by simp, by simp⟩
  have hlen := value_length_field hfits
  have hbound := hfits.1
  rw [parse_layout hs]
  simp only [hlen, Nat.add_sub_cancel_left, List.take_left, List.drop_left, value_u32_bytes,
    frameOf_headerBytes]
  rw [if_neg (by omega), if_neg (by simp), if_neg (by simp), if_neg]
  rintro (hgt | hne)
  · exact Nat.not_le_of_lt hgt hfits.2
  · exact hne rfl

theorem parse_frame {buffer rest : Bytes} {frame : FipcFrame}
    (h : parse limits buffer = .frame frame rest) : Fits limits frame ∧ buffer = encode frame ++ rest := by
  rcases Nat.lt_or_ge buffer.length 40 with hshort | hlong
  · rw [parse_short hshort] at h
    cases h
  · obtain ⟨header, crc, pcrc, body, hs⟩ := exists_headerSplit hlong
    rw [parse_layout hs] at h
    dsimp only at h
    split_ifs at h with hlen hcut hcrc hpayload
    obtain ⟨rfl, rfl⟩ := Front.frame.inj h
    rw [not_or, not_lt, not_lt] at hlen
    rw [not_or, not_lt, not_not] at hpayload
    rw [not_not] at hcrc
    have hsize : (body.take (LittleEndian.value (header.take 4) - 40)).length =
        LittleEndian.value (header.take 4) - 40 := by
      rw [List.length_take]
      omega
    have hheader : headerBytes (frameOf header (body.take (LittleEndian.value (header.take 4) - 40))) =
        header := headerBytes_frameOf hs.length_header (by omega)
    refine ⟨⟨?_, hpayload.1⟩, ?_⟩
    · simp only [frameOf]
      omega
    · rw [encode_eq, hheader, hcrc, bytes_u32_value hs.length_crc]
      simp only [frameOf, hpayload.2]
      rw [bytes_u32_value hs.length_pcrc]
      simp [hs.bytes_eq]

theorem parse_bad_cases {buffer : Bytes} {diagnostic : Status}
    (h : parse limits buffer = .bad diagnostic) :
    diagnostic = protocolError "invalid frame length" ∨
      diagnostic = protocolError "header crc mismatch" ∨
      diagnostic = protocolError "payload crc mismatch" := by
  rcases Nat.lt_or_ge buffer.length 40 with hshort | hlong
  · rw [parse_short hshort] at h
    cases h
  · obtain ⟨header, crc, pcrc, body, hs⟩ := exists_headerSplit hlong
    rw [parse_layout hs] at h
    dsimp only at h
    split_ifs at h
    · exact .inl (Front.bad.inj h).symm
    · exact .inr (.inl (Front.bad.inj h).symm)
    · exact .inr (.inr (Front.bad.inj h).symm)

theorem parse_bad {buffer : Bytes} {diagnostic : Status} (h : parse limits buffer = .bad diagnostic) :
    ∃ message, diagnostic = protocolError message := by
  rcases parse_bad_cases h with rfl | rfl | rfl
  · exact ⟨_, rfl⟩
  · exact ⟨_, rfl⟩
  · exact ⟨_, rfl⟩

theorem parse_of_maxFrameBytes_lt (hmin : limits.maxFrameBytes.toNat < 40) (buffer : Bytes) :
    parse limits buffer =
      if buffer.length < 40 then .more else .bad (protocolError "invalid frame length") := by
  -- no length field is both forty at least and within the limit
  split_ifs with hshort
  · exact parse_short hshort
  · obtain ⟨header, crc, pcrc, body, hs⟩ := exists_headerSplit (Nat.le_of_not_lt hshort)
    rw [parse_layout hs]
    exact if_pos (by omega)

theorem parse_bad_append {buffer : Bytes} {diagnostic : Status}
    (h : parse limits buffer = .bad diagnostic) (more : Bytes) :
    parse limits (buffer ++ more) = .bad diagnostic := by
  rcases Nat.lt_or_ge buffer.length 40 with hshort | hlong
  · rw [parse_short hshort] at h
    cases h
  · obtain ⟨header, crc, pcrc, body, hs⟩ := exists_headerSplit hlong
    have hs' : HeaderSplit (buffer ++ more) header crc pcrc (body ++ more) :=
      ⟨by simp [hs.bytes_eq], hs.length_header, hs.length_crc, hs.length_pcrc⟩
    rw [parse_layout hs] at h
    rw [parse_layout hs']
    dsimp only at h ⊢
    by_cases hlen : LittleEndian.value (header.take 4) < 40 ∨
        LittleEndian.value (header.take 4) > limits.maxFrameBytes.toNat
    · rw [if_pos hlen] at h ⊢
      exact h
    · rw [if_neg hlen] at h ⊢
      by_cases hcut : 40 + body.length < LittleEndian.value (header.take 4)
      · rw [if_pos hcut] at h
        cases h
      · rw [if_neg hcut] at h
        rw [if_neg (by rw [List.length_append]; omega), List.take_append_of_le_length (by omega)]
        split_ifs at h ⊢
        · exact h
        · exact h

theorem length_lt_of_parse_more {buffer : Bytes} (hmin : 40 ≤ limits.maxFrameBytes.toNat)
    (h : parse limits buffer = .more) : buffer.length < limits.maxFrameBytes.toNat := by
  rcases Nat.lt_or_ge buffer.length 40 with hshort | hlong
  · omega
  · obtain ⟨header, crc, pcrc, body, hs⟩ := exists_headerSplit hlong
    have hlength := hs.length_bytes
    rw [parse_layout hs] at h
    dsimp only at h
    split_ifs at h with hlen hcut
    omega

/-- The front of the buffer as an incremental decoder. -/
def decoder (limits : Limits) : Decoder Byte FipcFrame Status where
  front := parse limits
  frame_split {_ frame _} h := by
    obtain ⟨hfits, hbuffer⟩ := parse_frame h
    refine ⟨encode frame, hbuffer, ?_, parse_encode hfits⟩
    exact List.ne_nil_of_length_pos (by rw [length_encode]; omega)
  bad_append := parse_bad_append

theorem feed_of_le (codec : FipcCodec) {data : Bytes} (hopen : codec.closed = false)
    (hsize : codec.buffer.length + data.length ≤ codec.limits.maxSingleAllocation.toNat) :
    codec.feed data = match parse codec.limits (codec.buffer ++ data) with
      | .more => (.needMore, { codec with buffer := codec.buffer ++ data })
      | .bad diagnostic =>
        (.closed diagnostic, { codec with buffer := codec.buffer ++ data, closed := true })
      | .frame frame rest => (.frame frame, { codec with buffer := rest }) := by
  rw [feed, if_neg (by simp [hopen]), if_neg (by omega)]

theorem feed_of_lt (codec : FipcCodec) {data : Bytes} (hopen : codec.closed = false)
    (hsize : codec.limits.maxSingleAllocation.toNat < codec.buffer.length + data.length) :
    codec.feed data =
      (.closed (protocolError "connection buffer limit exceeded"), { codec with closed := true }) := by
  rw [feed, if_neg (by simp [hopen]), if_pos (by omega)]

-- Sealed: the session is proved from the facts above, whatever the layout is.
attribute [irreducible] encode

end FipcCodec

end Forge
