import Forge.Ipc.FrameStream

/-!
# A changed byte on the wire

One changed byte in the encoding of a frame is noticed wherever it is: the length field, like the rest of
the header, is under the header checksum, and the payload under its own (`parse_set_ne_frame`). With a
changed length field the codec may wait for more bytes or refuse at once, but whatever follows, no frame
comes out of bytes that do not pass the checksum. So a drain of the stream ends with the frames before
the changed one, and a codec that has closed stays closed (`changed_byte_contained`).
-/

namespace Forge

namespace FipcCodec

open Incremental (drain)

variable {limits : Limits}

/-! ## The changed frame -/

theorem parse_ne_frame_of_header {buffer header crc pcrc body : Bytes}
    (hs : HeaderSplit buffer header crc pcrc body)
    (hcrc : crc32c header ≠ UInt32.ofNat (LittleEndian.value crc)) (f : FipcFrame) (rest : Bytes) :
    parse limits buffer ≠ .frame f rest := by
  rw [parse_layout hs]
  dsimp only
  split_ifs
  all_goals simp

theorem parse_ne_frame_of_payload {buffer header crc pcrc body : Bytes}
    (hs : HeaderSplit buffer header crc pcrc body)
    (hcrc : crc32c (body.take (LittleEndian.value (header.take 4) - 40)) ≠
      UInt32.ofNat (LittleEndian.value pcrc)) (f : FipcFrame) (rest : Bytes) :
    parse limits buffer ≠ .frame f rest := by
  rw [parse_layout hs]
  dsimp only
  split_ifs with _ _ _ hpayload
  · simp
  · simp
  · simp
  · simp
  · exact absurd (.inr hcrc) hpayload

/-- **A changed byte is noticed** in each part of a frame. -/
theorem parse_set_ne_frame {frame : FipcFrame} (hfits : Fits limits frame) {i : Nat} {byte : Byte}
    (hi : i < (encode frame).length) (hbyte : (encode frame)[i]? ≠ some byte) (more : Bytes)
    (f : FipcFrame) (rest : Bytes) :
    parse limits ((encode frame).set i byte ++ more) ≠ .frame f rest := by
  have hheader := length_headerBytes frame
  have hlen := value_length_field hfits
  rw [length_encode] at hi
  rw [encode_eq] at hbyte ⊢
  rcases Nat.lt_or_ge i 32 with h32 | h32
  · -- in the header, the length field included
    rw [List.getElem?_append_left (by omega)] at hbyte
    rw [List.set_append_left _ _ (by omega)]
    simp only [List.append_assoc]
    refine parse_ne_frame_of_header ⟨rfl, by simp, by simp, by simp⟩ ?_ f rest
    rw [value_u32_bytes]
    simpa using crc32c_set_ne _ _ (by omega) hbyte [] []
  rw [List.getElem?_append_right (by omega), hheader] at hbyte
  rw [List.set_append_right _ _ (by omega), hheader]
  rcases Nat.lt_or_ge i 36 with h36 | h36
  · -- in the checksum of the header
    rw [List.getElem?_append_left (by simp; omega)] at hbyte
    rw [List.set_append_left _ _ (by simp; omega)]
    simp only [List.append_assoc]
    exact parse_ne_frame_of_header ⟨rfl, hheader, by simp, by simp⟩
      (ofNat_value_set_ne _ (by omega) hbyte) f rest
  rw [List.getElem?_append_right (by simp; omega), LittleEndian.length_bytes] at hbyte
  rw [List.set_append_right _ _ (by simp; omega), LittleEndian.length_bytes]
  rcases Nat.lt_or_ge i 40 with h40 | h40
  · -- in the checksum of the payload
    rw [List.getElem?_append_left (by simp; omega)] at hbyte
    rw [List.set_append_left _ _ (by simp; omega)]
    simp only [List.append_assoc]
    refine parse_ne_frame_of_payload ⟨rfl, hheader, by simp, by simp⟩ ?_ f rest
    rw [hlen, Nat.add_sub_cancel_left, List.take_left]
    exact ofNat_value_set_ne _ (by omega) hbyte
  · -- in the payload
    rw [List.getElem?_append_right (by simp; omega), LittleEndian.length_bytes] at hbyte
    rw [List.set_append_right _ _ (by simp; omega), LittleEndian.length_bytes]
    simp only [List.append_assoc]
    refine parse_ne_frame_of_payload ⟨rfl, hheader, by simp, by simp⟩ ?_ f rest
    rw [hlen, Nat.add_sub_cancel_left, List.take_left' (by simp), value_u32_bytes]
    simpa using crc32c_set_ne _ _ (by omega) hbyte [] []

/-! ## Feeding on -/

/-- Feed and drain chunk by chunk, also behind a closed result: the frames that are returned. -/
def drainEach (codec : FipcCodec) : List Bytes → List FipcFrame
  | [] => []
  | chunk :: chunks =>
    let (frames, _, codec) := codec.feedDrain chunk
    frames ++ codec.drainEach chunks

theorem feed_closed {codec codec' : FipcCodec} {data : Bytes} {diagnostic : Status}
    (h : codec.feed data = (.closed diagnostic, codec')) : codec'.closed = true := by
  unfold feed at h
  by_cases hclosed : codec.closed = true
  · rw [if_pos hclosed] at h
    rwa [← (Prod.mk.inj h).2]
  rw [if_neg hclosed] at h
  dsimp only at h
  split_ifs at h
  · rw [← (Prod.mk.inj h).2]
  · cases hparse : parse codec.limits (codec.buffer ++ data) with
    | more => simp [hparse] at h
    | bad diagnostic =>
      rw [hparse] at h
      rw [← (Prod.mk.inj h).2]
    | frame frame rest => simp [hparse] at h

theorem feedDrain_closed {codec codec' : FipcCodec} {data : Bytes} {frames : List FipcFrame}
    {diagnostic : Status} (h : codec.feedDrain data = (frames, .closed diagnostic, codec')) :
    codec'.closed = true := by
  induction hn : codec.buffer.length + data.length using Nat.strong_induction_on
    generalizing codec data frames with
  | _ n ih =>
    rcases hfeed : codec.feed data with ⟨_ | frame | other, codec''⟩
    · rw [feedDrain_last hfeed (by simp)] at h
      cases h
    · rw [feedDrain_frame hfeed] at h
      have hshorter := length_of_feed_frame hfeed
      obtain ⟨_, hlast⟩ := Prod.mk.inj h
      exact ih _ (hn ▸ hshorter) (Prod.ext rfl hlast) rfl
    · rw [feedDrain_last hfeed (by simp)] at h
      obtain ⟨_, hlast⟩ := Prod.mk.inj h
      obtain ⟨_, rfl⟩ := Prod.mk.inj hlast
      exact feed_closed hfeed

theorem drainEach_of_closed (chunks : List Bytes) {codec : FipcCodec} (hclosed : codec.closed = true) :
    codec.drainEach chunks = [] := by
  induction chunks with
  | nil => rfl
  | cons chunk chunks ih =>
    have hfeed : codec.feed chunk = (.closed (protocolError "session already closed"), codec) :=
      if_pos hclosed
    rw [drainEach, feedDrain_last hfeed (by simp)]
    exact ih

/-- **The frames returned for chunks** are those in front of the whole stream. -/
theorem drainEach_eq (hmin : 40 ≤ limits.maxFrameBytes.toNat) (chunks : List Bytes)
    (hchunks : ∀ chunk ∈ chunks,
      chunk.length + limits.maxFrameBytes.toNat ≤ limits.maxSingleAllocation.toNat) :
    ∀ buffer : Bytes, parse limits buffer = .more →
      drainEach ⟨limits, buffer, false⟩ chunks =
        (drain (decoder limits) takeFrame () (buffer ++ chunks.flatten)).outputs := by
  induction chunks with
  | nil =>
    intro buffer hmore
    rw [List.flatten_nil, List.append_nil, Incremental.drain_more hmore]
    rfl
  | cons chunk chunks ih =>
    intro buffer hmore
    have hroom := hchunks chunk List.mem_cons_self
    have hheld := length_lt_of_parse_more hmin hmore
    have hdrained := @feedDrain_drained limits buffer chunk (by omega)
    rw [drainEach, List.flatten_cons, ← List.append_assoc]
    cases herror : (drain (decoder limits) takeFrame () (buffer ++ chunk)).error with
    | some diagnostic =>
      obtain ⟨codec, hclosed⟩ := hdrained.of_some diagnostic herror
      rw [hclosed, (Incremental.drain_append_of_error herror chunks.flatten).2.1]
      simp only [drainEach_of_closed chunks (feedDrain_closed hclosed), List.append_nil]
    | none =>
      rw [hdrained.of_none herror, (Incremental.drain_append_of_none herror chunks.flatten).2.1]
      simp only
      rw [ih (fun c hc => hchunks c (List.mem_cons_of_mem _ hc)) _ (Incremental.front_left herror)]

/-- **A changed byte is contained.** With one byte of one frame changed, and any bytes behind the stream,
exactly the frames before the changed one are returned, in any chunks beside which a frame has room. -/
theorem changed_byte_contained (limits : Limits) (frames : List FipcFrame)
    (hfits : ∀ frame ∈ frames, Fits limits frame) (k : Nat) (hk : k < frames.length) (i : Nat)
    (hi : i < (encode frames[k]).length) (byte : Byte) (hbyte : (encode frames[k])[i]? ≠ some byte)
    (further : Bytes) (chunks : List Bytes)
    (hchunks : ∀ chunk ∈ chunks,
      chunk.length ≤ limits.maxSingleAllocation.toNat - limits.maxFrameBytes.toNat)
    (hstream : chunks.flatten = ((frames.take k).flatMap encode ++ ((encode frames[k]).set i byte ++
      (frames.drop (k + 1)).flatMap encode)) ++ further) :
    drainEach { limits } chunks = frames.take k := by
  have hframe := hfits frames[k] (List.getElem_mem hk)
  have hmin : 40 ≤ limits.maxFrameBytes.toNat := by
    have hbound := hframe.1
    omega
  -- the chunks hold a frame, so they have room beside one
  have hroom : limits.maxFrameBytes.toNat ≤ limits.maxSingleAllocation.toNat := by
    by_contra hno
    have hempty : chunks.flatten = [] := by
      refine List.flatten_eq_nil_iff.mpr fun chunk hchunk => List.eq_nil_of_length_eq_zero ?_
      have hchunk := hchunks chunk hchunk
      omega
    rw [hempty] at hstream
    have hlength := congrArg List.length hstream
    simp only [List.length_append, List.length_set, List.length_nil] at hlength
    omega
  have hbeside : ∀ chunk ∈ chunks,
      chunk.length + limits.maxFrameBytes.toNat ≤ limits.maxSingleAllocation.toNat := by
    intro chunk hchunk
    have hchunk := hchunks chunk hchunk
    omega
  obtain ⟨houtputs, herror, hleft⟩ :=
    @drain_encode limits (frames.take k) fun frame hmem => hfits frame (List.mem_of_mem_take hmem)
  rw [show ({ limits } : FipcCodec) = ⟨limits, [], false⟩ from rfl,
    drainEach_eq hmin chunks hbeside [] parse_nil,
    List.nil_append, hstream, List.append_assoc,
    (Incremental.drain_append_of_none herror _).2.1, houtputs, hleft, List.nil_append, List.append_assoc,
    Incremental.drain_outputs_of_ne_frame fun f rest =>
      parse_set_ne_frame hframe hi hbyte ((frames.drop (k + 1)).flatMap encode ++ further) f rest,
    List.append_nil]

/-- A length field that is raised from 40 to 41 makes the codec wait for a byte of what follows. -/
theorem changed_byte_contained_length :
    let hello : FipcFrame := { type := .hello }
    drainEach {} [encode hello, (encode hello).set 0 41, encode hello, [1, 2, 3]] = [hello] := by
  intro hello
  exact changed_byte_contained {} [hello, hello, hello] (by decide) 1 (by decide) 0 (by decide +kernel) 41
    (by decide +kernel) [1, 2, 3] _ (by decide +kernel) (by decide +kernel)

end FipcCodec

end Forge
