import Forge.Ipc.FipcCodec

/-!
# Streams of frames

What the drain loops of `FipcSession::feed` and `UnixSocketClient::status` make of a stream that comes
in chunks: each chunk is fed to the codec, and `feed(nullptr, 0)` is called while a frame is returned.
As long as a frame has room beside each chunk, the frames and the end are those of the whole stream read
from the front (`feedStream_eq`), so the cut does not matter; and frames that are encoded, joined and
fed come back (`feed_encode_inverse`).
-/

namespace Forge

namespace FipcCodec

open Incremental (drain)

/-! ## One feed -/

variable {limits : Limits}

theorem parse_of_feed_frame {codec codec' : FipcCodec} {data : Bytes} {frame : FipcFrame}
    (h : codec.feed data = (.frame frame, codec')) :
    parse codec.limits (codec.buffer ++ data) = .frame frame codec'.buffer := by
  unfold feed at h
  by_cases hclosed : codec.closed = true
  · simp [hclosed] at h
  rw [if_neg hclosed] at h
  by_cases hlimit : data.length > codec.limits.maxSingleAllocation.toNat ∨
      codec.buffer.length > codec.limits.maxSingleAllocation.toNat - data.length
  · simp [hlimit] at h
  dsimp only at h
  rw [if_neg hlimit] at h
  cases hparse : parse codec.limits (codec.buffer ++ data) with
  | more => simp [hparse] at h
  | bad diagnostic => simp [hparse] at h
  | frame other rest =>
    rw [hparse] at h
    cases h
    rfl

/-- **What feed removes from the buffer** is the encoding of the frame it returns. -/
theorem feed_frame (codec : FipcCodec) (data : Bytes) (frame : FipcFrame) (codec' : FipcCodec)
    (h : codec.feed data = (.frame frame, codec')) :
    codec.buffer ++ data = encode frame ++ codec'.buffer :=
  (parse_frame (parse_of_feed_frame h)).2

theorem length_of_feed_frame {codec codec' : FipcCodec} {data : Bytes} {frame : FipcFrame}
    (h : codec.feed data = (.frame frame, codec')) :
    codec'.buffer.length < codec.buffer.length + data.length := by
  have hbytes := congrArg List.length (feed_frame codec data frame codec' h)
  rw [List.length_append, List.length_append, length_encode] at hbytes
  omega

/-! ## Chunks -/

/-- Feed bytes and drain: the frames, the first result that is none, and the codec then. -/
def feedDrain (codec : FipcCodec) (data : Bytes) : List FipcFrame × DecodeResult × FipcCodec :=
  match _h : codec.feed data with
  | (.frame frame, codec') =>
    let (frames, last, codec'') := codec'.feedDrain []
    (frame :: frames, last, codec'')
  | (last, codec') => ([], last, codec')
termination_by codec.buffer.length + data.length
decreasing_by exact length_of_feed_frame _h

/-- How a stream ends: with the bytes of an unfinished frame, or with the diagnostic of the codec. -/
inductive StreamEnd
  | needMore (left : Bytes)
  | closed (diagnostic : Status)
deriving DecidableEq

structure Decoding where
  frames : List FipcFrame
  ending : StreamEnd
deriving DecidableEq

/-- Feed and drain chunk by chunk until the first closed result. -/
def feedStream (codec : FipcCodec) : List Bytes → Decoding
  | [] => ⟨[], .needMore codec.buffer⟩
  | chunk :: chunks =>
    match codec.feedDrain chunk with
    | (frames, .closed diagnostic, _) => ⟨frames, .closed diagnostic⟩
    | (frames, _, codec) =>
      let later := codec.feedStream chunks
      { later with frames := frames ++ later.frames }

/-- Frames are taken as they are. -/
def takeFrame (_ : Unit) (frame : FipcFrame) : Except Status FipcFrame × Unit := (.ok frame, ())

/-- The whole stream decoded frame by frame from the front. -/
def decodeStream (limits : Limits) (stream : Bytes) : Decoding :=
  let whole := drain (decoder limits) takeFrame () stream
  ⟨whole.outputs, match whole.error with
    | none => .needMore whole.left
    | some diagnostic => .closed diagnostic⟩

/-! ## Draining -/

theorem feedDrain_frame {codec codec' : FipcCodec} {data : Bytes} {frame : FipcFrame}
    (h : codec.feed data = (.frame frame, codec')) :
    codec.feedDrain data = (frame :: (codec'.feedDrain []).1, (codec'.feedDrain []).2) := by
  rw [feedDrain]
  split
  · rename_i frame' codec'' h'
    rw [h] at h'
    cases h'
    rfl
  · rename_i last codec'' hlast h'
    rw [h] at h'
    cases h'
    exact absurd rfl (hlast frame)

theorem feedDrain_last {codec codec' : FipcCodec} {data : Bytes} {last : DecodeResult}
    (h : codec.feed data = (last, codec')) (hlast : ∀ frame, last ≠ .frame frame) :
    codec.feedDrain data = ([], last, codec') := by
  rw [feedDrain]
  split
  · rename_i frame codec'' h'
    rw [h] at h'
    cases h'
    exact absurd rfl (hlast frame)
  · rename_i last' codec'' _ h'
    rw [h] at h'
    cases h'
    rfl

/-- What a drain of the codec comes to. -/
structure Drained (limits : Limits) (o : Incremental.Outcome Byte Status Unit FipcFrame)
    (res : List FipcFrame × DecodeResult × FipcCodec) : Prop where
  of_none : o.error = none → res = (o.outputs, .needMore, ⟨limits, o.left, false⟩)
  of_some : ∀ diagnostic, o.error = some diagnostic →
    ∃ codec, res = (o.outputs, .closed diagnostic, codec)

/-- **Feeding and draining** reads the buffer with the new bytes from the front. -/
theorem feedDrain_drained (buffer data : Bytes)
    (hsize : buffer.length + data.length ≤ limits.maxSingleAllocation.toNat) :
    Drained limits (drain (decoder limits) takeFrame () (buffer ++ data))
      (feedDrain ⟨limits, buffer, false⟩ data) := by
  generalize hbytes : buffer ++ data = bytes
  induction hn : bytes.length using Nat.strong_induction_on generalizing buffer data bytes with
  | _ n ih =>
    have hfeed := feed_of_le ⟨limits, buffer, false⟩ rfl hsize
    dsimp only at hfeed
    rw [hbytes] at hfeed
    cases hparse : parse limits bytes with
    | more =>
      rw [hparse] at hfeed
      rw [feedDrain_last hfeed (by simp), Incremental.drain_more hparse]
      exact ⟨fun _ => rfl, fun _ h => (by cases h)⟩
    | bad diagnostic =>
      rw [hparse] at hfeed
      rw [feedDrain_last hfeed (by simp), Incremental.drain_bad hparse]
      exact ⟨fun h => (by cases h), fun other h => by cases h; exact ⟨_, rfl⟩⟩
    | frame frame rest =>
      have hshorter := (decoder limits).length_rest_lt hparse
      rw [hparse] at hfeed
      have htaken : takeFrame () frame = (.ok frame, ()) := rfl
      rw [feedDrain_frame hfeed, Incremental.drain_frame hparse htaken]
      have hlength := congrArg List.length hbytes
      rw [List.length_append] at hlength
      have hrest := ih rest.length (by omega) rest [] (by simp; omega) rest (by simp) rfl
      constructor
      · intro h
        rw [hrest.of_none h]
        rfl
      · intro diagnostic h
        obtain ⟨codec, hclosed⟩ := hrest.of_some diagnostic h
        exact ⟨codec, by rw [hclosed]; rfl⟩

/-- **Chunks of a stream** are decoded as the whole stream is, as long as a frame has room beside each
chunk. -/
theorem feedStream_drained (hmin : 40 ≤ limits.maxFrameBytes.toNat) (chunks : List Bytes)
    (hchunks : ∀ chunk ∈ chunks,
      chunk.length + limits.maxFrameBytes.toNat ≤ limits.maxSingleAllocation.toNat) :
    ∀ buffer : Bytes, parse limits buffer = .more →
      feedStream ⟨limits, buffer, false⟩ chunks = decodeStream limits (buffer ++ chunks.flatten) := by
  induction chunks with
  | nil =>
    intro buffer hmore
    unfold decodeStream
    rw [List.flatten_nil, List.append_nil, Incremental.drain_more hmore]
    rfl
  | cons chunk chunks ih =>
    intro buffer hmore
    have hroom := hchunks chunk List.mem_cons_self
    have hheld := length_lt_of_parse_more hmin hmore
    have hdrained := @feedDrain_drained limits buffer chunk (by omega)
    unfold feedStream
    rw [List.flatten_cons, ← List.append_assoc]
    cases herror : (drain (decoder limits) takeFrame () (buffer ++ chunk)).error with
    | some diagnostic =>
      obtain ⟨codec, hclosed⟩ := hdrained.of_some diagnostic herror
      obtain ⟨_, houtputs, herror'⟩ := Incremental.drain_append_of_error herror chunks.flatten
      rw [hclosed]
      unfold decodeStream
      simp only [houtputs, herror']
    | none =>
      obtain ⟨_, houtputs, herror', hleft⟩ := Incremental.drain_append_of_none herror chunks.flatten
      have hlater := ih (fun c hc => hchunks c (List.mem_cons_of_mem _ hc)) _
        (Incremental.front_left herror)
      rw [hdrained.of_none herror]
      simp only [hlater]
      unfold decodeStream
      simp only [houtputs, herror', hleft]

/-! ## Whole streams -/

theorem parse_bad_ne_limit {buffer : Bytes} {diagnostic : Status}
    (h : parse limits buffer = .bad diagnostic) :
    diagnostic ≠ protocolError "connection buffer limit exceeded" := by
  -- the parser knows nothing of the limit of the buffer
  rcases parse_bad_cases h with rfl | rfl | rfl
  · decide
  · decide
  · decide

theorem decodeStream_closed {stream : Bytes} {diagnostic : Status}
    (h : (decodeStream limits stream).ending = .closed diagnostic) :
    ∃ rest, parse limits rest = .bad diagnostic := by
  unfold decodeStream at h
  dsimp only at h
  cases herror : (drain (decoder limits) takeFrame () stream).error with
  | none => simp [herror] at h
  | some other =>
    rw [herror] at h
    obtain rfl := StreamEnd.closed.inj h
    rcases Incremental.drain_error_cases herror with hbad | ⟨_, _, _, hrefused⟩
    · exact ⟨_, hbad⟩
    · cases hrefused

theorem decodeStream_needMore {stream left : Bytes}
    (h : (decodeStream limits stream).ending = .needMore left) : parse limits left = .more := by
  unfold decodeStream at h
  dsimp only at h
  cases herror : (drain (decoder limits) takeFrame () stream).error with
  | none =>
    rw [herror] at h
    rw [← StreamEnd.needMore.inj h]
    exact Incremental.front_left herror
  | some other => simp [herror] at h

/-- **Decoding does not depend on the chunks.** The frames and the end are those of the whole stream, the
limit of the buffer is never exceeded, and behind every chunk less than a frame is left. -/
theorem feedStream_eq (limits : Limits) (chunks : List Bytes) (hmin : 40 ≤ limits.maxFrameBytes.toNat)
    (hmax : limits.maxFrameBytes.toNat ≤ limits.maxSingleAllocation.toNat)
    (hchunks : ∀ chunk ∈ chunks,
      chunk.length ≤ limits.maxSingleAllocation.toNat - limits.maxFrameBytes.toNat) :
    feedStream { limits } chunks = decodeStream limits chunks.flatten ∧
      (feedStream { limits } chunks).ending ≠
        .closed (protocolError "connection buffer limit exceeded") ∧
      ∀ before after left, chunks = before ++ after →
        (feedStream { limits } before).ending = .needMore left →
          left.length < limits.maxFrameBytes.toNat := by
  have hstream (cs : List Bytes) (hcs : ∀ chunk ∈ cs, chunk ∈ chunks) :
      feedStream { limits } cs = decodeStream limits cs.flatten := by
    refine feedStream_drained hmin cs (fun chunk hchunk => ?_) [] parse_nil
    have hroom := hchunks chunk (hcs chunk hchunk)
    omega
  rw [hstream chunks fun _ h => h]
  refine ⟨rfl, fun hlimit => ?_, fun before after left hsplit hend => ?_⟩
  · obtain ⟨rest, hbad⟩ := decodeStream_closed hlimit
    exact parse_bad_ne_limit hbad rfl
  · rw [hstream before fun chunk h => by rw [hsplit]; exact List.mem_append_left _ h] at hend
    exact length_lt_of_parse_more hmin (decodeStream_needMore hend)

/-- A hello in three chunks and the start of the next frame. -/
theorem feedStream_eq_hello :
    feedStream {} [(encode {}).take 7, (encode {}).drop 7, [40]] =
      decodeStream {} [(encode {}).take 7, (encode {}).drop 7, [40]].flatten :=
  (feedStream_eq {} _ (by decide) (by decide) (by decide +kernel)).1

/-! ## Round trips -/

theorem drain_encode {frames : List FipcFrame} (hfits : ∀ frame ∈ frames, Fits limits frame) :
    let whole := drain (decoder limits) takeFrame () (frames.flatMap encode)
    whole.outputs = frames ∧ whole.error = none ∧ whole.left = [] := by
  induction frames with
  | nil =>
    have hfront : (decoder limits).front [] = .more := @parse_nil limits
    rw [List.flatMap_nil, Incremental.drain_more hfront]
    exact ⟨rfl, rfl, rfl⟩
  | cons frame frames ih =>
    obtain ⟨houtputs, herror, hleft⟩ := ih fun f hf => hfits f (List.mem_cons_of_mem _ hf)
    have hfront : (decoder limits).front (encode frame ++ frames.flatMap encode) =
        .frame frame (frames.flatMap encode) := parse_encode (hfits frame List.mem_cons_self) _
    have htaken : takeFrame () frame = (.ok frame, ()) := rfl
    rw [List.flatMap_cons, Incremental.drain_frame hfront htaken]
    exact ⟨congrArg (frame :: ·) houtputs, herror, hleft⟩

theorem drain_encodes (limits : Limits) (stream : Bytes) :
    let whole := drain (decoder limits) takeFrame () stream
    (∀ frame ∈ whole.outputs, Fits limits frame) ∧ stream = whole.outputs.flatMap encode ++ whole.left := by
  generalize () = state
  induction state, stream using Incremental.drain_induction (decoder limits) takeFrame with
  | more _ b hfront =>
    rw [Incremental.drain_more hfront]
    simp
  | bad _ b e hfront =>
    rw [Incremental.drain_bad hfront]
    simp
  | refused _ b f rest e t hfront happly => cases happly
  | frame _ b f rest v t hfront happly ih =>
    rw [Incremental.drain_frame hfront happly]
    obtain ⟨hfits, hrest⟩ := ih
    obtain ⟨hfit, hbytes⟩ := parse_frame hfront
    obtain rfl : f = v := by
      cases happly
      rfl
    refine ⟨List.forall_mem_cons.mpr ⟨hfit, hfits⟩, ?_⟩
    rw [hbytes, Incremental.Outcome.after, List.flatMap_cons, List.append_assoc, ← hrest]

/-- **Encoding and feeding are inverse.** Frames within the limits come back from their joined encodings
with nothing left; and whatever the codec holds and is fed, a frame it returns encodes to the bytes it
removes. -/
theorem feed_encode_inverse (limits : Limits) :
    (∀ frames : List FipcFrame, (∀ frame ∈ frames, Fits limits frame) →
      (frames.flatMap encode).length ≤ limits.maxSingleAllocation.toNat →
        feedDrain { limits } (frames.flatMap encode) = (frames, .needMore, { limits })) ∧
    ∀ (codec : FipcCodec) (data : Bytes) (frame : FipcFrame) (codec' : FipcCodec),
      codec.feed data = (.frame frame, codec') →
        codec.buffer ++ data = encode frame ++ codec'.buffer := by
  refine ⟨fun frames hfits hsize => ?_, feed_frame⟩
  obtain ⟨houtputs, herror, hleft⟩ := drain_encode hfits
  have hdrained := @feedDrain_drained limits [] (frames.flatMap encode) (by simpa using hsize)
  rw [List.nil_append] at hdrained
  rw [hdrained.of_none herror, houtputs, hleft]

/-- A hello and a credit frame in one buffer. -/
theorem feed_encode_inverse_two :
    let frames : List FipcFrame :=
      [{ type := .hello }, { type := .credit, streamId := 3, payload := [1, 0, 0, 0, 0, 0, 0, 0] }]
    feedDrain {} (frames.flatMap encode) = (frames, .needMore, {}) :=
  (feed_encode_inverse {}).1 _ (by decide) (by decide +kernel)

end FipcCodec

end Forge
