import Forge.Ipc.FrameStream

/-!
# The end of a stream

`FipcCodec::eof`, which a reader calls when the peer has closed the connection. It reports success exactly if
the bytes that came are encoded frames, one behind the other, and then all of these have been returned
(`eof_cases`). A stream that is cut inside a frame or malformed leaves bytes in the buffer.
-/

namespace Forge

namespace FipcCodec

open Incremental (drain)

def eof (codec : FipcCodec) : DecodeResult × FipcCodec :=
  if codec.buffer ≠ [] then
    (.closed (protocolError "truncated frame at eof"), { codec with closed := true })
  else
    (.closed .success, { codec with closed := true })

/-- Feed and drain chunk by chunk until the first closed result: the frames and the codec. -/
def receive (codec : FipcCodec) : List Bytes → List FipcFrame × FipcCodec
  | [] => ([], codec)
  | chunk :: chunks =>
    match codec.feedDrain chunk with
    | (frames, .closed _, codec) => (frames, codec)
    | (frames, _, codec) =>
      let (later, codec) := codec.receive chunks
      (frames ++ later, codec)

variable {limits : Limits}

/-! ## What is left -/

theorem buffer_of_feedDrain_closed {diagnostic : Status} {codec : FipcCodec}
    (buffer data : Bytes) (hsize : buffer.length + data.length ≤ limits.maxSingleAllocation.toNat)
    (h : (feedDrain ⟨limits, buffer, false⟩ data).2 = (.closed diagnostic, codec)) : codec.buffer ≠ [] := by
  induction hn : buffer.length + data.length using Nat.strong_induction_on generalizing buffer data with
  | _ n ih =>
    have hfeed := feed_of_le ⟨limits, buffer, false⟩ rfl hsize
    dsimp only at hfeed
    cases hparse : parse limits (buffer ++ data) with
    | more =>
      rw [hparse] at hfeed
      rw [feedDrain_last hfeed (by simp)] at h
      cases h
    | bad other =>
      rw [hparse] at hfeed
      rw [feedDrain_last hfeed (by simp)] at h
      cases h
      intro hnil
      rw [show buffer ++ data = [] from hnil, parse_nil] at hparse
      cases hparse
    | frame frame rest =>
      have hshorter := (decoder limits).length_rest_lt hparse
      rw [List.length_append] at hshorter
      rw [hparse] at hfeed
      rw [feedDrain_frame hfeed] at h
      exact ih rest.length (by omega) rest [] (by simp; omega) h rfl

/-- **What the codec holds at the end** is nothing exactly if the whole stream drains without an error and
nothing is left of it. -/
theorem receive_drained (hmin : 40 ≤ limits.maxFrameBytes.toNat) (chunks : List Bytes)
    (hchunks : ∀ chunk ∈ chunks,
      chunk.length + limits.maxFrameBytes.toNat ≤ limits.maxSingleAllocation.toNat) :
    ∀ buffer : Bytes, parse limits buffer = .more →
      let whole := drain (decoder limits) takeFrame () (buffer ++ chunks.flatten)
      (receive ⟨limits, buffer, false⟩ chunks).1 = whole.outputs ∧
        ((receive ⟨limits, buffer, false⟩ chunks).2.buffer = [] ↔ whole.error = none ∧ whole.left = []) := by
  induction chunks with
  | nil =>
    intro buffer hmore
    rw [List.flatten_nil, List.append_nil, Incremental.drain_more hmore]
    exact ⟨rfl, (and_iff_right rfl).symm⟩
  | cons chunk chunks ih =>
    intro buffer hmore
    have hroom := hchunks chunk List.mem_cons_self
    have hheld := length_lt_of_parse_more hmin hmore
    have hdrained := @feedDrain_drained limits buffer chunk (by omega)
    rw [receive, List.flatten_cons, ← List.append_assoc]
    cases herror : (drain (decoder limits) takeFrame () (buffer ++ chunk)).error with
    | some diagnostic =>
      obtain ⟨codec, hclosed⟩ := hdrained.of_some diagnostic herror
      obtain ⟨_, houtputs, herror'⟩ := Incremental.drain_append_of_error herror chunks.flatten
      rw [hclosed]
      simp only [houtputs, herror', reduceCtorEq, false_and, iff_false, true_and]
      exact buffer_of_feedDrain_closed buffer chunk (by omega) (congrArg Prod.snd hclosed)
    | none =>
      obtain ⟨_, houtputs, herror', hleft⟩ := Incremental.drain_append_of_none herror chunks.flatten
      obtain ⟨hframes, hnothing⟩ := ih (fun c hc => hchunks c (List.mem_cons_of_mem _ hc)) _
        (Incremental.front_left herror)
      rw [hdrained.of_none herror]
      simp only [houtputs, herror', hleft, hframes, true_and]
      exact hnothing

/-- **A stream that ends well** is the encodings of the frames that were returned; any other one is reported
as truncated. -/
theorem eof_cases (limits : Limits) (chunks : List Bytes) (hmin : 40 ≤ limits.maxFrameBytes.toNat)
    (hmax : limits.maxFrameBytes.toNat ≤ limits.maxSingleAllocation.toNat)
    (hchunks : ∀ chunk ∈ chunks,
      chunk.length ≤ limits.maxSingleAllocation.toNat - limits.maxFrameBytes.toNat) :
    let received := receive { limits } chunks
    (received.2.eof.1 = .closed .success ∧ (∀ frame ∈ received.1, Fits limits frame) ∧
        chunks.flatten = received.1.flatMap encode) ∨
      (received.2.eof.1 = .closed (protocolError "truncated frame at eof") ∧
        ∀ frames : List FipcFrame, (∀ frame ∈ frames, Fits limits frame) →
          chunks.flatten ≠ frames.flatMap encode) := by
  intro received
  obtain ⟨hframes, hnothing⟩ := receive_drained hmin chunks
    (fun chunk hchunk => by have := hchunks chunk hchunk; omega) [] parse_nil
  rw [List.nil_append] at hframes hnothing
  by_cases hempty : received.2.buffer = []
  · obtain ⟨herror, hleft⟩ := hnothing.mp hempty
    obtain ⟨hfits, hbytes⟩ := drain_encodes limits chunks.flatten
    rw [hleft, List.append_nil, ← hframes] at hbytes
    rw [← hframes] at hfits
    exact .inl ⟨by rw [eof, if_neg (not_not.mpr hempty)], hfits, hbytes⟩
  · refine .inr ⟨by rw [eof, if_pos hempty], fun frames hfits hbytes => hempty (hnothing.mpr ?_)⟩
    obtain ⟨_, herror, hleft⟩ := drain_encode hfits
    rw [hbytes]
    exact ⟨herror, hleft⟩

/-- A hello in two chunks, and one that is cut short. -/
theorem eof_cases_hello :
    (receive {} [(encode {}).take 7, (encode {}).drop 7]).2.eof.1 = .closed .success ∧
      (receive {} [(encode {}).take 7]).2.eof.1 = .closed (protocolError "truncated frame at eof") := by
  constructor
  · rcases eof_cases {} [(encode {}).take 7, (encode {}).drop 7] (by decide) (by decide) (by decide +kernel) with
      ⟨hok, -⟩ | ⟨-, hno⟩
    · exact hok
    · exact absurd (by decide +kernel) (hno [{}] (by decide))
  · rcases eof_cases {} [(encode {}).take 7] (by decide) (by decide) (by decide +kernel) with
      ⟨hok, -⟩ | ⟨hno, -⟩
    · exact absurd hok (by decide +kernel)
    · exact hno

end FipcCodec

end Forge
