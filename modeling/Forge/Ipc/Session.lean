import Forge.Ipc.FipcCodec
import Forge.Lib.TreeMap

/-!
# FIPC sessions

`FipcSession` of `session.cpp`: the codec and the tables of a connection. `feed` applies the frames a
chunk completes one by one to the tables, and returns their events, or the first error without the
events before it. So what a chunk delivers depends on which frames share it with the one that fails;
`feedAll_eq_iff` says which cuts of a stream deliver the same.
-/

namespace Forge

open Std (ExtTreeMap)
open Incremental (Decoder Delivery drain feedChunks FailsAt Takes chunkStart chunkEnd)

inductive SessionState
  | accepted | negotiated | active | closed
deriving DecidableEq, Repr

structure SessionEvent where
  type : FrameType
  streamId : UInt32
  sequence : UInt64
  requestToken : UInt64
deriving DecidableEq, Repr

structure StreamState where
  generation : UInt32 := 0
  nextSequence : UInt64 := 0
  credit : UInt64 := 0
  terminalPending : Bool := false
deriving DecidableEq, Repr

/-- The members of a session besides `limits_` and `codec_`. -/
structure SessionTables where
  state : SessionState := .accepted
  streams : ExtTreeMap UInt32 StreamState := ∅
  retiredStreamGenerations : ExtTreeMap UInt32 UInt32 := ∅
  idempotency : ExtTreeMap UInt64 Bytes := ∅
deriving DecidableEq

def sessionError (message : Str) : Status := Status.error .protocol "fipc-session" message

namespace SessionTables

def sendCredit (tables : SessionTables) (streamId : UInt32) (bytes : UInt64) :
    Result Unit × SessionTables :=
  match tables.streams[streamId]? with
  | none => (.error (sessionError "credit for unknown stream"), tables)
  | some stream =>
    match checkedAdd stream.credit bytes "fipc-session" with
    | .error status => (.error status, tables)
    | .ok credit =>
      (.ok (), { tables with streams := tables.streams.insert streamId { stream with credit } })

def reserveSend (tables : SessionTables) (streamId : UInt32) (bytes : UInt64) (terminal : Bool) :
    Result Unit × SessionTables :=
  match tables.streams[streamId]? with
  | none => (.error (sessionError "send on unknown stream"), tables)
  | some stream =>
    if stream.credit < bytes then
      if terminal then
        (.ok (), { tables with
          streams := tables.streams.insert streamId { stream with terminalPending := true } })
      else
        (.error (Status.error .backpressure "fipc-session" "insufficient stream credit"), tables)
    else
      (.ok (), { tables with
        streams := tables.streams.insert streamId { stream with credit := stream.credit - bytes } })

/-- The branch of `apply_frame` for a hello. -/
def applyHello (tables : SessionTables) (frame : FipcFrame) : Result Unit × SessionTables :=
  if frame.type ≠ .hello ∨ frame.streamId ≠ 0 ∨ frame.sequence ≠ 0 then
    (.error (sessionError "expected initial HELLO"), tables)
  else
    (.ok (), { tables with state := .negotiated })

/-- The branch of `apply_frame` that opens a stream. -/
def applyOpenStream (limits : Limits) (tables : SessionTables) (frame : FipcFrame) :
    Result Unit × SessionTables :=
  let existing := tables.streams[frame.streamId]?
  let retired := tables.retiredStreamGenerations[frame.streamId]?
  if frame.streamId = 0 ∨ existing.any (frame.streamGeneration ≤ ·.generation) ∨
      retired.any (frame.streamGeneration ≤ ·) then
    (.error (sessionError "illegal stream reuse"), tables)
  else if tables.streams.size ≥ limits.maxStreams.toNat then
    (.error (Status.error .resourceLimit "fipc-session" "stream cap reached"), tables)
  else
    (.ok (), { tables with
      streams := tables.streams.insert frame.streamId { generation := frame.streamGeneration }
      state := .active })

/-- `stream->second.next_sequence++`, where there is a stream. -/
def advance (tables : SessionTables) (streamId : UInt32) : Option StreamState → SessionTables
  | none => tables
  | some stream => { tables with
      streams := tables.streams.insert streamId { stream with nextSequence := stream.nextSequence + 1 } }

/-- The step of `apply_frame` for a credit frame. -/
def applyCredit (tables : SessionTables) (frame : FipcFrame) : Result Unit × SessionTables :=
  if frame.type = .credit then
    match readU64Le frame.payload 0 with
    | .error status => (.error status, tables)
    | .ok credit => tables.sendCredit frame.streamId credit
  else
    (.ok (), tables)

/-- The step of `apply_frame` for a build request. -/
def applyBuildRequest (tables : SessionTables) (frame : FipcFrame) : Result Unit × SessionTables :=
  if frame.type = .buildRequest then
    if tables.idempotency[frame.requestToken]?.any (· ≠ frame.payload) then
      (.error (sessionError "IDEMPOTENCY_CONFLICT"), tables)
    else
      (.ok (), { tables with
        idempotency := tables.idempotency.insert frame.requestToken frame.payload })
  else
    (.ok (), tables)

/-- The step of `apply_frame` for the close of a stream. -/
def applyCloseStream (tables : SessionTables) (frame : FipcFrame) : Option StreamState → SessionTables
  | none => tables
  | some stream =>
    if frame.type = .closeStream then
      let streams := tables.streams.erase frame.streamId
      { tables with
        streams
        retiredStreamGenerations :=
          tables.retiredStreamGenerations.insert frame.streamId stream.generation
        state := if streams.isEmpty then .negotiated else .active }
    else
      tables

/-- The rest of `apply_frame`: a frame on a stream, or on the connection itself. -/
def applyStreamFrame (tables : SessionTables) (frame : FipcFrame) : Result Unit × SessionTables :=
  let stream := tables.streams[frame.streamId]?
  if frame.streamId ≠ 0 ∧ stream = none then
    (.error (sessionError "unknown stream"), tables)
  else if stream.any fun s => s.generation ≠ frame.streamGeneration ∨ s.nextSequence ≠ frame.sequence then
    (.error (sessionError "nonmonotonic stream sequence or generation"), tables)
  else
    match (tables.advance frame.streamId stream).applyCredit frame with
    | (.error status, tables) => (.error status, tables)
    | (.ok _, tables) =>
      match tables.applyBuildRequest frame with
      | (.error status, tables) => (.error status, tables)
      | (.ok _, tables) => (.ok (), tables.applyCloseStream frame stream)

/-- `apply_frame`. Each branch that succeeds pushes the same event. -/
def applyFrame (limits : Limits) (tables : SessionTables) (frame : FipcFrame) :
    Result SessionEvent × SessionTables :=
  let applied :=
    if tables.state = .accepted then
      tables.applyHello frame
    else if tables.state = .negotiated ∧ frame.type = .openStream then
      tables.applyOpenStream limits frame
    else if tables.state ≠ .active ∧ tables.state ≠ .negotiated then
      (.error (sessionError "frame after close"), tables)
    else
      tables.applyStreamFrame frame
  (applied.1.map fun _ => ⟨frame.type, frame.streamId, frame.sequence, frame.requestToken⟩, applied.2)

def close (tables : SessionTables) : SessionTables := { tables with state := .closed }

end SessionTables

structure FipcSession where
  limits : Limits
  codec : FipcCodec
  tables : SessionTables

namespace FipcSession

/-- `FipcSession(limits)`. -/
def init (limits : Limits) : FipcSession := ⟨limits, { limits }, {}⟩

/-- The turns of the loop of `feed`. -/
def feedLoop : Nat → FipcSession → Bytes → List SessionEvent → Result (List SessionEvent) × FipcSession
  | 0, session, _, events => (.ok events, session)
  | turns + 1, session, data, events =>
    match session.codec.feed data with
    | (.needMore, codec) => (.ok events, { session with codec })
    | (.closed diagnostic, codec) =>
      (if diagnostic.ok then .ok events else .error diagnostic,
        { session with codec, tables := session.tables.close })
    | (.frame frame, codec) =>
      match session.tables.applyFrame session.limits frame with
      | (.error status, tables) => (.error status, { session with codec, tables := tables.close })
      | (.ok event, tables) =>
        if codec.buffer.length = 0 then
          (.ok (events ++ [event]), { session with codec, tables })
        else
          feedLoop turns { session with codec, tables } [] (events ++ [event])

/-- `feed`. Each turn but the last takes a frame, so there are enough turns. -/
def feed (session : FipcSession) (data : Bytes) : Result (List SessionEvent) × FipcSession :=
  session.feedLoop (session.codec.buffer.length + data.length + 1) data []

/-- Feed the chunks of a stream until the first error. -/
def feedAll (session : FipcSession) : List Bytes → Delivery Status SessionTables SessionEvent
  | [] => ⟨[], none, session.tables⟩
  | chunk :: chunks =>
    match session.feed chunk with
    | (.error status, session) => ⟨[], some status, session.tables⟩
    | (.ok events, session) =>
      let rest := session.feedAll chunks
      { rest with outputs := events ++ rest.outputs }

/-! ## A session drains its buffer -/

/-- A session whose codec is open and holds the bytes of `buffer`. -/
def opened (limits : Limits) (buffer : Bytes) (tables : SessionTables) : FipcSession :=
  ⟨limits, ⟨limits, buffer, false⟩, tables⟩

variable {limits : Limits}

variable (limits) in
/-- The drain of a session's buffer. -/
abbrev drainTables (tables : SessionTables) (buffer : Bytes) :
    Incremental.Outcome Byte Status SessionTables SessionEvent :=
  drain (FipcCodec.decoder limits) (SessionTables.applyFrame limits) tables buffer

/-- How a feed ends whose buffer drains to `o`. -/
structure Drained (limits : Limits) (events : List SessionEvent)
    (o : Incremental.Outcome Byte Status SessionTables SessionEvent)
    (res : Result (List SessionEvent) × FipcSession) : Prop where
  of_none : o.error = none → res = (.ok (events ++ o.outputs), opened limits o.left o.state)
  of_some : ∀ status, o.error = some status → res.1 = .error status ∧ res.2.tables = o.state.close

/-- **The loop of `feed` is a drain**: with enough turns and a buffer that may be allocated. -/
theorem feedLoop_drained (turns : Nat) : ∀ (tables : SessionTables) (buffer data : Bytes)
    (events : List SessionEvent),
    buffer.length + data.length ≤ limits.maxSingleAllocation.toNat →
    buffer.length + data.length < turns →
      Drained limits events (drainTables limits tables (buffer ++ data))
        ((opened limits buffer tables).feedLoop turns data events) := by
  induction turns with
  | zero => intro tables buffer data events _ hturns; omega
  | succ turns ih =>
    intro tables buffer data events hsize hturns
    have hfeed := FipcCodec.feed_of_le (opened limits buffer tables).codec rfl hsize
    rw [feedLoop, hfeed]
    simp only [opened]
    cases hparse : FipcCodec.parse limits (buffer ++ data) with
    | more =>
      rw [drainTables, Incremental.drain_more hparse]
      refine ⟨fun _ => ?_, fun _ h => (nomatch h)⟩
      rw [List.append_nil]
      rfl
    | bad diagnostic =>
      obtain ⟨message, rfl⟩ := FipcCodec.parse_bad hparse
      rw [drainTables, Incremental.drain_bad hparse]
      refine ⟨fun h => (nomatch h), fun status h => ?_⟩
      cases h
      exact ⟨rfl, rfl⟩
    | frame frame rest =>
      have hshorter := (FipcCodec.decoder limits).length_rest_lt hparse
      rw [List.length_append] at hshorter
      simp only
      rcases happly : tables.applyFrame limits frame with ⟨status | event, tables'⟩
      · rw [drainTables, Incremental.drain_refused hparse happly]
        refine ⟨fun h => (nomatch h), fun status' h => ?_⟩
        cases h
        exact ⟨rfl, rfl⟩
      · rw [drainTables, Incremental.drain_frame hparse happly]
        simp only
        split_ifs with hempty
        · -- the buffer is used up: the drain of the rest finds nothing
          obtain rfl := List.eq_nil_of_length_eq_zero hempty
          have hnil : FipcCodec.parse limits [] = .more := FipcCodec.parse_nil
          rw [Incremental.drain_more hnil]
          exact ⟨fun _ => rfl, fun _ h => (nomatch h)⟩
        · have hrest := ih tables' rest [] (events ++ [event]) (by simp; omega) (by simp; omega)
          rw [List.append_nil] at hrest
          refine ⟨fun h => ?_, hrest.of_some⟩
          have hgo := hrest.of_none h
          rw [List.append_assoc] at hgo
          exact hgo

theorem feed_drained (tables : SessionTables) (buffer data : Bytes)
    (hsize : buffer.length + data.length ≤ limits.maxSingleAllocation.toNat) :
    Drained limits [] (drainTables limits tables (buffer ++ data))
      ((opened limits buffer tables).feed data) :=
  feedLoop_drained _ tables buffer data [] hsize (Nat.lt_succ_self _)

/-- The delivery of a session, whose tables are closed with the first error. -/
def closeOnError (delivery : Delivery Status SessionTables SessionEvent) :
    Delivery Status SessionTables SessionEvent :=
  { delivery with state := if delivery.error.isSome then delivery.state.close else delivery.state }

/-- **Feeding chunks is incremental decoding** as long as a frame has room beside each chunk. -/
theorem feedAll_eq (hmin : 40 ≤ limits.maxFrameBytes.toNat) (chunks : List Bytes)
    (hchunks : ∀ chunk ∈ chunks,
      chunk.length + limits.maxFrameBytes.toNat ≤ limits.maxSingleAllocation.toNat) :
    ∀ (tables : SessionTables) (buffer : Bytes), FipcCodec.parse limits buffer = .more →
      (opened limits buffer tables).feedAll chunks =
        closeOnError (feedChunks (FipcCodec.decoder limits) (SessionTables.applyFrame limits) tables
          buffer chunks) := by
  induction chunks with
  | nil => intro tables buffer _; rfl
  | cons chunk chunks ih =>
    intro tables buffer hmore
    have hroom := hchunks chunk List.mem_cons_self
    have hheld := FipcCodec.length_lt_of_parse_more hmin hmore
    have hfeed := @feed_drained limits tables buffer chunk (by omega)
    rw [feedAll, feedChunks]
    cases herror : (drainTables limits tables (buffer ++ chunk)).error with
    | some status =>
      obtain ⟨hres, htables⟩ := hfeed.of_some status herror
      rcases hpair : (opened limits buffer tables).feed chunk with ⟨res, session⟩
      rw [hpair] at hres htables
      dsimp only at hres htables
      rw [hres]
      simp only [htables]
      rfl
    | none =>
      rw [hfeed.of_none herror]
      simp only [List.nil_append]
      rw [ih (fun c hc => hchunks c (List.mem_cons_of_mem _ hc)) _ _ (Incremental.front_left herror)]
      rfl

/-! ## Limits without room for a frame -/

theorem feed_of_maxFrameBytes_lt (hmin : limits.maxFrameBytes.toNat < 40) (tables : SessionTables)
    (buffer chunk : Bytes) :
    let res := (opened limits buffer tables).feed chunk
    if limits.maxSingleAllocation.toNat < buffer.length + chunk.length then
      res.1 = .error (FipcCodec.protocolError "connection buffer limit exceeded") ∧
        res.2.tables = tables.close
    else if 40 ≤ buffer.length + chunk.length then
      res.1 = .error (FipcCodec.protocolError "invalid frame length") ∧ res.2.tables = tables.close
    else
      res = (.ok [], opened limits (buffer ++ chunk) tables) := by
  -- the length field is refused as soon as forty bytes are in, if they may be allocated
  have hparse := FipcCodec.parse_of_maxFrameBytes_lt hmin (buffer ++ chunk)
  have hlength : (buffer ++ chunk).length = buffer.length + chunk.length := List.length_append
  simp only [feed, feedLoop]
  split_ifs with hlimit hlong
  · rw [FipcCodec.feed_of_lt (opened limits buffer tables).codec rfl hlimit]
    exact ⟨rfl, rfl⟩
  · rw [FipcCodec.feed_of_le (opened limits buffer tables).codec rfl (Nat.le_of_not_lt hlimit)]
    rw [show (opened limits buffer tables).codec.limits = limits from rfl,
      show (opened limits buffer tables).codec.buffer = buffer from rfl, hparse, if_neg (by omega)]
    exact ⟨rfl, rfl⟩
  · rw [FipcCodec.feed_of_le (opened limits buffer tables).codec rfl (Nat.le_of_not_lt hlimit)]
    rw [show (opened limits buffer tables).codec.limits = limits from rfl,
      show (opened limits buffer tables).codec.buffer = buffer from rfl, hparse, if_pos (by omega)]
    rfl

/-- The number of bytes at which such a session fails. -/
def failingLength (limits : Limits) : Nat := min 40 (limits.maxSingleAllocation.toNat + 1)

theorem feedAll_of_maxFrameBytes_lt (hmin : limits.maxFrameBytes.toNat < 40) (tables : SessionTables)
    (chunks : List Bytes) : ∀ buffer : Bytes, buffer.length < failingLength limits →
      (opened limits buffer tables).feedAll chunks =
        if buffer.length + chunks.flatten.length < failingLength limits then
          ⟨[], none, tables⟩
        else if limits.maxSingleAllocation.toNat <
            buffer.length + chunkEnd (failingLength limits - buffer.length) chunks then
          ⟨[], some (FipcCodec.protocolError "connection buffer limit exceeded"), tables.close⟩
        else
          ⟨[], some (FipcCodec.protocolError "invalid frame length"), tables.close⟩ := by
  induction chunks with
  | nil =>
    intro buffer hbuffer
    rw [if_pos (by simpa using hbuffer)]
    rfl
  | cons chunk chunks ih =>
    intro buffer hbuffer
    have hfeed := feed_of_maxFrameBytes_lt hmin tables buffer chunk
    dsimp only at hfeed
    have hneed : failingLength limits = min 40 (limits.maxSingleAllocation.toNat + 1) := rfl
    rw [feedAll, List.flatten_cons, List.length_append, chunkEnd]
    rcases hpair : (opened limits buffer tables).feed chunk with ⟨res, session⟩
    rw [hpair] at hfeed
    dsimp only at hfeed
    split_ifs at hfeed with hlimit hlong
    · obtain ⟨rfl, htables⟩ := hfeed
      rw [if_neg (by omega), if_pos (by split_ifs <;> omega)]
      simp only [htables]
    · obtain ⟨rfl, htables⟩ := hfeed
      rw [if_neg (by omega), if_pos (show failingLength limits - buffer.length ≤ chunk.length by omega),
        if_neg (by omega)]
      simp only [htables]
    · obtain ⟨rfl, rfl⟩ := Prod.ext_iff.mp hfeed
      simp only [List.nil_append]
      rw [ih (buffer ++ chunk) (by rw [List.length_append]; omega), List.length_append,
        if_neg (show ¬ failingLength limits - buffer.length ≤ chunk.length by omega), Nat.add_assoc,
        Nat.add_assoc, Nat.sub_add_eq]

theorem feedAll_eq_iff_of_maxFrameBytes_lt (hmin : limits.maxFrameBytes.toNat < 40) {cs ds : List Bytes}
    (hsame : cs.flatten = ds.flatten) (tables : SessionTables) :
    (opened limits [] tables).feedAll cs = (opened limits [] tables).feedAll ds ↔
      (chunkEnd 40 cs ≤ limits.maxSingleAllocation.toNat ↔
        chunkEnd 40 ds ≤ limits.maxSingleAllocation.toNat) := by
  have hneed : failingLength limits = min 40 (limits.maxSingleAllocation.toNat + 1) := rfl
  have hlength : cs.flatten.length = ds.flatten.length := by rw [hsame]
  have hlate (xs : List Bytes) (p : Nat) (h : p ≤ xs.flatten.length) := Incremental.le_chunkEnd h
  have hearly (xs : List Bytes) (p : Nat) (h : xs.flatten.length < p) :=
    Incremental.chunkEnd_of_length_lt h
  rw [feedAll_of_maxFrameBytes_lt hmin tables cs [] (by simp; omega),
    feedAll_of_maxFrameBytes_lt hmin tables ds [] (by simp; omega)]
  simp only [List.length_nil, Nat.zero_add, Nat.sub_zero, hlength]
  rcases Nat.lt_or_ge ds.flatten.length (failingLength limits) with hshort | hlong
  · -- nothing fails
    rw [if_pos hshort, if_pos hshort, hearly cs 40 (by omega), hearly ds 40 (by omega),
      hlength]
    simp
  · rw [if_neg (Nat.not_lt.mpr hlong), if_neg (Nat.not_lt.mpr hlong)]
    rcases Nat.lt_or_ge limits.maxSingleAllocation.toNat 39 with hsmall | hlarge
    · -- the limit is exceeded before the length field may be read
      have hcs := hlate cs (failingLength limits) (by omega)
      have hds := hlate ds (failingLength limits) (by omega)
      rw [if_pos (by omega), if_pos (by omega)]
      refine iff_of_true rfl ?_
      rcases Nat.lt_or_ge ds.flatten.length 40 with hshort | hlong'
      · rw [hearly cs 40 (by omega), hearly ds 40 (by omega), hlength]
      · have hcs' := hlate cs 40 (by omega)
        have hds' := hlate ds 40 (by omega)
        exact iff_of_false (by omega) (by omega)
    · rw [show failingLength limits = 40 by omega]
      have hne : FipcCodec.protocolError "connection buffer limit exceeded" ≠
          FipcCodec.protocolError "invalid frame length" := by decide
      split_ifs with h1 h2 h2
      · exact iff_of_true rfl (iff_of_false (by omega) (by omega))
      · exact iff_of_false (fun h => hne (Option.some.inj (Delivery.mk.inj h).2.1))
          fun h => h1.not_ge (h.mpr (by omega))
      · exact iff_of_false (fun h => hne (Option.some.inj (Delivery.mk.inj h).2.1).symm)
          fun h => h2.not_ge (h.mp (by omega))
      · exact iff_of_true rfl (iff_of_true (by omega) (by omega))

/-! ## Two cuts of a stream -/

/-- The two cuts deliver the same events, first error and tables. -/
def SameDelivery (limits : Limits) (cs ds : List Bytes) : Prop :=
  (init limits).feedAll cs = (init limits).feedAll ds

instance (limits : Limits) (cs ds : List Bytes) : Decidable (SameDelivery limits cs ds) :=
  inferInstanceAs (Decidable (_ = _))

/-- No accepted frame ends behind the start of the chunk with the first error in one cut and not in the
other. Where no frame is ever accepted, the byte that decides the length field arrives inside what may
be allocated in both cuts or in neither. -/
def SplitsAgree (limits : Limits) (cs ds : List Bytes) : Prop :=
  if 40 ≤ limits.maxFrameBytes.toNat then
    ∀ p, FailsAt (FipcCodec.decoder limits) (SessionTables.applyFrame limits) {} cs.flatten p →
      ∀ n tables, Takes (FipcCodec.decoder limits) (SessionTables.applyFrame limits) {} cs.flatten n tables →
        (n ≤ chunkStart p cs ↔ n ≤ chunkStart p ds)
  else
    chunkEnd 40 cs ≤ limits.maxSingleAllocation.toNat ↔ chunkEnd 40 ds ≤ limits.maxSingleAllocation.toNat

theorem closeOnError_eq_iff {x y : Delivery Status SessionTables SessionEvent} (herror : x.error = y.error)
    (hstate : x.state = y.state) : closeOnError x = closeOnError y ↔ x.outputs = y.outputs := by
  rw [closeOnError, closeOnError, herror, hstate]
  simp only [Delivery.mk.injEq, and_true]

/-- **A stream delivers the same in two cuts exactly when they agree** about the frames that share a
chunk with the one that fails. -/
theorem feedAll_eq_iff (limits : Limits) (cs ds : List Bytes) (hsame : cs.flatten = ds.flatten)
    (hcs : ∀ chunk ∈ cs,
      chunk.length + limits.maxFrameBytes.toNat ≤ limits.maxSingleAllocation.toNat)
    (hds : ∀ chunk ∈ ds,
      chunk.length + limits.maxFrameBytes.toNat ≤ limits.maxSingleAllocation.toNat) :
    SameDelivery limits cs ds ↔ SplitsAgree limits cs ds := by
  change (opened limits [] {}).feedAll cs = (opened limits [] {}).feedAll ds ↔ _
  rw [SplitsAgree]
  split_ifs with hmin
  · have hempty : FipcCodec.parse limits [] = .more := FipcCodec.parse_nil
    obtain ⟨herror, hstate, houtputs⟩ := Incremental.feedChunks_eq_iff (FipcCodec.decoder limits)
      (SessionTables.applyFrame limits) (s := {}) hempty hsame
    rw [feedAll_eq hmin cs hcs _ _ hempty, feedAll_eq hmin ds hds _ _ hempty,
      closeOnError_eq_iff herror hstate, houtputs]
  · exact feedAll_eq_iff_of_maxFrameBytes_lt (Nat.lt_of_not_le hmin) hsame {}

/-- The hello that opens a connection. -/
def helloBytes : Bytes := FipcCodec.encode { type := .hello }

/-- Forty bytes with a length field of zero. -/
def malformedBytes : Bytes := List.replicate 40 0

/-- A cut inside the hello changes nothing, since it does not move the chunk that fails. -/
theorem feedAll_eq_iff_cut_hello :
    SplitsAgree {} [helloBytes, malformedBytes] [helloBytes.take 7, helloBytes.drop 7, malformedBytes] :=
  (feedAll_eq_iff {} _ _ (by decide +kernel) (by decide +kernel) (by decide +kernel)).mp
    (by decide +kernel)

/-- The hello is reported when the malformed bytes come in a chunk of their own, and lost when they
come with it. -/
theorem feedAll_loses_hello :
    [helloBytes, malformedBytes].flatten = [helloBytes ++ malformedBytes].flatten ∧
      (∀ chunk ∈ [helloBytes, malformedBytes, helloBytes ++ malformedBytes],
        chunk.length + ({} : Limits).maxFrameBytes.toNat ≤ ({} : Limits).maxSingleAllocation.toNat) ∧
      ((init {}).feedAll [helloBytes, malformedBytes]).outputs = [⟨.hello, 0, 0, 0⟩] ∧
      ((init {}).feedAll [helloBytes ++ malformedBytes]).outputs = [] ∧
      ¬ SameDelivery {} [helloBytes, malformedBytes] [helloBytes ++ malformedBytes] := by
  decide +kernel

end FipcSession

end Forge
