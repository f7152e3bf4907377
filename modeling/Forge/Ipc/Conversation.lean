import Forge.Ipc.FrameStream
import Forge.Ipc.SendCredit
import Forge.Lib.Runs

/-!
# Conversations

What a session is for, without its maps. A peer greets, and then has at most one stream open at a time, since
`apply_frame` opens one only where none is. A conversation keeps that stream, with its frames and its credit
as plain numbers, the generation each id was closed with, and the payload each token stands for. `Allows`
says which calls succeed behind it, and a session agrees on every call of every run (`session_converses`). On
the wire these are the streams of frames that a session reads without an error (`session_reads_iff`).
-/

namespace Forge

open Std (ExtTreeMap)
open SessionTables (Accepts grants eventOf)

/-! ## Definitions -/

inductive Stage
  | greeting | talking | ended
deriving DecidableEq, Repr

/-- The stream that is open, with the frames it got since. -/
structure LiveStream where
  streamId : UInt32
  generation : UInt32
  frames : Nat := 0
  credit : Nat := 0
deriving DecidableEq, Repr

structure Conversation where
  stage : Stage := .greeting
  stream : Option LiveStream := none
  closed : UInt32 → Option UInt32 := fun _ => none
  payloads : UInt64 → Option Bytes := fun _ => none

/-- A credit frame carries a number that the credit has room for. -/
def CreditFits (credit : Nat) (frame : FipcFrame) : Prop :=
  frame.type = .credit →
    ∃ amount, readU64Le frame.payload 0 = .ok amount ∧ credit + amount.toNat < 2 ^ 64

/-- The next frame of the stream. -/
def LiveStream.Expects (stream : LiveStream) (frame : FipcFrame) : Prop :=
  frame.streamId = stream.streamId ∧ stream.generation = frame.streamGeneration ∧
    UInt64.ofNat stream.frames = frame.sequence ∧ CreditFits stream.credit frame

/-- Credit that has no room is not granted. -/
def LiveStream.grant (stream : LiveStream) (bytes : Nat) : LiveStream :=
  if stream.credit + bytes < 2 ^ 64 then { stream with credit := stream.credit + bytes } else stream

def LiveStream.reserve (stream : LiveStream) (bytes : Nat) : LiveStream :=
  if bytes ≤ stream.credit then { stream with credit := stream.credit - bytes } else stream

namespace Conversation

/-- A build request under a new token, or with the payload of its token. -/
def Keeps (c : Conversation) (frame : FipcFrame) : Prop :=
  frame.type = .buildRequest → ∀ payload, c.payloads frame.requestToken = some payload → payload = frame.payload

/-- The frame has its place behind the conversation. -/
def Takes (limits : Limits) (c : Conversation) (frame : FipcFrame) : Prop :=
  match c.stage, c.stream with
  | .greeting, _ => frame.type = .hello ∧ frame.streamId = 0 ∧ frame.sequence = 0
  | .talking, none =>
    if frame.type = .openStream then
      frame.streamId ≠ 0 ∧ (∀ generation, c.closed frame.streamId = some generation →
        generation < frame.streamGeneration) ∧ 0 < limits.maxStreams.toNat
    else frame.streamId = 0 ∧ frame.type ≠ .credit ∧ c.Keeps frame
  | .talking, some stream =>
    (stream.Expects frame ∨ frame.streamId = 0 ∧ frame.type ≠ .credit) ∧ c.Keeps frame
  | .ended, _ => False

def remember (c : Conversation) (frame : FipcFrame) : Conversation :=
  if frame.type = .buildRequest then
    { c with payloads := Function.update c.payloads frame.requestToken (some frame.payload) }
  else c

/-- The conversation behind a frame that has its place. -/
def take (c : Conversation) (frame : FipcFrame) : Conversation :=
  match c.stage, c.stream with
  | .greeting, _ => { c with stage := .talking }
  | _, none =>
    if frame.type = .openStream then
      { c with stream := some { streamId := frame.streamId, generation := frame.streamGeneration } }
    else c.remember frame
  | _, some stream =>
    if frame.streamId ≠ stream.streamId then c.remember frame
    else if frame.type = .closeStream then
      { c with
        stream := none
        closed := Function.update c.closed stream.streamId (some stream.generation) }
    else
      { c.remember frame with
        stream := some { stream with frames := stream.frames + 1, credit := stream.credit + grants frame } }

/-- Change the open stream, if it has the id. -/
def update (c : Conversation) (streamId : UInt32) (f : LiveStream → LiveStream) : Conversation :=
  { c with stream := c.stream.map fun stream => if stream.streamId = streamId then f stream else stream }

def finish (c : Conversation) : Conversation := { c with stage := .ended }

/-- The calls that succeed. -/
def Allows (limits : Limits) (c : Conversation) : TableCall → Prop
  | .applyFrame frame => c.Takes limits frame
  | .close => True
  | .sendCredit streamId bytes =>
    ∃ stream, c.stream = some stream ∧ stream.streamId = streamId ∧ stream.credit + bytes.toNat < 2 ^ 64
  | .reserveSend streamId bytes terminal =>
    ∃ stream, c.stream = some stream ∧ stream.streamId = streamId ∧
      (bytes.toNat ≤ stream.credit ∨ terminal = true)

open Classical in
/-- The conversation behind a call; a frame out of place ends it. -/
noncomputable def after (limits : Limits) (c : Conversation) : TableCall → Conversation
  | .applyFrame frame => if c.Takes limits frame then c.take frame else c.finish
  | .close => c.finish
  | .sendCredit streamId bytes => c.update streamId (·.grant bytes.toNat)
  | .reserveSend streamId bytes _ => c.update streamId (·.reserve bytes.toNat)

end Conversation

/-- The call of the step returns ok. -/
def TableStep.Succeeds (limits : Limits) (step : TableStep) : Prop :=
  match step.call with
  | .applyFrame frame => ∃ event, (step.tables.applyFrame limits frame).1 = .ok event
  | .close => True
  | .sendCredit streamId bytes => (step.tables.sendCredit streamId bytes).1 = .ok ()
  | .reserveSend streamId bytes terminal => (step.tables.reserveSend streamId bytes terminal).1 = .ok ()

/-! ## The tables of a conversation -/

/-- The entry of the open stream. Its sequence may be off once the conversation has ended. -/
structure LiveStream.Shows (stream : LiveStream) (stage : Stage) (s : StreamState) : Prop where
  generation : s.generation = stream.generation
  credit : s.credit.toNat = stream.credit
  sequence : stage = .talking → s.nextSequence = UInt64.ofNat stream.frames

/-- The map of the streams has the open one and no other. -/
inductive ShowsStreams (stage : Stage) : Option LiveStream → ExtTreeMap UInt32 StreamState → Prop
  | silent : ShowsStreams stage none ∅
  | opened {stream : LiveStream} {s : StreamState} (hid : stream.streamId ≠ 0) (hshows : stream.Shows stage s) :
      ShowsStreams stage (some stream) ((∅ : ExtTreeMap UInt32 StreamState).insert stream.streamId s)

namespace Conversation

def state (c : Conversation) : SessionState :=
  match c.stage with
  | .greeting => .accepted
  | .talking => if c.stream.isSome then .active else .negotiated
  | .ended => .closed

/-- The tables of a session behind the conversation. -/
structure Models (c : Conversation) (tables : SessionTables) : Prop where
  state : tables.state = c.state
  streams : ShowsStreams c.stage c.stream tables.streams
  greeting : c.stage = .greeting → c.stream = none
  closed : ∀ id : UInt32, tables.retiredStreamGenerations[id]? = c.closed id
  payloads : ∀ token : UInt64, tables.idempotency[token]? = c.payloads token

theorem models_init : ({} : Conversation).Models {} :=
  ⟨rfl, .silent, fun _ => rfl, fun _ => ExtTreeMap.getElem?_empty, fun _ => ExtTreeMap.getElem?_empty⟩

end Conversation

namespace ShowsStreams

variable {stage stage' : Stage} {stream : Option LiveStream} {live live' : LiveStream} {s : StreamState}
  {streams : ExtTreeMap UInt32 StreamState}

theorem eq_empty (h : ShowsStreams stage none streams) : streams = ∅ := by
  cases h
  rfl

theorem eq_insert (h : ShowsStreams stage (some live) streams) :
    ∃ s, live.streamId ≠ 0 ∧ live.Shows stage s ∧
      streams = (∅ : ExtTreeMap UInt32 StreamState).insert live.streamId s := by
  cases h with
  | opened hid hshows => exact ⟨_, hid, hshows, rfl⟩

theorem of_lookup {id : UInt32} (h : ShowsStreams stage stream streams) (hlive : streams[id]? = some s) :
    ∃ live, stream = some live ∧ live.streamId = id ∧ id ≠ 0 ∧ live.Shows stage s := by
  cases h with
  | silent =>
    rw [ExtTreeMap.getElem?_empty] at hlive
    cases hlive
  | @opened live _ hid hshows =>
    obtain ⟨rfl, rfl⟩ | ⟨_, hempty⟩ := ExtTreeMap.getElem?_insert_cases hlive
    · exact ⟨live, rfl, rfl, hid, hshows⟩
    · rw [ExtTreeMap.getElem?_empty] at hempty
      cases hempty

theorem lookup_zero (h : ShowsStreams stage stream streams) : streams[(0 : UInt32)]? = none := by
  cases hlive : streams[(0 : UInt32)]? with
  | none => rfl
  | some s =>
    obtain ⟨_, _, _, hid, _⟩ := h.of_lookup hlive
    exact absurd rfl hid

theorem replace (h : ShowsStreams stage (some live) streams) (hid : live'.streamId = live.streamId)
    (hshows : live'.Shows stage' s) :
    ShowsStreams stage' (some live') (streams.insert live.streamId s) := by
  obtain ⟨_, hne, _, rfl⟩ := h.eq_insert
  rw [ExtTreeMap.insert_insert_empty, ← hid]
  exact .opened (hid ▸ hne) hshows

theorem ended (h : ShowsStreams stage stream streams) : ShowsStreams .ended stream streams := by
  cases h with
  | silent => exact .silent
  | opened hid hshows => exact .opened hid ⟨hshows.generation, hshows.credit, fun htalking => (by cases htalking)⟩

end ShowsStreams

namespace Conversation

variable {limits : Limits} {c : Conversation} {tables tables' : SessionTables} {frame : FipcFrame}
  {live live' : LiveStream}

/-! ## The stages -/

theorem takes_greeting (hstage : c.stage = .greeting) :
    c.Takes limits frame ↔ frame.type = .hello ∧ frame.streamId = 0 ∧ frame.sequence = 0 := by
  rw [Takes, hstage]

theorem takes_opening (hstage : c.stage = .talking) (hstream : c.stream = none)
    (htype : frame.type = .openStream) :
    c.Takes limits frame ↔ frame.streamId ≠ 0 ∧ (∀ generation, c.closed frame.streamId = some generation →
      generation < frame.streamGeneration) ∧ 0 < limits.maxStreams.toNat := by
  simp only [Takes, hstage, hstream, htype, if_true]

theorem takes_silent (hstage : c.stage = .talking) (hstream : c.stream = none)
    (htype : frame.type ≠ .openStream) :
    c.Takes limits frame ↔ frame.streamId = 0 ∧ frame.type ≠ .credit ∧ c.Keeps frame := by
  simp only [Takes, hstage, hstream, if_neg htype]

theorem takes_live (hstage : c.stage = .talking) (hstream : c.stream = some live) :
    c.Takes limits frame ↔
      (live.Expects frame ∨ frame.streamId = 0 ∧ frame.type ≠ .credit) ∧ c.Keeps frame := by
  simp only [Takes, hstage, hstream]

theorem not_takes_ended (hstage : c.stage = .ended) : ¬ c.Takes limits frame := by
  rw [Takes, hstage]
  exact id

theorem Models.greets (h : c.Models tables) (hstate : tables.state = .accepted) : c.stage = .greeting := by
  have hstate := h.state.symm.trans hstate
  unfold Conversation.state at hstate
  split at hstate
  · assumption
  · split_ifs at hstate
  · cases hstate

theorem Models.silent (h : c.Models tables) (hstate : tables.state = .negotiated) :
    c.stage = .talking ∧ c.stream = none := by
  have hstate := h.state.symm.trans hstate
  unfold Conversation.state at hstate
  split at hstate
  · cases hstate
  · rename_i hstage
    split_ifs at hstate with hstream
    exact ⟨hstage, by simpa using hstream⟩
  · cases hstate

theorem Models.talks (h : c.Models tables) (hstate : tables.state = .active) :
    c.stage = .talking ∧ ∃ live, c.stream = some live := by
  have hstate := h.state.symm.trans hstate
  unfold Conversation.state at hstate
  split at hstate
  · cases hstate
  · rename_i hstage
    split_ifs at hstate with hstream
    exact ⟨hstage, Option.isSome_iff_exists.mp hstream⟩
  · cases hstate

theorem Models.proceeds (h : c.Models tables) (hproceeds : tables.Proceeds frame) :
    c.stage = .talking ∧ (c.stream = none → frame.type ≠ .openStream) := by
  rcases hproceeds with hstate | ⟨hstate, htype⟩
  · obtain ⟨hstage, live, hlive⟩ := h.talks hstate
    exact ⟨hstage, fun hnone => by simp [hnone] at hlive⟩
  · exact ⟨(h.silent hstate).1, fun _ => htype⟩

theorem Models.no_stream (h : c.Models tables) (hstream : c.stream = none) : tables.streams = ∅ := by
  have hstreams := h.streams
  rw [hstream] at hstreams
  exact hstreams.eq_empty

theorem Models.open_stream (h : c.Models tables) (hstream : c.stream = some live) :
    ∃ s, live.streamId ≠ 0 ∧ live.Shows c.stage s ∧
      tables.streams = (∅ : ExtTreeMap UInt32 StreamState).insert live.streamId s := by
  have hstreams := h.streams
  rw [hstream] at hstreams
  exact hstreams.eq_insert

theorem Models.lookup (h : c.Models tables) (hstream : c.stream = some live) :
    ∃ s, live.streamId ≠ 0 ∧ live.Shows c.stage s ∧ tables.streams[live.streamId]? = some s := by
  obtain ⟨s, hid, hshows, hstreams⟩ := h.open_stream hstream
  exact ⟨s, hid, hshows, by rw [hstreams, ExtTreeMap.getElem?_insert_self]⟩

theorem expects_iff {s : StreamState} (hshows : live.Shows .talking s)
    (hlive : tables.streams[live.streamId]? = some s) :
    live.Expects frame ↔
      frame.streamId = live.streamId ∧ tables.NextOnStream frame s ∧ CreditFits live.credit frame := by
  unfold LiveStream.Expects SessionTables.NextOnStream
  rw [hshows.generation, hshows.sequence rfl]
  refine and_congr_right fun hid => ?_
  rw [hid, hlive, eq_self_iff_true, true_and, and_assoc]

/-! ## Changes -/

@[simp] theorem remember_stage (c : Conversation) (frame : FipcFrame) :
    (c.remember frame).stage = c.stage := by
  unfold remember
  split_ifs <;> rfl

@[simp] theorem remember_stream (c : Conversation) (frame : FipcFrame) :
    (c.remember frame).stream = c.stream := by
  unfold remember
  split_ifs <;> rfl

@[simp] theorem remember_closed (c : Conversation) (frame : FipcFrame) :
    (c.remember frame).closed = c.closed := by
  unfold remember
  split_ifs <;> rfl

theorem Models.remember (h : c.Models tables) (frame : FipcFrame) :
    (c.remember frame).Models { tables with idempotency := tables.remember frame } := by
  refine ⟨?_, ?_, ?_, ?_, fun token => ?_⟩
  · rw [h.state]
    simp only [Conversation.state, remember_stage, remember_stream]
  · rw [remember_stage, remember_stream]
    exact h.streams
  · rw [remember_stage, remember_stream]
    exact h.greeting
  · rw [remember_closed]
    exact h.closed
  · unfold Conversation.remember SessionTables.remember
    by_cases htype : frame.type = .buildRequest
    · rw [if_pos htype, if_pos htype]
      by_cases htoken : frame.requestToken = token
      · subst htoken
        simp
      · simp only [ExtTreeMap.getElem?_insert_of_ne htoken, Function.update_of_ne (Ne.symm htoken)]
        exact h.payloads token
    · rw [if_neg htype, if_neg htype]
      exact h.payloads token

theorem Models.keeps_iff (h : c.Models tables) (frame : FipcFrame) :
    c.Keeps frame ↔ tables.Rememberable frame := by
  unfold Keeps SessionTables.Rememberable
  simp only [h.payloads]

theorem Models.replace (h : c.Models tables) (hstream : c.stream = some live) {s : StreamState}
    (hshows : live'.Shows c.stage s) (hid : live'.streamId = live.streamId) :
    { c with stream := some live' }.Models
      { tables with streams := tables.streams.insert live.streamId s } := by
  have hstreams := h.streams
  rw [hstream] at hstreams
  refine ⟨?_, hstreams.replace hid hshows, fun hgreeting => ?_, h.closed, h.payloads⟩
  · rw [h.state]
    simp only [Conversation.state, hstream, Option.isSome_some]
  · exact absurd (h.greeting hgreeting) (by simp [hstream])

theorem Models.finish (h : c.Models tables) : c.finish.Models tables.close :=
  ⟨rfl, h.streams.ended, fun hgreeting => (by cases hgreeting), h.closed, h.payloads⟩

/-! ## One frame -/

theorem readable_of_applied {stream : StreamState} {event : SessionEvent} (hproceeds : tables.Proceeds frame)
    (hlive : tables.streams[frame.streamId]? = some stream) (htype : frame.type = .credit)
    (happly : tables.applyFrame limits frame = (.ok event, tables')) :
    ∃ amount, readU64Le frame.payload 0 = .ok amount := by
  cases hread : readU64Le frame.payload 0 with
  | ok amount => exact ⟨amount, rfl⟩
  | error status =>
    have hcredit (t : SessionTables) : t.applyCredit frame = (.error status, t) := by
      rw [SessionTables.applyCredit, if_pos htype, hread]
    rw [SessionTables.applyFrame_of_proceeds limits hproceeds] at happly
    unfold SessionTables.applyStreamFrame at happly
    simp only [hlive, hcredit] at happly
    split_ifs at happly <;> cases (Prod.mk.inj happly).1

theorem grants_eq {amount : UInt64} (htype : frame.type = .credit)
    (hread : readU64Le frame.payload 0 = .ok amount) : grants frame = amount.toNat := by
  rw [grants, if_pos htype, hread]

theorem applyStreamFrame_credit {stream : StreamState} {amount : UInt64} (htype : frame.type = .credit)
    (hnext : tables.NextOnStream frame stream) (hread : readU64Le frame.payload 0 = .ok amount)
    (hroom : stream.credit.toNat + amount.toNat < 2 ^ 64) :
    ∃ tables', tables.applyStreamFrame frame = (.ok (), tables') := by
  obtain ⟨hlive, hgeneration, hsequence⟩ := hnext
  have hrequest (t : SessionTables) : t.applyBuildRequest frame = (.ok (), t) := by
    rw [SessionTables.applyBuildRequest, if_neg (by rw [htype]; decide)]
  unfold SessionTables.applyStreamFrame
  simp only [hlive]
  rw [if_neg (by simp), if_neg (by simp [hgeneration, hsequence])]
  simp only [SessionTables.applyCredit, if_pos htype, hread, SessionTables.sendCredit,
    SessionTables.advance, ExtTreeMap.getElem?_insert_self, checkedAdd_of_lt _ hroom, hrequest]
  exact ⟨_, rfl⟩

/-- **A frame in its place** is accepted. -/
theorem Models.applies (h : c.Models tables) (htakes : c.Takes limits frame) :
    ∃ event tables', tables.applyFrame limits frame = (.ok event, tables') := by
  have hproceeds (happly : ∃ tables', tables.applyStreamFrame frame = (.ok (), tables'))
      (hp : tables.Proceeds frame) :
      ∃ event tables', tables.applyFrame limits frame = (.ok event, tables') := by
    obtain ⟨tables', happly⟩ := happly
    rw [SessionTables.applyFrame_of_proceeds limits hp, happly]
    exact ⟨_, _, rfl⟩
  have hzero : frame.streamId = 0 → tables.streams[frame.streamId]? = none := by
    intro hid
    rw [hid]
    exact h.streams.lookup_zero
  cases hstage : c.stage with
  | greeting =>
    obtain ⟨htype, hid, hsequence⟩ := (takes_greeting hstage).mp htakes
    have hstate : tables.state = .accepted := by
      rw [h.state, Conversation.state, hstage]
    unfold SessionTables.applyFrame SessionTables.applyHello
    rw [if_pos hstate, if_neg (by simp [htype, hid, hsequence])]
    exact ⟨_, _, rfl⟩
  | ended => exact absurd htakes (not_takes_ended hstage)
  | talking =>
    cases hstream : c.stream with
    | none =>
      have hstate : tables.state = .negotiated := by
        rw [h.state]
        simp [Conversation.state, hstage, hstream]
      have hempty := h.no_stream hstream
      by_cases htype : frame.type = .openStream
      · obtain ⟨hid, hclosed, hcap⟩ := (takes_opening hstage hstream htype).mp htakes
        have hadds : SessionTables.AddsStream limits tables frame := by
          refine SessionTables.addsStream_of_negotiated hstate htype hid ?_ (fun generation hretired => ?_) ?_
          · rw [hempty, ExtTreeMap.getElem?_empty]
          · exact hclosed generation (by rw [← h.closed, hretired])
          · rwa [hempty, ExtTreeMap.size_empty]
        obtain ⟨event, tables', happly, _⟩ := hadds
        exact ⟨event, tables', happly⟩
      · obtain ⟨hid, hcredit, hkeeps⟩ := (takes_silent hstage hstream htype).mp htakes
        exact hproceeds (SessionTables.applyStreamFrame_ok hcredit ((h.keeps_iff frame).mp hkeeps)
          (.inl ⟨hid, hzero hid⟩)) (.inr ⟨hstate, htype⟩)
    | some live =>
      have hstate : tables.state = .active := by
        rw [h.state]
        simp [Conversation.state, hstage, hstream]
      obtain ⟨hplace, hkeeps⟩ := (takes_live hstage hstream).mp htakes
      have hremember := (h.keeps_iff frame).mp hkeeps
      refine hproceeds ?_ (.inl hstate)
      rcases hplace with hexpects | ⟨hid, hcredit⟩
      · obtain ⟨s, _, hshows, hlive⟩ := h.lookup hstream
        rw [hstage] at hshows
        obtain ⟨_, hnext, hcredit⟩ := (expects_iff hshows hlive).mp hexpects
        by_cases htype : frame.type = .credit
        · obtain ⟨amount, hread, hroom⟩ := hcredit htype
          exact applyStreamFrame_credit htype hnext hread (by rwa [hshows.credit])
        · exact SessionTables.applyStreamFrame_ok htype hremember (.inr ⟨s, hnext⟩)
      · exact SessionTables.applyStreamFrame_ok hcredit hremember (.inl ⟨hid, hzero hid⟩)

theorem Models.take_hello (h : c.Models tables) (hstate : tables.state = .accepted) :
    (c.take frame).Models { tables with state := .negotiated } := by
  have hstage := h.greets hstate
  have hstream := h.greeting hstage
  simp only [take, hstage]
  refine ⟨?_, ?_, fun hgreeting => (by cases hgreeting), h.closed, h.payloads⟩
  · simp [Conversation.state, hstream]
  · rw [hstream, h.no_stream hstream]
    exact .silent

theorem Models.take_open (h : c.Models tables) (hstate : tables.state = .negotiated)
    (htype : frame.type = .openStream) (hid : frame.streamId ≠ 0) :
    (c.take frame).Models
      { tables with
        streams := tables.streams.insert frame.streamId { generation := frame.streamGeneration }
        state := .active } := by
  obtain ⟨hstage, hstream⟩ := h.silent hstate
  simp only [take, hstage, hstream, if_pos htype, h.no_stream hstream]
  exact ⟨by simp [Conversation.state], .opened hid ⟨rfl, rfl, fun _ => rfl⟩,
    fun hgreeting => (by cases hgreeting), h.closed, h.payloads⟩

theorem Models.take_control (h : c.Models tables) (hproceeds : tables.Proceeds frame)
    (hid : frame.streamId = 0) :
    (c.take frame).Models { tables with idempotency := tables.remember frame } := by
  obtain ⟨hstage, hopening⟩ := h.proceeds hproceeds
  have hremembers := h.remember frame
  cases hstream : c.stream with
  | none =>
    simp only [take, hstage, hstream, if_neg (hopening hstream)]
    exact hremembers
  | some live =>
    obtain ⟨_, hne, _⟩ := h.lookup hstream
    have hother : frame.streamId ≠ live.streamId := by rw [hid]; exact hne.symm
    simp only [take, hstage, hstream, if_pos hother]
    exact hremembers

theorem Models.take_next {s : StreamState} {credit : UInt64} (h : c.Models tables)
    (hproceeds : tables.Proceeds frame) (hlive : tables.streams[frame.streamId]? = some s)
    (htype : frame.type ≠ .closeStream) (hsum : credit.toNat = s.credit.toNat + grants frame) :
    (c.take frame).Models
      { tables with
        streams := tables.streams.insert frame.streamId { s with nextSequence := s.nextSequence + 1, credit }
        idempotency := tables.remember frame } := by
  obtain ⟨hstage, -⟩ := h.proceeds hproceeds
  obtain ⟨live, hstream, hid, _, hshows⟩ := h.streams.of_lookup hlive
  have hnext : LiveStream.Shows { live with frames := live.frames + 1, credit := live.credit + grants frame }
      (c.remember frame).stage { s with nextSequence := s.nextSequence + 1, credit } := by
    refine ⟨hshows.generation, by rw [hsum, hshows.credit], fun htalking => ?_⟩
    rw [remember_stage] at htalking
    dsimp only
    rw [hshows.sequence htalking, UInt64.ofNat_add]
    rfl
  have hmodels := (h.remember frame).replace ((remember_stream c frame).trans hstream) hnext rfl
  rw [hid] at hmodels
  simp only [take, hstage, hstream, hid, if_neg htype, ne_eq, not_true_eq_false, if_false]
  exact hmodels

theorem Models.take_close {s : StreamState} (h : c.Models tables) (hproceeds : tables.Proceeds frame)
    (hlive : tables.streams[frame.streamId]? = some s) (htype : frame.type = .closeStream) :
    (c.take frame).Models
      { tables with
        streams := tables.streams.erase frame.streamId
        retiredStreamGenerations := tables.retiredStreamGenerations.insert frame.streamId s.generation
        state := if (tables.streams.erase frame.streamId).isEmpty then .negotiated else .active } := by
  obtain ⟨hstage, -⟩ := h.proceeds hproceeds
  obtain ⟨live, hstream, hid, _, hshows⟩ := h.streams.of_lookup hlive
  obtain ⟨_, _, _, heq⟩ := h.open_stream hstream
  have hempty : tables.streams.erase frame.streamId = ∅ := by
    rw [heq, ← hid]
    exact ExtTreeMap.erase_insert_empty
  simp only [take, hstage, hstream, hid, if_pos htype, ne_eq, not_true_eq_false, if_false, hempty]
  refine ⟨by simp [Conversation.state], .silent, fun hgreeting => (by cases hgreeting), fun id => ?_, h.payloads⟩
  dsimp only
  by_cases hsame : frame.streamId = id
  · subst hsame
    rw [ExtTreeMap.getElem?_insert_self, Function.update_self, hshows.generation]
  · rw [ExtTreeMap.getElem?_insert_of_ne hsame, Function.update_of_ne (Ne.symm hsame), h.closed]

theorem Models.accepted {event : SessionEvent} (h : c.Models tables) (hok : Accepts limits tables frame tables')
    (happly : tables.applyFrame limits frame = (.ok event, tables')) :
    c.Takes limits frame ∧ (c.take frame).Models tables' := by
  cases hok with
  | hello hstate htype hid hsequence =>
    exact ⟨(takes_greeting (h.greets hstate)).mpr ⟨htype, hid, hsequence⟩, h.take_hello hstate⟩
  | opens hstate htype hid hlive hretired hcap =>
    obtain ⟨hstage, hstream⟩ := h.silent hstate
    rw [h.no_stream hstream, ExtTreeMap.size_empty] at hcap
    refine ⟨(takes_opening hstage hstream htype).mpr ⟨hid, fun generation hclosed => ?_, hcap⟩,
      h.take_open hstate htype hid⟩
    exact hretired generation (by rw [h.closed, hclosed])
  | control hproceeds hid hnone htype hremember =>
    obtain ⟨hstage, hopening⟩ := h.proceeds hproceeds
    have hkeeps := (h.keeps_iff frame).mpr hremember
    refine ⟨?_, h.take_control hproceeds hid⟩
    cases hstream : c.stream with
    | none => exact (takes_silent hstage hstream (hopening hstream)).mpr ⟨hid, htype, hkeeps⟩
    | some live => exact (takes_live hstage hstream).mpr ⟨.inr ⟨hid, htype⟩, hkeeps⟩
  | onStream stream credit hproceeds hlive hgeneration hsequence htype hremember =>
    obtain ⟨hstage, -⟩ := h.proceeds hproceeds
    obtain ⟨live, hstream, hid, _, hshows⟩ := h.streams.of_lookup hlive
    rw [hstage] at hshows
    obtain ⟨credit', hsum, hcredits⟩ := SessionTables.streams_onStream hproceeds hlive htype happly
    have hfits : CreditFits live.credit frame := by
      intro hcredit
      obtain ⟨amount, hread⟩ := readable_of_applied hproceeds hlive hcredit happly
      refine ⟨amount, hread, ?_⟩
      rw [← hshows.credit, ← grants_eq hcredit hread, ← hsum]
      exact credit'.toNat_lt
    have hexpects := (expects_iff hshows (hid ▸ hlive)).mpr
      ⟨hid.symm, ⟨hlive, hgeneration, hsequence⟩, hfits⟩
    refine ⟨(takes_live hstage hstream).mpr ⟨.inl hexpects, (h.keeps_iff frame).mpr hremember⟩, ?_⟩
    dsimp only at hcredits
    rw [hcredits]
    exact h.take_next hproceeds hlive htype hsum
  | closes stream hproceeds hlive hgeneration hsequence htype =>
    obtain ⟨hstage, -⟩ := h.proceeds hproceeds
    obtain ⟨live, hstream, hid, _, hshows⟩ := h.streams.of_lookup hlive
    rw [hstage] at hshows
    have hnot : frame.type ≠ .credit ∧ frame.type ≠ .buildRequest := by
      rw [htype]
      decide
    have hexpects := (expects_iff hshows (hid ▸ hlive)).mpr
      ⟨hid.symm, ⟨hlive, hgeneration, hsequence⟩, fun hcredit => absurd hcredit hnot.1⟩
    exact ⟨(takes_live hstage hstream).mpr ⟨.inl hexpects, fun hrequest => absurd hrequest hnot.2⟩,
      h.take_close hproceeds hlive htype⟩

theorem Models.refused {status : Status} (h : c.Models tables)
    (happly : tables.applyFrame limits frame = (.error status, tables')) :
    c.finish.Models tables'.close := by
  rcases SessionTables.applyFrame_cases limits tables frame with
    ⟨_, hok, _⟩ | ⟨_, hrefused, _⟩ | ⟨_, stream, _, hnext, hrefused⟩
  · rw [happly] at hok
    cases hok
  · rw [happly] at hrefused
    obtain rfl := (Prod.mk.inj hrefused).2
    exact h.finish
  · rw [happly] at hrefused
    obtain rfl := (Prod.mk.inj hrefused).2
    obtain ⟨live, hstream, hid, _, hshows⟩ := h.streams.of_lookup hnext.1
    have hcounted : live.Shows c.finish.stage { stream with nextSequence := stream.nextSequence + 1 } :=
      ⟨hshows.generation, hshows.credit, fun htalking => (by cases htalking)⟩
    have hmodels := h.finish.replace hstream hcounted rfl
    rw [hid, ← hstream] at hmodels
    exact hmodels

theorem Models.goes_on {event : SessionEvent} (h : c.Models tables)
    (happly : tables.applyFrame limits frame = (.ok event, tables')) :
    event = eventOf frame ∧ c.Takes limits frame ∧ (c.take frame).Models tables' := by
  rcases SessionTables.applyFrame_cases limits tables frame with
    ⟨other, hother, hok⟩ | ⟨_, hrefused, _⟩ | ⟨_, _, _, _, hrefused⟩
  · rw [happly] at hother
    obtain ⟨hevent, rfl⟩ := Prod.mk.inj hother
    exact ⟨Except.ok.inj hevent, h.accepted hok happly⟩
  · rw [happly] at hrefused
    cases hrefused
  · rw [happly] at hrefused
    cases hrefused

/-! ## One call -/

theorem Models.applyFrame (h : c.Models tables) (frame : FipcFrame) :
    ((⟨tables, .applyFrame frame⟩ : TableStep).Succeeds limits ↔ c.Takes limits frame) ∧
      (c.after limits (.applyFrame frame)).Models (TableStep.after limits ⟨tables, .applyFrame frame⟩) := by
  unfold TableStep.Succeeds after TableStep.after
  rcases happly : tables.applyFrame limits frame with ⟨status | event, tables'⟩
  · have hnot : ¬ c.Takes limits frame := by
      intro htakes
      obtain ⟨event, _, hok⟩ := h.applies htakes
      rw [happly] at hok
      cases hok
    simp only [happly, if_neg hnot]
    exact ⟨iff_of_false (by simp) hnot, h.refused happly⟩
  · obtain ⟨-, htakes, hmodels⟩ := h.goes_on happly
    simp only [happly, if_pos htakes]
    exact ⟨iff_of_true ⟨event, rfl⟩ htakes, hmodels⟩

theorem update_of_open (hstream : c.stream = some live) (f : LiveStream → LiveStream) :
    c.update live.streamId f = { c with stream := some (f live) } := by
  rw [update, hstream, Option.map_some, if_pos rfl]

theorem update_of_other {id : UInt32} (hother : ¬ ∃ live, c.stream = some live ∧ live.streamId = id)
    (f : LiveStream → LiveStream) : c.update id f = c := by
  obtain ⟨stage, stream, closed, payloads⟩ := c
  cases stream with
  | none => rfl
  | some live => simp only [update, Option.map_some, if_neg fun hid => hother ⟨live, rfl, hid⟩]

theorem Models.lookup_of_other (h : c.Models tables) {id : UInt32}
    (hother : ¬ ∃ live, c.stream = some live ∧ live.streamId = id) : tables.streams[id]? = none := by
  cases hlive : tables.streams[id]? with
  | none => rfl
  | some s =>
    obtain ⟨live, hstream, hid, _⟩ := h.streams.of_lookup hlive
    exact absurd ⟨live, hstream, hid⟩ hother

theorem Models.sendCredit (h : c.Models tables) (id : UInt32) (bytes : UInt64) :
    ((⟨tables, .sendCredit id bytes⟩ : TableStep).Succeeds limits ↔ c.Allows limits (.sendCredit id bytes)) ∧
      (c.after limits (.sendCredit id bytes)).Models
        (TableStep.after limits ⟨tables, .sendCredit id bytes⟩) := by
  unfold TableStep.Succeeds Allows after TableStep.after
  simp only
  by_cases hopen : ∃ live, c.stream = some live ∧ live.streamId = id
  · obtain ⟨live, hstream, rfl⟩ := hopen
    obtain ⟨s, _, hshows, hlive⟩ := h.lookup hstream
    rw [update_of_open hstream, LiveStream.grant, SessionTables.sendCredit]
    simp only [hlive, hstream, Option.some.injEq, true_and, exists_eq_left']
    by_cases hroom : live.credit + bytes.toNat < 2 ^ 64
    · have hsum := checkedAdd_of_lt "fipc-session" (show s.credit.toNat + bytes.toNat < 2 ^ 64 by
        rwa [hshows.credit])
      simp only [hsum, if_pos hroom]
      refine ⟨iff_of_true trivial hroom, h.replace hstream ⟨hshows.generation, ?_, hshows.sequence⟩ rfl⟩
      rw [toNat_of_checkedAdd hsum, hshows.credit]
    · rw [if_neg hroom, ← hstream]
      cases hsum : checkedAdd s.credit bytes "fipc-session" with
      | error status => exact ⟨iff_of_false (by simp) hroom, h⟩
      | ok credit =>
        have hcredit := toNat_of_checkedAdd hsum
        rw [hshows.credit] at hcredit
        exact absurd (hcredit ▸ credit.toNat_lt) hroom
  · rw [update_of_other hopen, SessionTables.sendCredit, h.lookup_of_other hopen]
    refine ⟨iff_of_false (by simp) ?_, h⟩
    rintro ⟨live, hstream, hid, _⟩
    exact hopen ⟨live, hstream, hid⟩

theorem Models.reserveSend (h : c.Models tables) (id : UInt32) (bytes : UInt64) (terminal : Bool) :
    ((⟨tables, .reserveSend id bytes terminal⟩ : TableStep).Succeeds limits ↔
        c.Allows limits (.reserveSend id bytes terminal)) ∧
      (c.after limits (.reserveSend id bytes terminal)).Models
        (TableStep.after limits ⟨tables, .reserveSend id bytes terminal⟩) := by
  unfold TableStep.Succeeds Allows after TableStep.after
  simp only
  by_cases hopen : ∃ live, c.stream = some live ∧ live.streamId = id
  · obtain ⟨live, hstream, rfl⟩ := hopen
    obtain ⟨s, _, hshows, hlive⟩ := h.lookup hstream
    have hshort : s.credit < bytes ↔ ¬ bytes.toNat ≤ live.credit := by
      rw [UInt64.lt_iff_toNat_lt, hshows.credit, Nat.not_le]
    rw [update_of_open hstream, LiveStream.reserve, SessionTables.reserveSend]
    simp only [hlive, hstream, Option.some.injEq, true_and, exists_eq_left', hshort]
    by_cases hfits : bytes.toNat ≤ live.credit
    · rw [if_neg (not_not_intro hfits), if_pos hfits]
      refine ⟨iff_of_true rfl (.inl hfits), h.replace hstream ⟨hshows.generation, ?_, hshows.sequence⟩ rfl⟩
      have hle : bytes ≤ s.credit := UInt64.le_iff_toNat_le.mpr (by rwa [hshows.credit])
      rw [UInt64.toNat_sub_of_le _ _ hle, hshows.credit]
    · rw [if_pos hfits, if_neg hfits]
      cases terminal with
      | false =>
        rw [← hstream]
        exact ⟨iff_of_false (by simp) (by simp [hfits]), h⟩
      | true =>
        exact ⟨iff_of_true rfl (.inr rfl),
          h.replace hstream ⟨hshows.generation, hshows.credit, hshows.sequence⟩ rfl⟩
  · rw [update_of_other hopen, SessionTables.reserveSend, h.lookup_of_other hopen]
    refine ⟨iff_of_false (by simp) ?_, h⟩
    rintro ⟨live, hstream, hid, _⟩
    exact hopen ⟨live, hstream, hid⟩

/-- **A call and the conversation**: it succeeds if the conversation allows it, and behind it the tables are
those of the conversation that goes on. -/
theorem Models.step (h : c.Models tables) (call : TableCall) :
    ((⟨tables, call⟩ : TableStep).Succeeds limits ↔ c.Allows limits call) ∧
      (c.after limits call).Models (TableStep.after limits ⟨tables, call⟩) := by
  cases call with
  | applyFrame frame => exact h.applyFrame frame
  | close => exact ⟨Iff.rfl, h.finish⟩
  | sendCredit id bytes => exact h.sendCredit id bytes
  | reserveSend id bytes terminal => exact h.reserveSend id bytes terminal

end Conversation

/-! ## Runs -/

namespace FipcSession

end FipcSession

/-! ## On the wire -/

/-- Each frame has its place behind those before it. -/
def Converses (limits : Limits) (c : Conversation) (frames : List FipcFrame) : Prop :=
  Runs.Admissible Conversation.take (Conversation.Takes limits) c frames

theorem Conversation.Models.drains {limits : Limits} {frames : List FipcFrame}
    (hfits : ∀ frame ∈ frames, FipcCodec.Fits limits frame) : ∀ {c : Conversation} {tables : SessionTables},
      c.Models tables →
        let whole := FipcSession.drainTables limits tables (frames.flatMap FipcCodec.encode)
        (whole.error = none ↔ Converses limits c frames) ∧
          (whole.error = none → whole.outputs = frames.map eventOf) := by
  induction frames with
  | nil =>
    intro c tables h
    have hfront : (FipcCodec.decoder limits).front [] = .more := @FipcCodec.parse_nil limits
    rw [List.flatMap_nil, FipcSession.drainTables, Incremental.drain_more hfront]
    exact ⟨iff_of_true rfl trivial, fun _ => rfl⟩
  | cons frame frames ih =>
    intro c tables h
    have hfront : (FipcCodec.decoder limits).front
        (FipcCodec.encode frame ++ frames.flatMap FipcCodec.encode) =
          .frame frame (frames.flatMap FipcCodec.encode) :=
      FipcCodec.parse_encode (hfits frame List.mem_cons_self) _
    rw [List.flatMap_cons, FipcSession.drainTables]
    rcases happly : tables.applyFrame limits frame with ⟨status | event, tables'⟩
    · rw [Incremental.drain_refused hfront happly]
      have hnot : ¬ Converses limits c (frame :: frames) := by
        rintro ⟨htakes, -⟩
        obtain ⟨event, _, hok⟩ := h.applies htakes
        rw [happly] at hok
        cases hok
      exact ⟨iff_of_false (by simp) hnot, by simp⟩
    · obtain ⟨rfl, htakes, hmodels⟩ := h.goes_on happly
      obtain ⟨herror, houtputs⟩ := ih (fun other hother => hfits other (List.mem_cons_of_mem _ hother)) hmodels
      rw [Incremental.drain_frame hfront happly]
      exact ⟨herror.trans (by rw [Converses, Converses, Runs.Admissible, and_iff_right htakes]),
        fun hnone => congrArg (eventOf frame :: ·) (houtputs hnone)⟩

namespace FipcSession

/-- **What a session reads**: frames come through without an error, in any chunks beside which a frame has
room, exactly if each has its place in the conversation; and then their events are delivered. -/
theorem session_reads_iff (limits : Limits) (hmin : 40 ≤ limits.maxFrameBytes.toNat) (frames : List FipcFrame)
    (hfits : ∀ frame ∈ frames, FipcCodec.Fits limits frame) (chunks : List Bytes)
    (hstream : chunks.flatten = frames.flatMap FipcCodec.encode)
    (hchunks : ∀ chunk ∈ chunks,
      chunk.length + limits.maxFrameBytes.toNat ≤ limits.maxSingleAllocation.toNat) :
    let delivery := (init limits).feedAll chunks
    (delivery.error = none ↔ Converses limits {} frames) ∧
      (delivery.error = none → delivery.outputs = frames.map eventOf) := by
  have hempty : FipcCodec.parse limits [] = .more := FipcCodec.parse_nil
  have hdelivery : (init limits).feedAll chunks = closeOnError
      (Incremental.feedChunks (FipcCodec.decoder limits) (SessionTables.applyFrame limits) {} [] chunks) :=
    feedAll_eq hmin chunks hchunks {} [] hempty
  have hwhole := Conversation.models_init.drains hfits
  rw [← hstream] at hwhole
  obtain ⟨herror, houtputs⟩ := hwhole
  rw [hdelivery]
  rcases Incremental.feedChunks_eq (FipcCodec.decoder limits) (SessionTables.applyFrame limits) (s := {}) hempty
    chunks with ⟨hnone, heq⟩ | ⟨p, status, _, hsome, heq⟩
  · rw [heq]
    exact ⟨iff_of_true rfl (herror.mp hnone), fun _ => houtputs hnone⟩
  · have hnot : ¬ Converses limits {} frames := by
      rw [← herror, hsome]
      simp
    rw [heq]
    exact ⟨iff_of_false (by simp [closeOnError]) hnot, by simp [closeOnError]⟩

/-- A stream that is opened, gets credit, is closed and opened again, with a request on the connection in
between and the chunks cut inside frames. -/
theorem session_reads_iff_reopened :
    Converses {} {} [{ type := .hello }, { type := .openStream, streamId := 1, streamGeneration := 1 },
      { type := .credit, streamId := 1, streamGeneration := 1, payload := [5, 0, 0, 0, 0, 0, 0, 0] },
      { type := .buildRequest, requestToken := 3, payload := [7] },
      { type := .closeStream, streamId := 1, streamGeneration := 1, sequence := 1 },
      { type := .openStream, streamId := 1, streamGeneration := 2 }] := by
  let frames : List FipcFrame := [{ type := .hello },
    { type := .openStream, streamId := 1, streamGeneration := 1 },
    { type := .credit, streamId := 1, streamGeneration := 1, payload := [5, 0, 0, 0, 0, 0, 0, 0] },
    { type := .buildRequest, requestToken := 3, payload := [7] },
    { type := .closeStream, streamId := 1, streamGeneration := 1, sequence := 1 },
    { type := .openStream, streamId := 1, streamGeneration := 2 }]
  let bytes := frames.flatMap FipcCodec.encode
  have hreads := session_reads_iff {} (by decide) frames (by decide) [bytes.take 70, bytes.drop 70]
    (by simp [bytes]) (by decide +kernel)
  exact hreads.1.mp (by decide +kernel)

end FipcSession

end Forge
