import Forge.Ipc.Session

/-!
# Runs of a session

What one call of `apply_frame` does, said once: `Accepts` lists the ways a frame is accepted and
`applyFrame_error` what a rejected frame changes. A run of a session (feeds with `send_credit` and
`reserve_send` in between) is read as the calls it makes on the tables, in order and with the tables
before each (`trace`); `traced_run` gives the induction over such runs.
-/

namespace Forge

open Std (ExtTreeMap)

namespace SessionTables

/-! ## Accepted frames -/

/-- `idempotency_` behind an accepted frame. -/
def remember (tables : SessionTables) (frame : FipcFrame) : ExtTreeMap UInt64 Bytes :=
  if frame.type = .buildRequest then tables.idempotency.insert frame.requestToken frame.payload
  else tables.idempotency

/-- The state in which a frame is not taken for a hello or an opening. -/
def Proceeds (tables : SessionTables) (frame : FipcFrame) : Prop :=
  tables.state = .active ∨ tables.state = .negotiated ∧ frame.type ≠ .openStream

/-- A build request whose token is not in use for another payload. -/
def Rememberable (tables : SessionTables) (frame : FipcFrame) : Prop :=
  frame.type = .buildRequest → ∀ prior, tables.idempotency[frame.requestToken]? = some prior →
    prior = frame.payload

/-- The ways a frame is accepted, with the tables behind it. -/
inductive Accepts (limits : Limits) (tables : SessionTables) (frame : FipcFrame) : SessionTables → Prop
  | hello (hstate : tables.state = .accepted) (htype : frame.type = .hello) (hid : frame.streamId = 0)
      (hsequence : frame.sequence = 0) : Accepts limits tables frame { tables with state := .negotiated }
  | opens (hstate : tables.state = .negotiated) (htype : frame.type = .openStream)
      (hid : frame.streamId ≠ 0)
      (hlive : ∀ stream, tables.streams[frame.streamId]? = some stream →
        stream.generation < frame.streamGeneration)
      (hretired : ∀ generation, tables.retiredStreamGenerations[frame.streamId]? = some generation →
        generation < frame.streamGeneration)
      (hcap : tables.streams.size < limits.maxStreams.toNat) :
      Accepts limits tables frame
        { tables with
          streams := tables.streams.insert frame.streamId { generation := frame.streamGeneration }
          state := .active }
  | control (hproceeds : tables.Proceeds frame) (hid : frame.streamId = 0)
      (hnone : tables.streams[frame.streamId]? = none) (htype : frame.type ≠ .credit)
      (hremember : tables.Rememberable frame) :
      Accepts limits tables frame { tables with idempotency := tables.remember frame }
  | onStream (stream : StreamState) (credit : UInt64) (hproceeds : tables.Proceeds frame)
      (hlive : tables.streams[frame.streamId]? = some stream)
      (hgeneration : stream.generation = frame.streamGeneration)
      (hsequence : stream.nextSequence = frame.sequence) (htype : frame.type ≠ .closeStream)
      (hremember : tables.Rememberable frame) :
      Accepts limits tables frame
        { tables with
          streams := tables.streams.insert frame.streamId
            { stream with nextSequence := stream.nextSequence + 1, credit }
          idempotency := tables.remember frame }
  | closes (stream : StreamState) (hproceeds : tables.Proceeds frame)
      (hlive : tables.streams[frame.streamId]? = some stream)
      (hgeneration : stream.generation = frame.streamGeneration)
      (hsequence : stream.nextSequence = frame.sequence) (htype : frame.type = .closeStream) :
      Accepts limits tables frame
        { tables with
          streams := tables.streams.erase frame.streamId
          retiredStreamGenerations :=
            tables.retiredStreamGenerations.insert frame.streamId stream.generation
          state := if (tables.streams.erase frame.streamId).isEmpty then .negotiated else .active }

variable {limits : Limits} {tables tables' : SessionTables} {frame : FipcFrame}

theorem applyHello_cases (limits : Limits) (hstate : tables.state = .accepted) (frame : FipcFrame) :
    (∃ status, tables.applyHello frame = (.error status, tables)) ∨
      ∃ tables', tables.applyHello frame = (.ok (), tables') ∧ Accepts limits tables frame tables' := by
  unfold applyHello
  split_ifs with hbad
  · exact .inl ⟨_, rfl⟩
  · rw [not_or, not_or, not_not, not_not, not_not] at hbad
    exact .inr ⟨_, rfl, .hello hstate hbad.1 hbad.2.1 hbad.2.2⟩

theorem applyOpenStream_cases (limits : Limits) (hstate : tables.state = .negotiated)
    (htype : frame.type = .openStream) :
    (∃ status, tables.applyOpenStream limits frame = (.error status, tables)) ∨
      ∃ tables', tables.applyOpenStream limits frame = (.ok (), tables') ∧
        Accepts limits tables frame tables' := by
  unfold applyOpenStream
  dsimp only
  split_ifs with hreuse hcap
  · exact .inl ⟨_, rfl⟩
  · exact .inl ⟨_, rfl⟩
  · rw [not_or, not_or] at hreuse
    obtain ⟨hid, hlive, hretired⟩ := hreuse
    refine .inr ⟨_, rfl, .opens hstate htype hid (fun stream hstream => ?_)
      (fun generation hgeneration => ?_) (Nat.lt_of_not_le hcap)⟩
    · simpa [hstream] using hlive
    · simpa [hgeneration] using hretired

theorem sendCredit_cases (tables : SessionTables) (streamId : UInt32) (bytes : UInt64) :
    (∃ status, tables.sendCredit streamId bytes = (.error status, tables)) ∨
      ∃ stream credit, tables.streams[streamId]? = some stream ∧
        credit.toNat = stream.credit.toNat + bytes.toNat ∧
        tables.sendCredit streamId bytes =
          (.ok (), { tables with streams := tables.streams.insert streamId { stream with credit } }) := by
  unfold sendCredit
  split
  · exact .inl ⟨_, rfl⟩
  · rename_i stream hstream
    split
    · exact .inl ⟨_, rfl⟩
    · rename_i credit hsum
      exact .inr ⟨stream, credit, hstream, toNat_of_checkedAdd hsum, rfl⟩

/-- What a frame adds to the credit of its stream, if it is accepted. -/
def grants (frame : FipcFrame) : Nat :=
  if frame.type = .credit then
    match readU64Le frame.payload 0 with
    | .ok credit => credit.toNat
    | .error _ => 0
  else 0

theorem grants_of_ne (h : frame.type ≠ .credit) : grants frame = 0 := if_neg h

theorem applyCredit_cases (tables : SessionTables) (frame : FipcFrame) :
    (frame.type ≠ .credit ∧ tables.applyCredit frame = (.ok (), tables)) ∨
      (∃ status, tables.applyCredit frame = (.error status, tables)) ∨
      frame.type = .credit ∧ ∃ stream credit, tables.streams[frame.streamId]? = some stream ∧
        credit.toNat = stream.credit.toNat + grants frame ∧
        tables.applyCredit frame = (.ok (),
          { tables with streams := tables.streams.insert frame.streamId { stream with credit } }) := by
  unfold applyCredit
  by_cases htype : frame.type = .credit
  · rw [if_pos htype]
    split
    · exact .inr (.inl ⟨_, rfl⟩)
    · rename_i bytes hbytes
      have hgrants : grants frame = bytes.toNat := by
        rw [grants, if_pos htype, hbytes]
      rcases sendCredit_cases tables frame.streamId bytes with herror | hok
      · exact .inr (.inl herror)
      · rw [hgrants]
        exact .inr (.inr ⟨htype, hok⟩)
  · rw [if_neg htype]
    exact .inl ⟨htype, rfl⟩

theorem applyBuildRequest_cases (tables : SessionTables) (frame : FipcFrame) :
    (frame.type = .buildRequest ∧ ∃ status, tables.applyBuildRequest frame = (.error status, tables)) ∨
      (tables.Rememberable frame ∧
        tables.applyBuildRequest frame =
          (.ok (), { tables with idempotency := tables.remember frame })) := by
  unfold applyBuildRequest remember Rememberable
  by_cases htype : frame.type = .buildRequest
  · rw [if_pos htype, if_pos htype]
    split_ifs with hconflict
    · exact .inl ⟨htype, _, rfl⟩
    · refine .inr ⟨fun _ prior hprior => ?_, rfl⟩
      simpa [hprior] using hconflict
  · rw [if_neg htype, if_neg htype]
    exact .inr ⟨fun h => absurd h htype, rfl⟩

/-- The frame is the next one of a live stream. -/
def NextOnStream (tables : SessionTables) (frame : FipcFrame) (stream : StreamState) : Prop :=
  tables.streams[frame.streamId]? = some stream ∧ stream.generation = frame.streamGeneration ∧
    stream.nextSequence = frame.sequence

theorem applyStreamFrame_control (limits : Limits) (hproceeds : tables.Proceeds frame)
    (hnone : tables.streams[frame.streamId]? = none) :
    (∃ status, tables.applyStreamFrame frame = (.error status, tables)) ∨
      ∃ tables', tables.applyStreamFrame frame = (.ok (), tables') ∧
        Accepts limits tables frame tables' := by
  unfold applyStreamFrame
  simp only [hnone]
  by_cases hid : frame.streamId = 0
  · rw [if_neg (by simp [hid]), if_neg (by simp)]
    simp only [advance]
    rcases applyCredit_cases tables frame with ⟨htype, hcredit⟩ | ⟨status, hcredit⟩ | ⟨_, stream, _, hlive, _, _⟩
    · rw [hcredit]
      simp only
      rcases applyBuildRequest_cases tables frame with ⟨_, status, hrequest⟩ | ⟨hremember, hrequest⟩
      · rw [hrequest]
        exact .inl ⟨status, rfl⟩
      · rw [hrequest]
        exact .inr ⟨_, rfl, .control hproceeds hid hnone htype hremember⟩
    · rw [hcredit]
      exact .inl ⟨status, rfl⟩
    · rw [hnone] at hlive
      cases hlive
  · rw [if_pos ⟨hid, trivial⟩]
    exact .inl ⟨_, rfl⟩

/-- The tables with the stream of a frame advanced, and its credit set. -/
def advanced (tables : SessionTables) (streamId : UInt32) (stream : StreamState) (credit : UInt64) :
    SessionTables :=
  { tables with
    streams := tables.streams.insert streamId
      { stream with nextSequence := stream.nextSequence + 1, credit } }

theorem applyCredit_advance (stream : StreamState) :
    (∃ status, (tables.advance frame.streamId (some stream)).applyCredit frame =
        (.error status, tables.advance frame.streamId (some stream))) ∨
      ∃ credit, (tables.advance frame.streamId (some stream)).applyCredit frame =
          (.ok (), tables.advanced frame.streamId stream credit) ∧
        credit.toNat = stream.credit.toNat + grants frame := by
  rcases applyCredit_cases (tables.advance frame.streamId (some stream)) frame with
    ⟨htype, hcredit⟩ | herror | ⟨_, live, credit, hlive, hsum, hcredit⟩
  · exact .inr ⟨stream.credit, hcredit, by rw [grants_of_ne htype, Nat.add_zero]⟩
  · exact .inl herror
  · right
    have hsame : live = { stream with nextSequence := stream.nextSequence + 1 } := by
      simpa [advance] using hlive.symm
    refine ⟨credit, hcredit.trans ?_, by rw [hsum, hsame]⟩
    have htwice : (tables.streams.insert frame.streamId
        { stream with nextSequence := stream.nextSequence + 1 }).insert frame.streamId
          { stream with nextSequence := stream.nextSequence + 1, credit } =
        tables.streams.insert frame.streamId
          { stream with nextSequence := stream.nextSequence + 1, credit } := by
      apply ExtTreeMap.ext_getElem?
      intro k
      simp only [ExtTreeMap.getElem?_insert]
      split_ifs <;> rfl
    rw [hsame]
    simp only [advance, advanced, htwice]

theorem applyCloseStream_advanced (stream : StreamState) (credit : UInt64)
    (htype : frame.type = .closeStream) :
    (tables.advanced frame.streamId stream credit).applyCloseStream frame (some stream) =
      { tables with
        streams := tables.streams.erase frame.streamId
        retiredStreamGenerations :=
          tables.retiredStreamGenerations.insert frame.streamId stream.generation
        state := if (tables.streams.erase frame.streamId).isEmpty then .negotiated else .active } := by
  have herase : (tables.streams.insert frame.streamId
      { stream with nextSequence := stream.nextSequence + 1, credit }).erase frame.streamId =
      tables.streams.erase frame.streamId := by
    apply ExtTreeMap.ext_getElem?
    intro k
    simp only [ExtTreeMap.getElem?_erase, ExtTreeMap.getElem?_insert]
    split_ifs <;> rfl
  unfold applyCloseStream advanced
  simp only [htype, if_true, herase]

/-- A frame on a live stream is refused unchanged when it is not the next one; when it is, it is
accepted, or refused with its sequence number counted. -/
theorem applyStreamFrame_stream (limits : Limits) (hproceeds : tables.Proceeds frame) {stream : StreamState}
    (hlive : tables.streams[frame.streamId]? = some stream) :
    (¬ tables.NextOnStream frame stream ∧
        ∃ status, tables.applyStreamFrame frame = (.error status, tables)) ∨
      (tables.NextOnStream frame stream ∧
        ((∃ status, tables.applyStreamFrame frame =
            (.error status, tables.advance frame.streamId (some stream))) ∨
          ∃ tables', tables.applyStreamFrame frame = (.ok (), tables') ∧
            Accepts limits tables frame tables')) := by
  unfold applyStreamFrame
  simp only [hlive]
  rw [if_neg (by simp)]
  by_cases hnext : stream.generation = frame.streamGeneration ∧ stream.nextSequence = frame.sequence
  · right
    refine ⟨⟨hlive, hnext⟩, ?_⟩
    rw [if_neg (by simp [hnext.1, hnext.2])]
    rcases @applyCredit_advance tables frame stream with ⟨status, hcredit⟩ | ⟨credit, hcredit, hsum⟩
    · rw [hcredit]
      exact .inl ⟨status, rfl⟩
    · rw [hcredit]
      simp only
      rcases applyBuildRequest_cases (tables.advanced frame.streamId stream credit) frame with
        ⟨htype, status, hrequest⟩ | ⟨hremember, hrequest⟩
      · -- a build request sets no credit
        have hnot : frame.type ≠ .credit := by
          rw [htype]
          decide
        have hkept : credit = stream.credit := by
          rw [grants_of_ne hnot, Nat.add_zero] at hsum
          exact UInt64.toNat.inj hsum
        rw [hrequest, hkept]
        exact .inl ⟨status, rfl⟩
      · rw [hrequest]
        right
        by_cases htype : frame.type = .closeStream
        · refine ⟨_, rfl, ?_⟩
          have hsame : (tables.advanced frame.streamId stream credit).remember frame =
              tables.idempotency := by
            unfold remember
            rw [if_neg (by rw [htype]; decide)]
            rfl
          rw [hsame]
          have hclose := @applyCloseStream_advanced tables frame stream credit htype
          rw [show ({ tables.advanced frame.streamId stream credit with
            idempotency := tables.idempotency } : SessionTables) =
              tables.advanced frame.streamId stream credit from rfl, hclose]
          exact .closes stream hproceeds hlive hnext.1 hnext.2 htype
        · refine ⟨_, ?_, .onStream stream credit hproceeds hlive hnext.1 hnext.2 htype hremember⟩
          unfold applyCloseStream
          simp only [if_neg htype]
          rfl
  · left
    refine ⟨fun h => hnext h.2, sessionError "nonmonotonic stream sequence or generation", ?_⟩
    rw [if_pos]
    rw [not_and_or] at hnext
    simpa using hnext

theorem applyStreamFrame_ok (htype : frame.type ≠ .credit) (hremember : tables.Rememberable frame)
    (hplace : (frame.streamId = 0 ∧ tables.streams[frame.streamId]? = none) ∨
      ∃ stream, tables.NextOnStream frame stream) :
    ∃ tables', tables.applyStreamFrame frame = (.ok (), tables') := by
  have hcredit (t : SessionTables) : t.applyCredit frame = (.ok (), t) := if_neg htype
  have hrequest (t : SessionTables) (ht : t.idempotency = tables.idempotency) :
      ∃ t', t.applyBuildRequest frame = (.ok (), t') := by
    unfold applyBuildRequest
    rw [ht]
    split_ifs with hbuild hconflict
    · rw [Option.any_eq_true] at hconflict
      obtain ⟨prior, hprior, hne⟩ := hconflict
      exact absurd (hremember hbuild prior hprior) (of_decide_eq_true hne)
    · exact ⟨_, rfl⟩
    · exact ⟨_, rfl⟩
  unfold applyStreamFrame
  rcases hplace with ⟨hid, hnone⟩ | ⟨stream, hlive, hgeneration, hsequence⟩
  · obtain ⟨tables', hok⟩ := hrequest (tables.advance frame.streamId none) rfl
    simp only [hnone]
    rw [if_neg (by simp [hid]), if_neg (by simp)]
    simp only [hcredit, hok]
    exact ⟨_, rfl⟩
  · obtain ⟨tables', hok⟩ := hrequest (tables.advance frame.streamId (some stream)) rfl
    simp only [hlive]
    rw [if_neg (by simp), if_neg (by simp [hgeneration, hsequence])]
    simp only [hcredit, hok]
    exact ⟨_, rfl⟩

/-! ## One frame -/

theorem not_proceeds_of_accepted (hstate : tables.state = .accepted) : ¬ tables.Proceeds frame := by
  unfold Proceeds
  simp [hstate]

theorem not_proceeds_of_open (hstate : tables.state = .negotiated) (htype : frame.type = .openStream) :
    ¬ tables.Proceeds frame := by
  unfold Proceeds
  simp [hstate, htype]

/-- The event of a frame. -/
def eventOf (frame : FipcFrame) : SessionEvent :=
  ⟨frame.type, frame.streamId, frame.sequence, frame.requestToken⟩

theorem applyFrame_of_proceeds (limits : Limits) (hproceeds : tables.Proceeds frame) :
    tables.applyFrame limits frame =
      ((tables.applyStreamFrame frame).1.map fun _ => eventOf frame,
        (tables.applyStreamFrame frame).2) := by
  have haccepted : ¬ tables.state = .accepted := fun h => not_proceeds_of_accepted h hproceeds
  have hopen : ¬ (tables.state = .negotiated ∧ frame.type = .openStream) :=
    fun h => not_proceeds_of_open h.1 h.2 hproceeds
  have hclosed : ¬ (tables.state ≠ .active ∧ tables.state ≠ .negotiated) :=
    fun h => hproceeds.elim h.1 fun hnegotiated => h.2 hnegotiated.1
  unfold applyFrame
  rw [if_neg haccepted, if_neg hopen, if_neg hclosed]
  rfl

/-- **What a frame does**: it is accepted, or refused with the tables as they were, or refused as the
next frame of a live stream with its sequence number counted. -/
theorem applyFrame_cases (limits : Limits) (tables : SessionTables) (frame : FipcFrame) :
    (∃ tables', tables.applyFrame limits frame = (.ok (eventOf frame), tables') ∧
        Accepts limits tables frame tables') ∨
      (∃ status, tables.applyFrame limits frame = (.error status, tables) ∧
        ¬ (tables.Proceeds frame ∧ ∃ stream, tables.NextOnStream frame stream)) ∨
      ∃ status stream, tables.Proceeds frame ∧ tables.NextOnStream frame stream ∧
        tables.applyFrame limits frame =
          (.error status, tables.advance frame.streamId (some stream)) := by
  by_cases hproceeds : tables.Proceeds frame
  · rw [applyFrame_of_proceeds limits hproceeds]
    cases hlive : tables.streams[frame.streamId]? with
    | none =>
      have hnot : ¬ ∃ stream, tables.NextOnStream frame stream := by
        rintro ⟨stream, hstream, _⟩
        rw [hlive] at hstream
        cases hstream
      rcases applyStreamFrame_control limits hproceeds hlive with ⟨status, h⟩ | ⟨tables', h, hok⟩
      · rw [h]
        exact .inr (.inl ⟨status, rfl, fun hnext => hnot hnext.2⟩)
      · rw [h]
        exact .inl ⟨tables', rfl, hok⟩
    | some stream =>
      rcases applyStreamFrame_stream limits hproceeds hlive with
        ⟨hnext, status, h⟩ | ⟨hnext, ⟨status, h⟩ | ⟨tables', h, hok⟩⟩
      · rw [h]
        refine .inr (.inl ⟨status, rfl, ?_⟩)
        rintro ⟨_, live, hnext'⟩
        obtain rfl : stream = live := Option.some.inj (hlive.symm.trans hnext'.1)
        exact hnext hnext'
      · rw [h]
        exact .inr (.inr ⟨status, stream, hproceeds, hnext, rfl⟩)
      · rw [h]
        exact .inl ⟨tables', rfl, hok⟩
  · have hnot : ¬ (tables.Proceeds frame ∧ ∃ stream, tables.NextOnStream frame stream) :=
      fun h => hproceeds h.1
    unfold applyFrame
    dsimp only
    by_cases haccepted : tables.state = .accepted
    · rw [if_pos haccepted]
      rcases applyHello_cases limits haccepted frame with ⟨status, h⟩ | ⟨tables', h, hok⟩
      · rw [h]
        exact .inr (.inl ⟨status, rfl, hnot⟩)
      · rw [h]
        exact .inl ⟨tables', rfl, hok⟩
    · rw [if_neg haccepted]
      by_cases hopen : tables.state = .negotiated ∧ frame.type = .openStream
      · rw [if_pos hopen]
        rcases applyOpenStream_cases limits hopen.1 hopen.2 with ⟨status, h⟩ | ⟨tables', h, hok⟩
        · rw [h]
          exact .inr (.inl ⟨status, rfl, hnot⟩)
        · rw [h]
          exact .inl ⟨tables', rfl, hok⟩
      · rw [if_neg hopen, if_pos]
        · exact .inr (.inl ⟨_, rfl, hnot⟩)
        · unfold Proceeds at hproceeds
          rw [not_or] at hproceeds
          refine ⟨hproceeds.1, fun hnegotiated => hproceeds.2 ⟨hnegotiated, fun htype => ?_⟩⟩
          exact hopen ⟨hnegotiated, htype⟩

end SessionTables

/-! ## Calls on the tables -/

/-- A call on the tables of a session; `close` is made when the codec closes. -/
inductive TableCall
  | applyFrame (frame : FipcFrame)
  | close
  | sendCredit (streamId : UInt32) (bytes : UInt64)
  | reserveSend (streamId : UInt32) (bytes : UInt64) (terminal : Bool)
deriving DecidableEq, Repr

/-- A call with the tables it is made on. -/
structure TableStep where
  tables : SessionTables
  call : TableCall
deriving DecidableEq

namespace TableStep

/-- The tables behind a step. A refused frame closes the session. -/
def after (limits : Limits) (step : TableStep) : SessionTables :=
  match step.call with
  | .applyFrame frame =>
    match step.tables.applyFrame limits frame with
    | (.ok _, tables) => tables
    | (.error _, tables) => tables.close
  | .close => step.tables.close
  | .sendCredit streamId bytes => (step.tables.sendCredit streamId bytes).2
  | .reserveSend streamId bytes terminal => (step.tables.reserveSend streamId bytes terminal).2

/-- The frame of a step that accepts one. -/
def acceptedFrame (limits : Limits) (step : TableStep) : Option FipcFrame :=
  match step.call with
  | .applyFrame frame =>
    match step.tables.applyFrame limits frame with
    | (.ok _, _) => some frame
    | (.error _, _) => none
  | _ => none

end TableStep

theorem TableStep.call_of_acceptedFrame {limits : Limits} {step : TableStep} {frame : FipcFrame}
    (h : step.acceptedFrame limits = some frame) : step.call = .applyFrame frame := by
  obtain ⟨tables, other | _ | _ | _⟩ := step
  · unfold acceptedFrame at h
    rcases happly : tables.applyFrame limits other with ⟨_ | _, _⟩
    · simp only [happly] at h
      cases h
    · simp only [happly] at h
      rw [Option.some.inj h]
  · cases h
  · cases h
  · cases h

theorem TableStep.acceptedFrame_of_proceeds {limits : Limits} {tables : SessionTables} {frame : FipcFrame}
    (hproceeds : tables.Proceeds frame) (htype : frame.type ≠ .credit)
    (hremember : tables.Rememberable frame)
    (hplace : (frame.streamId = 0 ∧ tables.streams[frame.streamId]? = none) ∨
      ∃ stream, tables.NextOnStream frame stream) :
    acceptedFrame limits ⟨tables, .applyFrame frame⟩ = some frame := by
  obtain ⟨tables', hstream⟩ := SessionTables.applyStreamFrame_ok htype hremember hplace
  have happly := SessionTables.applyFrame_of_proceeds limits hproceeds
  rw [hstream] at happly
  simp only [acceptedFrame, happly, Except.map]

/-- The accepted frames of a run, in order. -/
def acceptedFrames (limits : Limits) (steps : List TableStep) : List FipcFrame :=
  steps.filterMap (TableStep.acceptedFrame limits)

/-- The steps that calls make, one after the other. -/
def stepsFrom (limits : Limits) : SessionTables → List TableCall → List TableStep
  | _, [] => []
  | tables, call :: calls => ⟨tables, call⟩ :: stepsFrom limits (TableStep.after limits ⟨tables, call⟩) calls

/-- The tables behind calls. -/
def tablesAfter (limits : Limits) (tables : SessionTables) (calls : List TableCall) : SessionTables :=
  calls.foldl (fun tables call => TableStep.after limits ⟨tables, call⟩) tables

/-- The steps of a run from the tables of a new session, with the tables behind them. -/
inductive Traced (limits : Limits) : List TableStep → SessionTables → Prop
  | nil : Traced limits [] {}
  | snoc {steps : List TableStep} {tables : SessionTables} (before : Traced limits steps tables)
      (call : TableCall) :
      Traced limits (steps ++ [⟨tables, call⟩]) (TableStep.after limits ⟨tables, call⟩)

theorem Traced.append {limits : Limits} (calls : List TableCall) :
    ∀ {steps : List TableStep} {tables : SessionTables}, Traced limits steps tables →
      Traced limits (steps ++ stepsFrom limits tables calls) (tablesAfter limits tables calls) := by
  induction calls with
  | nil =>
    intro steps tables h
    rw [stepsFrom, List.append_nil]
    exact h
  | cons call calls ih =>
    intro steps tables h
    have hrest := ih (h.snoc call)
    rw [List.append_assoc] at hrest
    exact hrest

/-! ## One step -/

/-- The tables differ at most in the credit and the pending terminal events of their streams. -/
structure SameSequences (tables tables' : SessionTables) : Prop where
  state : tables'.state = tables.state
  retired : tables'.retiredStreamGenerations = tables.retiredStreamGenerations
  idempotency : tables'.idempotency = tables.idempotency
  streams : ∀ id : UInt32, tables'.streams[id]?.map (fun s => (s.generation, s.nextSequence)) =
    tables.streams[id]?.map fun s => (s.generation, s.nextSequence)

/-- The tables are the same, or one stream is replaced by one of its generation. -/
inductive SessionTables.Refreshes (tables : SessionTables) : SessionTables → Prop
  | same : Refreshes tables tables
  | stream {id : UInt32} {stream : StreamState} (stream' : StreamState)
      (hlive : tables.streams[id]? = some stream) (hgeneration : stream'.generation = stream.generation) :
      Refreshes tables { tables with streams := tables.streams.insert id stream' }

theorem refreshes_same (tables : SessionTables) : tables.Refreshes tables ∧ SameSequences tables tables :=
  ⟨.same, rfl, rfl, rfl, fun _ => rfl⟩

theorem refreshes_insert {tables : SessionTables} {streamId : UInt32} {stream stream' : StreamState}
    (hlive : tables.streams[streamId]? = some stream) (hgeneration : stream'.generation = stream.generation)
    (hsequence : stream'.nextSequence = stream.nextSequence) :
    tables.Refreshes { tables with streams := tables.streams.insert streamId stream' } ∧
      SameSequences tables { tables with streams := tables.streams.insert streamId stream' } := by
  refine ⟨.stream stream' hlive hgeneration, rfl, rfl, rfl, fun id => ?_⟩
  by_cases hid : streamId = id
  · subst hid
    rw [ExtTreeMap.getElem?_insert_self, hlive]
    simp [hgeneration, hsequence]
  · rw [ExtTreeMap.getElem?_insert_of_ne hid]

theorem refreshes_sendCredit (tables : SessionTables) (streamId : UInt32) (bytes : UInt64) :
    tables.Refreshes (tables.sendCredit streamId bytes).2 ∧
      SameSequences tables (tables.sendCredit streamId bytes).2 := by
  rcases SessionTables.sendCredit_cases tables streamId bytes with
    ⟨status, h⟩ | ⟨stream, credit, hlive, _, h⟩
  · rw [h]
    exact refreshes_same tables
  · rw [h]
    exact refreshes_insert hlive rfl rfl

theorem refreshes_reserveSend (tables : SessionTables) (streamId : UInt32) (bytes : UInt64)
    (terminal : Bool) : tables.Refreshes (tables.reserveSend streamId bytes terminal).2 ∧
      SameSequences tables (tables.reserveSend streamId bytes terminal).2 := by
  unfold SessionTables.reserveSend
  split
  · exact refreshes_same tables
  · rename_i stream hlive
    split_ifs
    · exact refreshes_insert hlive rfl rfl
    · exact refreshes_same tables
    · exact refreshes_insert hlive rfl rfl

/-- **What a step does**: it accepts a frame, or closes the session and refreshes the tables at most, or is
about credit. -/
theorem TableStep.effect (limits : Limits) (step : TableStep) :
    (∃ frame, step.call = .applyFrame frame ∧ step.acceptedFrame limits = some frame ∧
        SessionTables.Accepts limits step.tables frame (step.after limits)) ∨
      (step.acceptedFrame limits = none ∧
        ∃ tables, step.tables.Refreshes tables ∧ step.after limits = tables.close) ∨
      (step.acceptedFrame limits = none ∧ step.tables.Refreshes (step.after limits) ∧
        SameSequences step.tables (step.after limits)) := by
  obtain ⟨tables, frame | _ | ⟨streamId, bytes⟩ | ⟨streamId, bytes, terminal⟩⟩ := step
  · unfold acceptedFrame after
    rcases SessionTables.applyFrame_cases limits tables frame with
      ⟨tables', happly, hok⟩ | ⟨status, happly, _⟩ | ⟨status, stream, _, hnext, happly⟩
    · simp only [happly]
      exact .inl ⟨frame, rfl, rfl, hok⟩
    · simp only [happly]
      exact .inr (.inl ⟨trivial, tables, .same, rfl⟩)
    · simp only [happly]
      exact .inr (.inl ⟨trivial, _,
        .stream { stream with nextSequence := stream.nextSequence + 1 } hnext.1 rfl, rfl⟩)
  · exact .inr (.inl ⟨rfl, tables, .same, rfl⟩)
  · exact .inr (.inr ⟨rfl, refreshes_sendCredit tables streamId bytes⟩)
  · exact .inr (.inr ⟨rfl, refreshes_reserveSend tables streamId bytes terminal⟩)

theorem SessionTables.Accepts.state_ne {limits : Limits} {tables tables' : SessionTables}
    {frame : FipcFrame} (h : Accepts limits tables frame tables') : tables.state ≠ .closed := by
  intro hclosed
  cases h with
  | hello hstate => simp [hclosed] at hstate
  | opens hstate => simp [hclosed] at hstate
  | control hproceeds => simp [Proceeds, hclosed] at hproceeds
  | onStream _ _ hproceeds => simp [Proceeds, hclosed] at hproceeds
  | closes _ hproceeds => simp [Proceeds, hclosed] at hproceeds

theorem TableStep.of_closed (limits : Limits) (step : TableStep) (h : step.tables.state = .closed) :
    step.acceptedFrame limits = none ∧ (step.after limits).state = .closed := by
  rcases step.effect limits with ⟨frame, _, _, hok⟩ | ⟨hnone, _, _, hafter⟩ | ⟨hnone, _, hsame⟩
  · exact absurd h hok.state_ne
  · exact ⟨hnone, by rw [hafter]; rfl⟩
  · exact ⟨hnone, hsame.state.trans h⟩

theorem tablesAfter_of_closed (limits : Limits) (calls : List TableCall) :
    ∀ tables : SessionTables, tables.state = .closed →
      acceptedFrames limits (stepsFrom limits tables calls) = [] ∧
        (tablesAfter limits tables calls).state = .closed := by
  induction calls with
  | nil => exact fun tables h => ⟨rfl, h⟩
  | cons call calls ih =>
    intro tables h
    obtain ⟨hnone, hclosed⟩ := TableStep.of_closed limits ⟨tables, call⟩ h
    obtain ⟨hframes, hafter⟩ := ih _ hclosed
    refine ⟨?_, hafter⟩
    unfold acceptedFrames at hframes ⊢
    rw [stepsFrom, List.filterMap_cons, hnone]
    exact hframes

theorem Traced.of_append {limits : Limits} {steps : List TableStep} {tables : SessionTables}
    (h : Traced limits steps tables) : ∀ {before : List TableStep} {step : TableStep}
      {later : List TableStep}, steps = before ++ step :: later → Traced limits before step.tables := by
  induction h with
  | nil =>
    intro before step later hsplit
    simp at hsplit
  | @snoc steps tables before call ih =>
    intro before' step later hsplit
    rcases List.eq_nil_or_concat later with rfl | ⟨later, last, rfl⟩
    · obtain ⟨rfl, hlast⟩ := List.append_inj' hsplit rfl
      obtain rfl := List.singleton_inj.mp hlast
      exact before
    · rw [List.concat_eq_append, ← List.cons_append, ← List.append_assoc] at hsplit
      exact ih (List.append_inj' hsplit rfl).1

theorem Traced.tables_eq {limits : Limits} {steps : List TableStep} {step : TableStep}
    {tables : SessionTables} (h : Traced limits (steps ++ [step]) tables) :
    tables = step.after limits := by
  generalize hall : steps ++ [step] = all at h
  cases h with
  | nil => simp at hall
  | snoc before call =>
    have hlast := (List.append_inj' hall rfl).2
    rw [List.singleton_inj.mp hlast]

/-! ## Calls on a session -/

inductive SessionCall
  | feed (data : Bytes)
  | sendCredit (streamId : UInt32) (bytes : UInt64)
  | reserveSend (streamId : UInt32) (bytes : UInt64) (terminal : Bool)
deriving DecidableEq, Repr

namespace FipcSession

/-- The calls on the tables that `feedLoop` makes. -/
def feedLoopCalls : Nat → FipcSession → Bytes → List TableCall
  | 0, _, _ => []
  | turns + 1, session, data =>
    match session.codec.feed data with
    | (.needMore, _) => []
    | (.closed _, _) => [.close]
    | (.frame frame, codec) =>
      .applyFrame frame ::
        match session.tables.applyFrame session.limits frame with
        | (.error _, _) => []
        | (.ok _, tables) =>
          if codec.buffer.length = 0 then []
          else feedLoopCalls turns { session with codec, tables } []

def call (session : FipcSession) : SessionCall → FipcSession
  | .feed data => (session.feed data).2
  | .sendCredit streamId bytes =>
    { session with tables := (session.tables.sendCredit streamId bytes).2 }
  | .reserveSend streamId bytes terminal =>
    { session with tables := (session.tables.reserveSend streamId bytes terminal).2 }

def tableCalls (session : FipcSession) : SessionCall → List TableCall
  | .feed data => session.feedLoopCalls (session.codec.buffer.length + data.length + 1) data
  | .sendCredit streamId bytes => [.sendCredit streamId bytes]
  | .reserveSend streamId bytes terminal => [.reserveSend streamId bytes terminal]

/-- A run of a new session. -/
def run (limits : Limits) (calls : List SessionCall) : FipcSession := calls.foldl call (init limits)

/-- The calls on the tables that calls on a session make. -/
def tableCallsOf : FipcSession → List SessionCall → List TableCall
  | _, [] => []
  | session, c :: calls => session.tableCalls c ++ (session.call c).tableCallsOf calls

/-- The steps of a run. -/
def trace (limits : Limits) (calls : List SessionCall) : List TableStep :=
  stepsFrom limits {} ((init limits).tableCallsOf calls)

theorem feedLoop_tables (turns : Nat) : ∀ (session : FipcSession) (data : Bytes)
    (events : List SessionEvent),
    let calls := session.feedLoopCalls turns data
    (session.feedLoop turns data events).2.limits = session.limits ∧
      (session.feedLoop turns data events).2.tables = tablesAfter session.limits session.tables calls ∧
      ∀ delivered, (session.feedLoop turns data events).1 = .ok delivered →
        delivered = events ++
          (acceptedFrames session.limits (stepsFrom session.limits session.tables calls)).map
            SessionTables.eventOf := by
  induction turns with
  | zero =>
    intro session data events
    refine ⟨rfl, rfl, fun delivered h => ?_⟩
    cases h
    simp [feedLoopCalls, stepsFrom, acceptedFrames]
  | succ turns ih =>
    intro session data events
    rw [feedLoop, feedLoopCalls]
    rcases session.codec.feed data with ⟨_ | frame | diagnostic, codec⟩
    · refine ⟨rfl, rfl, fun delivered h => ?_⟩
      cases h
      simp [stepsFrom, acceptedFrames]
    · simp only
      rcases SessionTables.applyFrame_cases session.limits session.tables frame with
        ⟨tables', happly, _⟩ | ⟨status, happly, _⟩ | ⟨status, stream, _, _, happly⟩
      · have hafter : TableStep.after session.limits ⟨session.tables, .applyFrame frame⟩ = tables' := by
          simp only [TableStep.after, happly]
        have hframe : TableStep.acceptedFrame session.limits ⟨session.tables, .applyFrame frame⟩ =
            some frame := by
          simp only [TableStep.acceptedFrame, happly]
        rw [happly]
        simp only [stepsFrom, acceptedFrames, List.filterMap_cons, hframe, tablesAfter, List.foldl_cons,
          hafter]
        split_ifs
        · refine ⟨rfl, rfl, fun delivered h => ?_⟩
          cases h
          rfl
        · obtain ⟨hlimits, htables, hevents⟩ := ih { session with codec, tables := tables' } []
            (events ++ [SessionTables.eventOf frame])
          refine ⟨hlimits, htables, fun delivered h => ?_⟩
          rw [hevents delivered h]
          simp [acceptedFrames]
      · rw [happly]
        refine ⟨rfl, ?_, fun delivered h => (by cases h)⟩
        simp only [tablesAfter, List.foldl_cons, List.foldl_nil, TableStep.after, happly]
      · rw [happly]
        refine ⟨rfl, ?_, fun delivered h => (by cases h)⟩
        simp only [tablesAfter, List.foldl_cons, List.foldl_nil, TableStep.after, happly]
    · refine ⟨rfl, rfl, fun delivered h => ?_⟩
      simp only at h
      split_ifs at h
      cases h
      simp [stepsFrom, acceptedFrames, TableStep.acceptedFrame]

theorem feed_events {session : FipcSession} {data : Bytes} {events : List SessionEvent}
    (h : (session.feed data).1 = .ok events) :
    events = (acceptedFrames session.limits
      (stepsFrom session.limits session.tables (session.tableCalls (.feed data)))).map
        SessionTables.eventOf :=
  (feedLoop_tables _ session data []).2.2 events h

theorem call_tables (session : FipcSession) (c : SessionCall) :
    (session.call c).limits = session.limits ∧
      (session.call c).tables = tablesAfter session.limits session.tables (session.tableCalls c) := by
  unfold call tableCalls
  cases c with
  | feed data =>
    obtain ⟨hlimits, htables, _⟩ := feedLoop_tables (session.codec.buffer.length + data.length + 1)
      session data []
    exact ⟨hlimits, htables⟩
  | sendCredit streamId bytes => exact ⟨rfl, rfl⟩
  | reserveSend streamId bytes terminal => exact ⟨rfl, rfl⟩

theorem foldl_call_tables (calls : List SessionCall) : ∀ session : FipcSession,
    (calls.foldl call session).limits = session.limits ∧
      (calls.foldl call session).tables =
        tablesAfter session.limits session.tables (session.tableCallsOf calls) := by
  induction calls with
  | nil => exact fun session => ⟨rfl, rfl⟩
  | cons c calls ih =>
    intro session
    obtain ⟨hlimits, htables⟩ := call_tables session c
    obtain ⟨hlimits', htables'⟩ := ih (session.call c)
    rw [hlimits] at hlimits' htables'
    rw [htables] at htables'
    refine ⟨hlimits', htables'.trans ?_⟩
    rw [tableCallsOf]
    simp only [tablesAfter, List.foldl_append]

/-- **A run of a session is a run of its tables.** -/
theorem traced_run (limits : Limits) (calls : List SessionCall) :
    Traced limits (trace limits calls) (run limits calls).tables := by
  have htrace := @Traced.append limits ((init limits).tableCallsOf calls) _ _ .nil
  unfold run
  rw [(foldl_call_tables calls (init limits)).2]
  exact htrace

/-! ## Behind an error -/

theorem feedLoop_error (turns : Nat) : ∀ (session : FipcSession) (data : Bytes)
    (events : List SessionEvent) (status : Status),
    (session.feedLoop turns data events).1 = .error status →
      (session.feedLoop turns data events).2.tables.state = .closed := by
  induction turns with
  | zero =>
    intro session data events status h
    cases h
  | succ turns ih =>
    intro session data events status
    rw [feedLoop]
    rcases session.codec.feed data with ⟨_ | frame | diagnostic, codec⟩
    · intro h
      cases h
    · simp only
      rcases session.tables.applyFrame session.limits frame with ⟨_ | event, tables⟩
      · exact fun _ => rfl
      · simp only
        split_ifs
        · intro h
          cases h
        · exact ih _ _ _ _
    · exact fun _ => rfl

theorem foldl_call_of_closed (calls : List SessionCall) {session : FipcSession}
    (h : session.tables.state = .closed) : (calls.foldl call session).tables.state = .closed := by
  rw [(foldl_call_tables calls session).2]
  exact (tablesAfter_of_closed session.limits _ _ h).2

theorem feed_of_closed {session : FipcSession} (h : session.tables.state = .closed) {data : Bytes}
    {events : List SessionEvent} (hfeed : (session.feed data).1 = .ok events) : events = [] := by
  rw [feed_events hfeed, (tablesAfter_of_closed session.limits _ _ h).1]
  rfl

end FipcSession

end Forge
