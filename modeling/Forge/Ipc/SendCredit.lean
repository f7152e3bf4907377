import Forge.Ipc.SessionInvariant

/-!
# The send credit of a stream

Credit frames and `send_credit` add to the credit of a stream, checked against overflow, and a
`reserve_send` that finds enough takes its bytes from it. One step changes the credit of a live stream by
just what it grants and reserves (`credit_after`), so the credit of a stream is what was granted and not
reserved since its opening, in numbers that neither wrap nor fall below zero (`credit_conserved`).
-/

namespace Forge

open Std (ExtTreeMap)
open SessionTables (Accepts grants grants_of_ne)

variable {limits : Limits}

/-! ## Definitions -/

namespace TableStep

/-- What the step grants the stream: an accepted credit frame, or a `send_credit` that returns ok. -/
def granted (limits : Limits) (streamId : UInt32) (step : TableStep) : Nat :=
  match step.call with
  | .applyFrame frame =>
    if frame.streamId = streamId ∧ step.acceptedFrame limits = some frame then grants frame else 0
  | .sendCredit id bytes =>
    if id = streamId then
      match (step.tables.sendCredit id bytes).1 with
      | .ok _ => bytes.toNat
      | .error _ => 0
    else 0
  | _ => 0

/-- The bytes of a `reserve_send` that finds enough credit. -/
def reserved (streamId : UInt32) (step : TableStep) : Nat :=
  match step.call with
  | .reserveSend id bytes _ =>
    if id = streamId ∧ step.tables.streams[id]?.any (bytes ≤ ·.credit) then bytes.toNat else 0
  | _ => 0

end TableStep

/-- The steps behind the one that opened the stream, which has been live since. -/
def SinceOpening (limits : Limits) (steps since : List TableStep) (streamId : UInt32) : Prop :=
  ∃ earlier opening frame, steps = earlier ++ opening :: since ∧ opening.Opens limits frame ∧
    frame.streamId = streamId ∧ ∀ step ∈ since, (step.tables.streams[streamId]?).isSome

/-! ## One step -/

theorem SessionTables.streams_onStream {tables tables' : SessionTables} {frame : FipcFrame}
    {event : SessionEvent} {stream : StreamState} (hproceeds : tables.Proceeds frame)
    (hlive : tables.streams[frame.streamId]? = some stream) (htype : frame.type ≠ .closeStream)
    (happly : tables.applyFrame limits frame = (.ok event, tables')) :
    ∃ credit, credit.toNat = stream.credit.toNat + grants frame ∧
      tables'.streams = tables.streams.insert frame.streamId
        { stream with nextSequence := stream.nextSequence + 1, credit } := by
  have hstream : tables.applyStreamFrame frame = (.ok (), tables') := by
    rw [applyFrame_of_proceeds limits hproceeds] at happly
    rcases hpair : tables.applyStreamFrame frame with ⟨_ | _, after⟩
    · rw [hpair] at happly
      cases happly
    · rw [hpair] at happly
      have hafter : after = tables' := (Prod.mk.inj happly).2
      rw [hafter]
  unfold applyStreamFrame at hstream
  simp only [hlive] at hstream
  rw [if_neg (by simp)] at hstream
  split_ifs at hstream
  · cases hstream
  rcases @applyCredit_advance tables frame stream with ⟨status, hcredit⟩ | ⟨credit, hcredit, hsum⟩
  · rw [hcredit] at hstream
    cases hstream
  · rw [hcredit] at hstream
    simp only at hstream
    rcases applyBuildRequest_cases (tables.advanced frame.streamId stream credit) frame with
      ⟨_, status, hrequest⟩ | ⟨_, hrequest⟩
    · rw [hrequest] at hstream
      cases hstream
    · rw [hrequest] at hstream
      refine ⟨credit, hsum, ?_⟩
      rw [← (Prod.mk.inj hstream).2]
      unfold applyCloseStream
      simp only [if_neg htype]
      rfl

theorem credit_insert {streams : ExtTreeMap UInt32 StreamState} {id streamId : UInt32}
    {stream stream' after : StreamState} {grant : Nat} (hlive : streams[id]? = some stream)
    (h : (streams.insert id after)[streamId]? = some stream')
    (hgrant : after.credit.toNat = stream.credit.toNat + grant) :
    ∃ before : StreamState, streams[streamId]? = some before ∧
      stream'.credit.toNat = before.credit.toNat + if id = streamId then grant else 0 := by
  obtain ⟨rfl, rfl⟩ | ⟨hne, hkept⟩ := ExtTreeMap.getElem?_insert_cases h
  · exact ⟨stream, hlive, by rw [if_pos rfl, hgrant]⟩
  · rw [if_neg hne]
    exact ⟨stream', hkept, rfl⟩

theorem credit_applyFrame {tables : SessionTables} {frame : FipcFrame} {streamId : UInt32}
    {stream' : StreamState}
    (h : (TableStep.after limits ⟨tables, .applyFrame frame⟩).streams[streamId]? = some stream') :
    (∃ opening, TableStep.Opens limits ⟨tables, .applyFrame frame⟩ opening ∧ opening.streamId = streamId ∧
        stream'.credit = 0) ∨
      ∃ stream, tables.streams[streamId]? = some stream ∧ stream'.credit.toNat =
        stream.credit.toNat + TableStep.granted limits streamId ⟨tables, .applyFrame frame⟩ := by
  unfold TableStep.granted
  unfold TableStep.after at h
  rcases SessionTables.applyFrame_cases limits tables frame with
    ⟨tables', happly, hok⟩ | ⟨status, happly, _⟩ | ⟨status, stream, _, hnext, happly⟩
  · have hframe : TableStep.acceptedFrame limits ⟨tables, .applyFrame frame⟩ = some frame := by
      simp only [TableStep.acceptedFrame, happly]
    simp only [happly] at h
    simp only [hframe, and_true]
    have hsame (hgrants : grants frame = 0) (hlive : tables.streams[streamId]? = some stream') :
        ∃ stream, tables.streams[streamId]? = some stream ∧ stream'.credit.toNat =
          stream.credit.toNat + if frame.streamId = streamId then grants frame else 0 :=
      ⟨stream', hlive, by rw [hgrants, ite_self, Nat.add_zero]⟩
    cases hok with
    | hello _ htype => exact .inr (hsame (grants_of_ne (by rw [htype]; decide)) h)
    | opens hstate htype =>
      obtain ⟨hid, rfl⟩ | ⟨_, hkept⟩ := ExtTreeMap.getElem?_insert_cases h
      · exact .inl ⟨frame, ⟨hframe, hstate, htype⟩, hid, rfl⟩
      · exact .inr (hsame (grants_of_ne (by rw [htype]; decide)) hkept)
    | control _ _ _ htype => exact .inr (hsame (grants_of_ne htype) h)
    | onStream stream _ hproceeds hlive _ _ htype =>
      obtain ⟨credit, hsum, hstreams⟩ := SessionTables.streams_onStream hproceeds hlive htype happly
      rw [hstreams] at h
      exact .inr (credit_insert hlive h hsum)
    | closes _ _ _ _ _ htype =>
      obtain ⟨_, hkept⟩ := ExtTreeMap.getElem?_erase_cases h
      exact .inr (hsame (grants_of_ne (by rw [htype]; decide)) hkept)
  · have hframe : TableStep.acceptedFrame limits ⟨tables, .applyFrame frame⟩ = none := by
      simp only [TableStep.acceptedFrame, happly]
    simp only [happly] at h
    simp only [hframe]
    exact .inr ⟨stream', h, by simp⟩
  · have hframe : TableStep.acceptedFrame limits ⟨tables, .applyFrame frame⟩ = none := by
      simp only [TableStep.acceptedFrame, happly]
    simp only [happly] at h
    simp only [hframe]
    obtain ⟨before, hbefore, hcredit⟩ := credit_insert hnext.1 h (Nat.add_zero _).symm
    exact .inr ⟨before, hbefore, by simpa using hcredit⟩

/-- **What a step does to the credit of a stream** that is live behind it. -/
theorem TableStep.credit_after (step : TableStep) {streamId : UInt32} {stream' : StreamState}
    (h : (step.after limits).streams[streamId]? = some stream') :
    (∃ frame, step.Opens limits frame ∧ frame.streamId = streamId ∧ stream'.credit = 0) ∨
      ∃ stream, step.tables.streams[streamId]? = some stream ∧
        stream'.credit.toNat + step.reserved streamId =
          stream.credit.toNat + step.granted limits streamId := by
  obtain ⟨tables, frame | _ | ⟨id, bytes⟩ | ⟨id, bytes, terminal⟩⟩ := step
  · exact credit_applyFrame h
  · exact .inr ⟨stream', h, rfl⟩
  · right
    simp only [after] at h
    simp only [reserved, granted, Nat.add_zero]
    rcases SessionTables.sendCredit_cases tables id bytes with
      ⟨status, hsend⟩ | ⟨stream, credit, hlive, hsum, hsend⟩
    · rw [hsend] at h ⊢
      exact ⟨stream', h, by simp⟩
    · rw [hsend] at h ⊢
      exact credit_insert hlive h hsum
  · right
    simp only [after, SessionTables.reserveSend] at h
    simp only [reserved, granted, Nat.add_zero]
    cases hlive : tables.streams[id]? with
    | none =>
      simp only [hlive] at h
      exact ⟨stream', h, by simp⟩
    | some stream =>
      simp only [hlive] at h
      simp only [Option.any_some, decide_eq_true_eq]
      by_cases hfits : bytes ≤ stream.credit
      · rw [if_neg (UInt64.not_lt.mpr hfits)] at h
        obtain ⟨rfl, rfl⟩ | ⟨hne, hkept⟩ := ExtTreeMap.getElem?_insert_cases h
        · have hbytes := UInt64.le_iff_toNat_le.mp hfits
          refine ⟨stream, hlive, ?_⟩
          rw [if_pos ⟨rfl, hfits⟩, UInt64.toNat_sub_of_le _ _ hfits]
          omega
        · exact ⟨stream', hkept, by simp [hne]⟩
      · rw [if_pos (UInt64.not_le.mp hfits)] at h
        rw [if_neg fun hboth => hfits hboth.2, Nat.add_zero]
        split_ifs at h
        · obtain ⟨before, hbefore, hcredit⟩ := credit_insert hlive h (Nat.add_zero _).symm
          exact ⟨before, hbefore, by simpa using hcredit⟩
        · exact ⟨stream', h, rfl⟩

/-! ## Runs -/

theorem Traced.credit {steps : List TableStep} {tables : SessionTables} (h : Traced limits steps tables)
    {streamId : UInt32} : ∀ {stream : StreamState}, tables.streams[streamId]? = some stream →
      ∃ since, SinceOpening limits steps since streamId ∧
        stream.credit.toNat + (since.map (TableStep.reserved streamId)).sum =
          (since.map (TableStep.granted limits streamId)).sum := by
  induction h with
  | nil =>
    intro stream hlive
    simp at hlive
  | @snoc steps tables before call ih =>
    intro stream' hlive'
    rcases TableStep.credit_after ⟨tables, call⟩ hlive' with
      ⟨frame, hopens, hid, hzero⟩ | ⟨stream, hlive, hchange⟩
    · exact ⟨[], ⟨steps, ⟨tables, call⟩, frame, rfl, hopens, hid, by simp⟩, by simp [hzero]⟩
    · obtain ⟨since, ⟨earlier, opening, frame, rfl, hopens, hid, hall⟩, hcredit⟩ := ih hlive
      refine ⟨since ++ [⟨tables, call⟩], ⟨earlier, opening, frame, by simp, hopens, hid, ?_⟩, ?_⟩
      · intro step hstep
        rcases List.mem_append.mp hstep with hstep | hstep
        · exact hall step hstep
        · rw [List.mem_singleton.mp hstep, hlive]
          rfl
      · rw [List.map_append, List.map_append, List.sum_append, List.sum_append, List.map_singleton,
          List.map_singleton, List.sum_singleton, List.sum_singleton]
        omega

namespace SessionTables

theorem reserveSend_iff {tables : SessionTables} {streamId : UInt32} {stream : StreamState}
    (hlive : tables.streams[streamId]? = some stream) (bytes : UInt64) :
    (tables.reserveSend streamId bytes false).1 = .ok () ↔ bytes ≤ stream.credit := by
  unfold reserveSend
  simp only [hlive, Bool.false_eq_true, if_false]
  by_cases hshort : stream.credit < bytes
  · rw [if_pos hshort]
    exact iff_of_false (fun h => (by cases h)) (UInt64.not_le.mpr hshort)
  · rw [if_neg hshort]
    exact iff_of_true rfl (UInt64.not_lt.mp hshort)

theorem sendCredit_error {tables : SessionTables} {streamId : UInt32} {bytes : UInt64} {status : Status}
    (h : (tables.sendCredit streamId bytes).1 = .error status) :
    (tables.sendCredit streamId bytes).2 = tables := by
  rcases sendCredit_cases tables streamId bytes with ⟨_, hsend⟩ | ⟨_, _, _, _, hsend⟩
  · rw [hsend]
  · rw [hsend] at h
    cases h

theorem reserveSend_error {tables : SessionTables} {streamId : UInt32} {bytes : UInt64} {terminal : Bool}
    {status : Status} (h : (tables.reserveSend streamId bytes terminal).1 = .error status) :
    (tables.reserveSend streamId bytes terminal).2 = tables := by
  unfold reserveSend at h ⊢
  cases hlive : tables.streams[streamId]? with
  | none => rfl
  | some stream =>
    simp only [hlive] at h
    by_cases hshort : stream.credit < bytes
    · rw [if_pos hshort] at h
      cases terminal with
      | true => cases h
      | false => simp [hshort]
    · rw [if_neg hshort] at h
      cases h

end SessionTables

namespace FipcSession

/-- **Send credit is conserved**: behind every run the credit of a live stream is what was granted since
its opening and not reserved, a `reserve_send` that is not terminal needs just that credit, and calls
that fail change nothing. -/
theorem credit_conserved (limits : Limits) (calls : List SessionCall) :
    let tables := (run limits calls).tables
    (∀ streamId stream, tables.streams[streamId]? = some stream →
      (∃ since, SinceOpening limits (trace limits calls) since streamId ∧
        stream.credit.toNat + (since.map (TableStep.reserved streamId)).sum =
          (since.map (TableStep.granted limits streamId)).sum) ∧
      ∀ bytes, (tables.reserveSend streamId bytes false).1 = .ok () ↔ bytes ≤ stream.credit) ∧
    (∀ streamId bytes status, (tables.sendCredit streamId bytes).1 = .error status →
      (tables.sendCredit streamId bytes).2 = tables) ∧
    (∀ streamId bytes terminal status,
      (tables.reserveSend streamId bytes terminal).1 = .error status →
        (tables.reserveSend streamId bytes terminal).2 = tables) := by
  intro tables
  exact ⟨fun streamId stream hlive =>
      ⟨(traced_run limits calls).credit hlive, SessionTables.reserveSend_iff hlive⟩,
    fun _ _ _ => SessionTables.sendCredit_error, fun _ _ _ _ => SessionTables.reserveSend_error⟩

end FipcSession

end Forge
