import Forge.Ipc.TraceSafety

/-!
# Reuse of stream ids

The generation of an open_stream frame is compared with those before it only where the frame creates a
stream, that is in the negotiated state. In the active state an open_stream frame is one of the frames
of its stream, or of the control stream. So generations increase exactly as long as no open_stream frame
comes as the next frame of a live stream, and those on the control stream increase by themselves
(`generationsIncrease_iff`).
-/

namespace Forge

open Std (ExtTreeMap)
open SessionTables (Accepts)

variable {limits : Limits}

/-! ## Definitions -/

/-- The generation of an open_stream frame for a stream id. -/
def openedGeneration (streamId : UInt32) (frame : FipcFrame) : Option UInt32 :=
  if frame.type = .openStream ∧ frame.streamId = streamId then some frame.streamGeneration else none

/-- The generations of the open_stream frames accepted for a stream id. -/
def openedGenerations (limits : Limits) (steps : List TableStep) (streamId : UInt32) : List UInt32 :=
  (acceptedFrames limits steps).filterMap (openedGeneration streamId)

def GenerationsIncrease (limits : Limits) (steps : List TableStep) : Prop :=
  ∀ streamId, (openedGenerations limits steps streamId).Pairwise (· < ·)

/-- An open_stream frame comes as the next frame of a live stream. -/
def TableStep.Reopens (step : TableStep) : Prop :=
  ∃ frame stream, step.call = .applyFrame frame ∧ frame.type = .openStream ∧
    step.tables.state = .active ∧ step.tables.NextOnStream frame stream

/-- The generation of an open_stream frame that comes on the control stream while a stream is live. -/
def TableStep.controlGeneration (step : TableStep) : Option UInt32 :=
  match step.call with
  | .applyFrame frame => if step.tables.state = .active then openedGeneration 0 frame else none
  | _ => none

/-- No open_stream frame comes as the next frame of a live stream, and those that come on the control
stream while a stream is live have increasing generations. -/
def ReopensNothing (steps : List TableStep) : Prop :=
  (∀ step ∈ steps, ¬ step.Reopens) ∧
    (steps.filterMap TableStep.controlGeneration).Pairwise (· < ·)

/-! ## Frames that fall through -/

theorem openedGenerations_append (steps later : List TableStep) (streamId : UInt32) :
    openedGenerations limits (steps ++ later) streamId =
      openedGenerations limits steps streamId ++ openedGenerations limits later streamId := by
  unfold openedGenerations acceptedFrames
  rw [List.filterMap_append, List.filterMap_append]

theorem openedGenerations_singleton (step : TableStep) (streamId : UInt32) :
    openedGenerations limits [step] streamId =
      ((step.acceptedFrame limits).bind (openedGeneration streamId)).toList := by
  unfold openedGenerations acceptedFrames
  cases hframe : step.acceptedFrame limits with
  | none => simp [hframe]
  | some frame => cases hopened : openedGeneration streamId frame <;> simp [hframe, hopened]

theorem acceptedFrame_of_active {tables : SessionTables} {frame : FipcFrame}
    (hstate : tables.state = .active) (htype : frame.type = .openStream)
    (hplace : (frame.streamId = 0 ∧ tables.streams[frame.streamId]? = none) ∨
      ∃ stream, tables.NextOnStream frame stream) :
    TableStep.acceptedFrame limits ⟨tables, .applyFrame frame⟩ = some frame := by
  have hother : frame.type ≠ .buildRequest := by
    rw [htype]
    decide
  exact TableStep.acceptedFrame_of_proceeds (.inl hstate) (by rw [htype]; decide)
    (fun hrequest => absurd hrequest hother) hplace

/-! ## The control stream -/

theorem openedGeneration_isSome {streamId generation : UInt32} {frame : FipcFrame}
    (h : openedGeneration streamId frame = some generation) :
    frame.type = .openStream ∧ frame.streamId = streamId ∧ frame.streamGeneration = generation := by
  unfold openedGeneration at h
  split_ifs at h with hframe
  exact ⟨hframe.1, hframe.2, Option.some.inj h⟩

theorem controlGeneration_eq {steps : List TableStep} (step : TableStep)
    (hconsistent : step.tables.state ≠ .closed → Consistent limits steps step.tables) :
    (step.acceptedFrame limits).bind (openedGeneration 0) = step.controlGeneration := by
  obtain ⟨tables, call⟩ := step
  cases call with
  | close => rfl
  | sendCredit => rfl
  | reserveSend => rfl
  | applyFrame frame =>
    unfold TableStep.controlGeneration
    simp only
    split_ifs with hactive
    · have hcontrol : tables.streams[(0 : UInt32)]? = none :=
        (hconsistent (by simp [hactive])).no_control_stream
      by_cases hframe : frame.type = .openStream ∧ frame.streamId = 0
      · rw [acceptedFrame_of_active hactive hframe.1 (.inl ⟨hframe.2, by rw [hframe.2, hcontrol]⟩)]
        rfl
      · have hnot : openedGeneration 0 frame = none := if_neg hframe
        rw [hnot]
        unfold TableStep.acceptedFrame
        simp only
        split
        · exact hnot
        · rfl
    · -- outside the active state an open_stream frame needs a stream id of its own
      rcases TableStep.effect limits ⟨tables, .applyFrame frame⟩ with
        ⟨other, hcall, hframe, hok⟩ | ⟨hnone, _⟩ | ⟨hnone, _⟩
      · obtain rfl := TableCall.applyFrame.inj hcall
        rw [hframe, Option.bind_some]
        refine if_neg fun hopen => ?_
        have hproceeds (h : tables.Proceeds frame) : False := h.elim hactive fun h => h.2 hopen.1
        generalize TableStep.after limits ⟨tables, .applyFrame frame⟩ = tables' at hok
        cases hok with
        | hello _ hhello =>
          rw [hopen.1] at hhello
          exact absurd hhello (by decide)
        | opens _ _ hnonzero => exact hnonzero hopen.2
        | control h => exact hproceeds h
        | onStream _ _ h => exact hproceeds h
        | closes _ h => exact hproceeds h
      · rw [hnone]
        rfl
      · rw [hnone]
        rfl

theorem openedGenerations_zero {steps : List TableStep} {tables : SessionTables}
    (h : Traced limits steps tables) :
    openedGenerations limits steps 0 = steps.filterMap TableStep.controlGeneration := by
  induction h with
  | nil => rfl
  | @snoc steps tables before call ih =>
    rw [openedGenerations_append, openedGenerations_singleton, ih,
      controlGeneration_eq ⟨tables, call⟩ before.consistent,
      List.filterMap_append]
    congr 1

/-! ## Streams -/

/-- What holds of the generations accepted for the id of a stream. -/
structure Ascending (limits : Limits) (steps : List TableStep) (tables : SessionTables)
    (streamId : UInt32) : Prop where
  live : ∀ stream, tables.streams[streamId]? = some stream →
    (∀ generation, tables.retiredStreamGenerations[streamId]? = some generation →
      generation < stream.generation) ∧
    ∀ generation ∈ openedGenerations limits steps streamId, generation ≤ stream.generation
  gone : tables.streams[streamId]? = none → ∀ generation ∈ openedGenerations limits steps streamId,
    ∃ retired, tables.retiredStreamGenerations[streamId]? = some retired ∧ generation ≤ retired

theorem openedGenerations_snoc_of_none {steps : List TableStep} {step : TableStep} {streamId : UInt32}
    (hframe : (step.acceptedFrame limits).bind (openedGeneration streamId) = none) :
    openedGenerations limits (steps ++ [step]) streamId = openedGenerations limits steps streamId := by
  rw [openedGenerations_append, openedGenerations_singleton, hframe, Option.toList_none, List.append_nil]

theorem Ascending.keep {steps : List TableStep} {step : TableStep} {streamId : UInt32}
    (h : Ascending limits steps step.tables streamId)
    (hframe : (step.acceptedFrame limits).bind (openedGeneration streamId) = none)
    {tables' : SessionTables}
    (hstream : tables'.streams[streamId]?.map (·.generation) =
      step.tables.streams[streamId]?.map (·.generation))
    (hretired : tables'.retiredStreamGenerations[streamId]? =
      step.tables.retiredStreamGenerations[streamId]?) :
    Ascending limits (steps ++ [step]) tables' streamId := by
  have hsame : openedGenerations limits (steps ++ [step]) streamId =
      openedGenerations limits steps streamId := openedGenerations_snoc_of_none hframe
  refine ⟨fun stream hlive => ?_, fun hgone => ?_⟩
  · rw [hlive] at hstream
    obtain ⟨stream', hlive', hgeneration⟩ := Option.map_eq_some_iff.mp hstream.symm
    dsimp only at hgeneration
    rw [hsame, hretired, ← hgeneration]
    exact h.live stream' hlive'
  · rw [hgone] at hstream
    rw [hsame, hretired]
    exact h.gone (by simpa using hstream.symm)

theorem Ascending.opened {steps : List TableStep} {step : TableStep} {streamId generation : UInt32}
    (h : Ascending limits steps step.tables streamId) (hnone : step.tables.streams[streamId]? = none)
    (hnew : (step.acceptedFrame limits).bind (openedGeneration streamId) = some generation)
    (habove : ∀ retired, step.tables.retiredStreamGenerations[streamId]? = some retired →
      retired < generation)
    {tables' : SessionTables} (hlive : tables'.streams[streamId]? = some { generation })
    (hretired : tables'.retiredStreamGenerations = step.tables.retiredStreamGenerations) :
    Ascending limits (steps ++ [step]) tables' streamId := by
  -- the retired generation, which the new one is above, bounds those before it
  refine ⟨fun stream hstream => ?_, fun hgone => ?_⟩
  · obtain rfl := Option.some.inj (hlive.symm.trans hstream)
    rw [hretired]
    refine ⟨habove, fun earlier hearlier => ?_⟩
    rw [openedGenerations_append, openedGenerations_singleton, hnew, Option.toList_some] at hearlier
    rcases List.mem_append.mp hearlier with hold | hlast
    · obtain ⟨retired, hr, hle⟩ := h.gone hnone earlier hold
      exact UInt32.le_trans hle (UInt32.le_of_lt (habove retired hr))
    · exact UInt32.le_of_eq (List.mem_singleton.mp hlast)
  · rw [hlive] at hgone
    cases hgone

theorem Ascending.closed {steps : List TableStep} {step : TableStep} {streamId : UInt32}
    (h : Ascending limits steps step.tables streamId) {stream : StreamState}
    (hlive : step.tables.streams[streamId]? = some stream)
    (hframe : (step.acceptedFrame limits).bind (openedGeneration streamId) = none)
    {tables' : SessionTables} (hgone : tables'.streams[streamId]? = none)
    (hretired : tables'.retiredStreamGenerations[streamId]? = some stream.generation) :
    Ascending limits (steps ++ [step]) tables' streamId := by
  refine ⟨fun other hother => ?_, fun _ generation hmem => ?_⟩
  · rw [hgone] at hother
    cases hother
  · rw [openedGenerations_snoc_of_none hframe] at hmem
    exact ⟨_, hretired, (h.live stream hlive).2 generation hmem⟩

theorem Ascending.accept {steps : List TableStep} {step : TableStep} {streamId : UInt32}
    (h : Ascending limits steps step.tables streamId) (hid : streamId ≠ 0)
    (hconsistent : Consistent limits steps step.tables) {frame : FipcFrame}
    (hcall : step.call = .applyFrame frame) (hframe : step.acceptedFrame limits = some frame)
    (hreopens : ¬ step.Reopens) {tables' : SessionTables}
    (hok : Accepts limits step.tables frame tables') :
    Ascending limits (steps ++ [step]) tables' streamId := by
  have hother (hnot : ¬ (frame.type = .openStream ∧ frame.streamId = streamId)) :
      (step.acceptedFrame limits).bind (openedGeneration streamId) = none := by
    rw [hframe, Option.bind_some]
    exact if_neg hnot
  cases hok with
  | hello _ htype =>
    refine h.keep (hother fun hopen => ?_) rfl rfl
    rw [htype] at hopen
    exact absurd hopen.1 (by decide)
  | opens hstate htype hnonzero hlive hretired hcap =>
    have hnone : step.tables.streams[streamId]? = none := hconsistent.idle (by simp [hstate]) streamId
    by_cases hsame : frame.streamId = streamId
    · subst hsame
      have hnew : (step.acceptedFrame limits).bind (openedGeneration frame.streamId) =
          some frame.streamGeneration := by
        rw [hframe, Option.bind_some]
        exact if_pos ⟨htype, rfl⟩
      exact h.opened hnone hnew hretired ExtTreeMap.getElem?_insert_self rfl
    · refine h.keep (hother fun hopen => hsame hopen.2) ?_ rfl
      dsimp only
      rw [ExtTreeMap.getElem?_insert_of_ne hsame]
  | control hproceeds hzero => exact h.keep (hother fun hopen => hid (hopen.2 ▸ hzero)) rfl rfl
  | onStream stream credit hproceeds hlive hgeneration hsequence htype hremember =>
    refine h.keep (hother fun hopen => hreopens ?_) ?_ rfl
    · exact ⟨frame, stream, hcall, hopen.1, hproceeds.resolve_right fun h => h.2 hopen.1, hlive,
        hgeneration, hsequence⟩
    · dsimp only
      by_cases hsame : frame.streamId = streamId
      · rw [← hsame, ExtTreeMap.getElem?_insert_self, hlive]
        rfl
      · rw [ExtTreeMap.getElem?_insert_of_ne hsame]
  | closes stream hproceeds hlive hgeneration hsequence htype =>
    have hnot : (step.acceptedFrame limits).bind (openedGeneration streamId) = none := by
      refine hother fun hopen => ?_
      rw [htype] at hopen
      exact absurd hopen.1 (by decide)
    by_cases hsame : frame.streamId = streamId
    · subst hsame
      exact h.closed hlive hnot ExtTreeMap.getElem?_erase_self ExtTreeMap.getElem?_insert_self
    · refine h.keep hnot ?_ (ExtTreeMap.getElem?_insert_of_ne hsame)
      dsimp only
      rw [ExtTreeMap.getElem?_erase_of_ne hsame]

theorem Ascending.above {steps : List TableStep} {step : TableStep} {streamId : UInt32}
    (h : Ascending limits steps step.tables streamId) (hid : streamId ≠ 0)
    (hconsistent : Consistent limits steps step.tables) {frame : FipcFrame}
    (hcall : step.call = .applyFrame frame) (hreopens : ¬ step.Reopens) {tables' : SessionTables}
    (hok : Accepts limits step.tables frame tables') {generation : UInt32}
    (hopened : openedGeneration streamId frame = some generation) :
    ∀ earlier ∈ openedGenerations limits steps streamId, earlier < generation := by
  obtain ⟨htype, hsame, rfl⟩ := openedGeneration_isSome hopened
  cases hok with
  | hello _ hhello =>
    rw [htype] at hhello
    exact absurd hhello (by decide)
  | opens hstate _ _ _ hretired =>
    intro earlier hearlier
    obtain ⟨retired, hr, hle⟩ := h.gone (hconsistent.idle (by simp [hstate]) streamId) earlier hearlier
    exact UInt32.lt_of_le_of_lt hle (hretired retired (by rw [hsame, hr]))
  | control _ hzero => exact absurd (hsame.symm.trans hzero) hid
  | onStream stream _ hproceeds hlive hgeneration hsequence =>
    exact absurd ⟨frame, stream, hcall, htype, hproceeds.resolve_right fun h => h.2 htype, hlive,
      hgeneration, hsequence⟩ hreopens
  | closes _ _ _ _ _ hclose =>
    rw [htype] at hclose
    exact absurd hclose (by decide)

theorem Traced.ascending {steps : List TableStep} {tables : SessionTables}
    (h : Traced limits steps tables) {streamId : UInt32} (hid : streamId ≠ 0)
    (hreopens : ∀ step ∈ steps, ¬ step.Reopens) :
    (openedGenerations limits steps streamId).Pairwise (· < ·) ∧
      (tables.state ≠ .closed → Ascending limits steps tables streamId) := by
  induction h with
  | nil =>
    refine ⟨List.Pairwise.nil, fun _ => ⟨fun stream hlive => ?_, fun _ generation hmem => ?_⟩⟩
    · simp at hlive
    · simp [openedGenerations, acceptedFrames] at hmem
  | @snoc steps tables before call ih =>
    have hlast : ¬ TableStep.Reopens ⟨tables, call⟩ := hreopens _ (by simp)
    obtain ⟨hincrease, hascending⟩ := ih fun step hstep => hreopens step (by simp [hstep])
    rw [openedGenerations_append, openedGenerations_singleton]
    rcases TableStep.effect limits ⟨tables, call⟩ with
      ⟨frame, hcall, hframe, hok⟩ | ⟨hnone, _, _, hclosed⟩ | ⟨hnone, _, hsame⟩
    · have hconsistent := before.consistent hok.state_ne
      have hbefore := hascending hok.state_ne
      refine ⟨?_, fun _ => Ascending.accept hbefore hid hconsistent hcall hframe hlast hok⟩
      rw [hframe, Option.bind_some]
      cases hopened : openedGeneration streamId frame with
      | none => simpa using hincrease
      | some generation =>
        have habove := Ascending.above hbefore hid hconsistent hcall hlast hok hopened
        rw [Option.toList_some, List.pairwise_append]
        exact ⟨hincrease, List.pairwise_singleton _ _, by simpa using habove⟩
    · rw [hnone]
      exact ⟨by simpa using hincrease, fun hopen => absurd (by rw [hclosed]; rfl) hopen⟩
    · rw [hnone]
      refine ⟨by simpa using hincrease, fun hopen => ?_⟩
      rw [hsame.state] at hopen
      refine (hascending hopen).keep (by rw [hnone]; rfl) ?_ (by rw [hsame.retired])
      have hmap := congrArg (Option.map Prod.fst) (hsame.streams streamId)
      rwa [Option.map_map, Option.map_map] at hmap

/-! ## Reopened streams -/

theorem Traced.reopened {steps before later : List TableStep} {step : TableStep} {tables : SessionTables}
    (h : Traced limits steps tables) (hsplit : steps = before ++ step :: later) (hreopens : step.Reopens) :
    ∃ streamId, ¬ (openedGenerations limits steps streamId).Pairwise (· < ·) := by
  obtain ⟨frame, stream, hcall, htype, hstate, hnext⟩ := hreopens
  refine ⟨frame.streamId, fun hincrease => ?_⟩
  have hconsistent := (h.of_append hsplit).consistent (by simp [hstate])
  obtain ⟨frames, ⟨earlier, opening, since, first, rfl, ⟨hfirst, _, hopens⟩, hid, hgeneration, _, _⟩, _⟩ :=
    hconsistent.live _ _ hnext.1
  have hframe : step.acceptedFrame limits = some frame := by
    obtain ⟨stepTables, stepCall⟩ := step
    obtain rfl : stepCall = .applyFrame frame := hcall
    exact acceptedFrame_of_active hstate htype (.inr ⟨stream, hnext⟩)
  have hopened : openedGeneration frame.streamId frame = some frame.streamGeneration :=
    if_pos ⟨htype, rfl⟩
  have hfirstOpened : openedGeneration frame.streamId first = some frame.streamGeneration := by
    rw [← hnext.2.1, ← hgeneration]
    exact if_pos ⟨hopens, hid⟩
  have htwice : [frame.streamGeneration, frame.streamGeneration].Sublist
      (openedGenerations limits steps frame.streamId) := by
    have hone {s : TableStep} {f : FipcFrame} (hs : s.acceptedFrame limits = some f)
        (hf : openedGeneration frame.streamId f = some frame.streamGeneration) (rest : List TableStep) :
        openedGenerations limits (s :: rest) frame.streamId =
          frame.streamGeneration :: openedGenerations limits rest frame.streamId := by
      rw [← List.singleton_append, openedGenerations_append, openedGenerations_singleton, hs,
        Option.bind_some, hf]
      rfl
    rw [hsplit, List.append_assoc, openedGenerations_append, List.cons_append, hone hfirst hfirstOpened,
      openedGenerations_append, hone hframe hopened]
    exact .trans (.cons_cons _ (.trans (.cons_cons _ (List.nil_sublist _)) (List.sublist_append_right _ _)))
      (List.sublist_append_right _ _)
  exact absurd (List.rel_of_pairwise_cons (hincrease.sublist htwice) (by simp)) (UInt32.lt_irrefl _)

namespace FipcSession

/-- **Stream ids are reused with increasing generations** in exactly the runs that reopen nothing. -/
theorem generationsIncrease_iff (limits : Limits) (calls : List SessionCall) :
    GenerationsIncrease limits (trace limits calls) ↔ ReopensNothing (trace limits calls) := by
  have htraced := traced_run limits calls
  unfold ReopensNothing
  rw [← openedGenerations_zero htraced]
  constructor
  · intro hincrease
    refine ⟨fun step hstep hreopens => ?_, hincrease 0⟩
    obtain ⟨before, later, hsplit⟩ := List.append_of_mem hstep
    obtain ⟨streamId, hnot⟩ := htraced.reopened hsplit hreopens
    exact hnot (hincrease streamId)
  · rintro ⟨hreopens, hcontrol⟩ streamId
    by_cases hid : streamId = 0
    · rw [hid]
      exact hcontrol
    · exact (htraced.ascending hid hreopens).1

/-- An open_stream frame for a stream that is live is accepted, with the generation the stream has. -/
theorem openedTwice :
    let calls : List SessionCall := [.feed helloBytes,
      .feed (FipcCodec.encode { type := .openStream, streamId := 9, streamGeneration := 1 }),
      .feed (FipcCodec.encode { type := .openStream, streamId := 9, streamGeneration := 1 })]
    openedGenerations {} (trace {} calls) 9 = [1, 1] ∧ ¬ GenerationsIncrease {} (trace {} calls) := by
  have htwice : openedGenerations {} (trace {} [.feed helloBytes,
      .feed (FipcCodec.encode { type := .openStream, streamId := 9, streamGeneration := 1 }),
      .feed (FipcCodec.encode { type := .openStream, streamId := 9, streamGeneration := 1 })]) 9 =
        [1, 1] := by
    decide +kernel
  refine ⟨htwice, fun hincrease => ?_⟩
  have hnine := hincrease 9
  rw [htwice] at hnine
  exact absurd hnine (by decide)

end FipcSession

end Forge
