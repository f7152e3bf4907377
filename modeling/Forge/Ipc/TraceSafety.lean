import Forge.Ipc.SessionTrace

/-!
# What the trace of a session guarantees

The invariant of a session that is not closed (`Consistent`) speaks of the steps that led to its
tables: where its live streams were opened and how many frames came in on them since, which payload
each token stands for, and that nothing was accepted before a hello. Every step keeps it, and
`trace_safe` reads the guarantees for whole runs off it.
-/

namespace Forge

open Std (ExtTreeMap)
open SessionTables (Accepts eventOf)

/-! ## The invariant -/

variable {limits : Limits}

/-- The step accepts an open_stream frame that creates a stream. -/
def TableStep.Opens (limits : Limits) (step : TableStep) (frame : FipcFrame) : Prop :=
  step.acceptedFrame limits = some frame ∧ step.tables.state = .negotiated ∧ frame.type = .openStream

/-- The number of frames accepted on a stream. -/
def framesOn (limits : Limits) (steps : List TableStep) (streamId : UInt32) : Nat :=
  (acceptedFrames limits steps).countP fun frame => frame.streamId = streamId

/-- The steps end with a stream that was opened with this generation, has been live since, and has got
`frames` frames since. -/
def LiveSince (limits : Limits) (steps : List TableStep) (streamId generation : UInt32) (frames : Nat) :
    Prop :=
  ∃ earlier opening since frame, steps = earlier ++ opening :: since ∧ opening.Opens limits frame ∧
    frame.streamId = streamId ∧ frame.streamGeneration = generation ∧
    (∀ step ∈ since, (step.tables.streams[streamId]?).isSome) ∧ frames = framesOn limits since streamId

/-- What holds in a session that is not closed. -/
structure Consistent (limits : Limits) (steps : List TableStep) (tables : SessionTables) : Prop where
  greeted : acceptedFrames limits steps = [] ↔ tables.state = .accepted
  idle : tables.state ≠ .active → ∀ id : UInt32, tables.streams[id]? = none
  no_control_stream : tables.streams[(0 : UInt32)]? = none
  live : ∀ (id : UInt32) (stream : StreamState), tables.streams[id]? = some stream →
    ∃ frames, LiveSince limits steps id stream.generation frames ∧
      stream.nextSequence = UInt64.ofNat frames
  remembered : ∀ frame ∈ acceptedFrames limits steps, frame.type = .buildRequest →
    tables.idempotency[frame.requestToken]? = some frame.payload

theorem acceptedFrames_snoc (limits : Limits) (steps : List TableStep) (step : TableStep) :
    acceptedFrames limits (steps ++ [step]) =
      acceptedFrames limits steps ++ (step.acceptedFrame limits).toList := by
  unfold acceptedFrames
  rw [List.filterMap_append]
  cases h : step.acceptedFrame limits <;> simp [h]

theorem LiveSince.snoc {steps : List TableStep} {id generation : UInt32} {frames : Nat}
    (h : LiveSince limits steps id generation frames) {step : TableStep}
    (hlive : (step.tables.streams[id]?).isSome) :
    LiveSince limits (steps ++ [step]) id generation
      (frames + ((step.acceptedFrame limits).toList.countP fun frame => frame.streamId = id)) := by
  obtain ⟨earlier, opening, since, frame, rfl, hopens, hid, hgeneration, hsince, rfl⟩ := h
  refine ⟨earlier, opening, since ++ [step], frame, by simp, hopens, hid, hgeneration, ?_, ?_⟩
  · intro other hother
    rcases List.mem_append.mp hother with hother | hother
    · exact hsince other hother
    · obtain rfl := List.mem_singleton.mp hother
      exact hlive
  · unfold framesOn
    rw [acceptedFrames_snoc, List.countP_append]

theorem liveSince_opening {steps : List TableStep} {step : TableStep} {frame : FipcFrame}
    (h : step.Opens limits frame) :
    LiveSince limits (steps ++ [step]) frame.streamId frame.streamGeneration 0 :=
  ⟨steps, step, [], frame, rfl, h, rfl, rfl, by simp, rfl⟩

/-! ## The invariant is kept -/

theorem consistent_nil (limits : Limits) : Consistent limits [] {} := by
  refine ⟨by simp [acceptedFrames], fun _ id => by simp, by simp, fun id stream h => ?_, ?_⟩
  · simp at h
  · simp [acceptedFrames]

theorem Consistent.same {steps : List TableStep} (step : TableStep)
    (h : Consistent limits steps step.tables) (hnone : step.acceptedFrame limits = none)
    {tables' : SessionTables} (hsame : SameSequences step.tables tables') :
    Consistent limits (steps ++ [step]) tables' := by
  have hframes : acceptedFrames limits (steps ++ [step]) = acceptedFrames limits steps := by
    rw [acceptedFrames_snoc, hnone, Option.toList_none, List.append_nil]
  have hnoStream (id : UInt32) (hid : step.tables.streams[id]? = none) : tables'.streams[id]? = none := by
    have hstream := hsame.streams id
    rw [hid] at hstream
    simpa using hstream
  refine ⟨?_, ?_, hnoStream 0 h.no_control_stream, ?_, ?_⟩
  · rw [hframes, hsame.state]
    exact h.greeted
  · rw [hsame.state]
    exact fun hstate id => hnoStream id (h.idle hstate id)
  · intro id stream hstream
    have hmap := hsame.streams id
    rw [hstream] at hmap
    obtain ⟨stream', hlive, hpair⟩ := Option.map_eq_some_iff.mp hmap.symm
    obtain ⟨hgeneration, hsequence⟩ := Prod.ext_iff.mp hpair
    obtain ⟨frames, hsince, hcount⟩ := h.live id stream' hlive
    dsimp only at hgeneration hsequence
    refine ⟨frames, ?_, ?_⟩
    · have hmore := @LiveSince.snoc _ _ _ _ _ hsince step (by rw [hlive]; rfl)
      rw [hnone, hgeneration] at hmore
      exact hmore
    · rw [← hsequence, hcount]
  · rw [hframes, hsame.idempotency]
    exact h.remembered

theorem SessionTables.Accepts.rememberable {tables tables' : SessionTables} {frame : FipcFrame}
    (h : Accepts limits tables frame tables') : tables.Rememberable frame := by
  have hother (htype : frame.type ≠ .buildRequest) : tables.Rememberable frame :=
    fun hrequest => absurd hrequest htype
  cases h with
  | hello _ htype => exact hother (by rw [htype]; decide)
  | opens _ htype => exact hother (by rw [htype]; decide)
  | control _ _ _ _ hremember => exact hremember
  | onStream _ _ _ _ _ _ _ hremember => exact hremember
  | closes _ _ _ _ _ htype => exact hother (by rw [htype]; decide)

theorem SessionTables.Accepts.idempotency {tables tables' : SessionTables} {frame : FipcFrame}
    (h : Accepts limits tables frame tables') : tables'.idempotency = tables.remember frame := by
  have hother (htype : frame.type ≠ .buildRequest) : tables.idempotency = tables.remember frame :=
    (if_neg htype).symm
  cases h with
  | hello _ htype => exact hother (by rw [htype]; decide)
  | opens _ htype => exact hother (by rw [htype]; decide)
  | control => rfl
  | onStream => rfl
  | closes _ _ _ _ _ htype => exact hother (by rw [htype]; decide)

theorem remembered_remember {tables : SessionTables} {frames : List FipcFrame} {frame : FipcFrame}
    (h : ∀ f ∈ frames, f.type = .buildRequest → tables.idempotency[f.requestToken]? = some f.payload)
    (hnew : tables.Rememberable frame) : ∀ f ∈ frames ++ [frame], f.type = .buildRequest →
      (tables.remember frame)[f.requestToken]? = some f.payload := by
  intro f hf htype
  unfold SessionTables.remember
  rcases List.mem_append.mp hf with hf | hf
  · have hprior := h f hf htype
    split_ifs with hrequest
    · by_cases htoken : frame.requestToken = f.requestToken
      · rw [htoken, ExtTreeMap.getElem?_insert_self, hnew hrequest f.payload (by rw [htoken, hprior])]
      · rw [ExtTreeMap.getElem?_insert_of_ne htoken]
        exact hprior
    · exact hprior
  · obtain rfl := List.mem_singleton.mp hf
    rw [if_pos htype, ExtTreeMap.getElem?_insert_self]

theorem Consistent.live_other {steps : List TableStep} {step : TableStep}
    (h : Consistent limits steps step.tables) {frame : FipcFrame}
    (hframe : step.acceptedFrame limits = some frame) {id : UInt32} (hid : frame.streamId ≠ id)
    {stream : StreamState} (hstream : step.tables.streams[id]? = some stream) :
    ∃ frames, LiveSince limits (steps ++ [step]) id stream.generation frames ∧
      stream.nextSequence = UInt64.ofNat frames := by
  obtain ⟨frames, hsince, hcount⟩ := h.live id stream hstream
  have hmore := @LiveSince.snoc _ _ _ _ _ hsince step (by rw [hstream]; rfl)
  rw [hframe] at hmore
  exact ⟨frames, by simpa [hid] using hmore, hcount⟩

theorem Consistent.live_next {steps : List TableStep} {step : TableStep}
    (h : Consistent limits steps step.tables) {frame : FipcFrame}
    (hframe : step.acceptedFrame limits = some frame) {stream : StreamState}
    (hstream : step.tables.streams[frame.streamId]? = some stream) :
    ∃ frames, LiveSince limits (steps ++ [step]) frame.streamId stream.generation frames ∧
      stream.nextSequence + 1 = UInt64.ofNat frames := by
  obtain ⟨frames, hsince, hcount⟩ := h.live _ _ hstream
  have hmore := @LiveSince.snoc _ _ _ _ _ hsince step (by rw [hstream]; rfl)
  rw [hframe] at hmore
  refine ⟨frames + 1, by simpa using hmore, ?_⟩
  rw [hcount, UInt64.ofNat_add]
  rfl

theorem Consistent.accept {steps : List TableStep} (step : TableStep)
    (h : Consistent limits steps step.tables) {frame : FipcFrame}
    (hframe : step.acceptedFrame limits = some frame) {tables' : SessionTables}
    (hok : Accepts limits step.tables frame tables') : Consistent limits (steps ++ [step]) tables' := by
  have hframes : acceptedFrames limits (steps ++ [step]) = acceptedFrames limits steps ++ [frame] := by
    rw [acceptedFrames_snoc, hframe, Option.toList_some]
  have hgreeted {state : SessionState} (hstate : state ≠ .accepted) :
      acceptedFrames limits (steps ++ [step]) = [] ↔ state = .accepted := by
    rw [hframes]
    simp [hstate]
  have hremembered : ∀ f ∈ acceptedFrames limits (steps ++ [step]), f.type = .buildRequest →
      tables'.idempotency[f.requestToken]? = some f.payload := by
    rw [hframes, hok.idempotency]
    exact remembered_remember h.remembered hok.rememberable
  cases hok with
  | hello hstate htype hid hsequence =>
    have hnone (id : UInt32) : step.tables.streams[id]? = none := h.idle (by simp [hstate]) id
    refine ⟨hgreeted (by simp), fun _ => hnone, hnone 0, fun id stream hstream => ?_, hremembered⟩
    dsimp only at hstream
    rw [hnone id] at hstream
    cases hstream
  | opens hstate htype hid hlive hretired hcap =>
    have hnone (id : UInt32) : step.tables.streams[id]? = none := h.idle (by simp [hstate]) id
    refine ⟨hgreeted (by simp), fun hidle => absurd rfl hidle, ?_, fun id stream hstream => ?_, hremembered⟩
    · dsimp only
      rw [ExtTreeMap.getElem?_insert_of_ne hid]
      exact hnone 0
    · obtain ⟨rfl, rfl⟩ | ⟨_, hkept⟩ := ExtTreeMap.getElem?_insert_cases hstream
      · exact ⟨0, liveSince_opening ⟨hframe, hstate, htype⟩, rfl⟩
      · rw [hnone id] at hkept
        cases hkept
  | control hproceeds hid hnone htype hremember =>
    have hstate : step.tables.state ≠ .accepted := fun hs =>
      SessionTables.not_proceeds_of_accepted hs hproceeds
    refine ⟨hgreeted hstate, h.idle, h.no_control_stream, fun id stream hstream => ?_, hremembered⟩
    refine h.live_other hframe (fun hsame => ?_) hstream
    dsimp only at hstream
    rw [← hsame, hnone] at hstream
    cases hstream
  | onStream stream credit hproceeds hlive hgeneration hsequence htype hremember =>
    have hstate : step.tables.state ≠ .accepted := fun hs =>
      SessionTables.not_proceeds_of_accepted hs hproceeds
    have hnonzero : frame.streamId ≠ 0 := fun hzero => by
      rw [hzero, h.no_control_stream] at hlive
      cases hlive
    refine ⟨hgreeted hstate, fun hidle => ?_, ?_, fun id other hother => ?_, hremembered⟩
    · rw [h.idle hidle] at hlive
      cases hlive
    · dsimp only
      rw [ExtTreeMap.getElem?_insert_of_ne hnonzero]
      exact h.no_control_stream
    · obtain ⟨rfl, rfl⟩ | ⟨hne, hkept⟩ := ExtTreeMap.getElem?_insert_cases hother
      · exact h.live_next hframe hlive
      · exact h.live_other hframe hne hkept
  | closes stream hproceeds hlive hgeneration hsequence htype =>
    refine ⟨hgreeted (by dsimp only; split_ifs <;> simp), fun hidle id => ?_, ?_,
      fun id other hother => ?_, hremembered⟩
    · dsimp only at hidle ⊢
      split_ifs at hidle with hempty
      · rw [ExtTreeMap.isEmpty_iff.mp hempty]
        simp
      · exact absurd rfl hidle
    · dsimp only
      rw [ExtTreeMap.getElem?_erase, h.no_control_stream, ite_self]
    · obtain ⟨hid, hbefore⟩ := ExtTreeMap.getElem?_erase_cases hother
      exact h.live_other hframe hid hbefore

theorem Traced.consistent {steps : List TableStep} {tables : SessionTables}
    (h : Traced limits steps tables) : tables.state ≠ .closed → Consistent limits steps tables := by
  induction h with
  | nil => exact fun _ => consistent_nil limits
  | @snoc steps tables before call ih =>
    intro hopen
    have hbefore : tables.state ≠ .closed := fun hclosed =>
      hopen (TableStep.of_closed limits ⟨tables, call⟩ hclosed).2
    rcases TableStep.effect limits ⟨tables, call⟩ with
      ⟨frame, _, hframe, hok⟩ | ⟨_, _, _, hclosed⟩ | ⟨hnone, _, hsame⟩
    · exact Consistent.accept ⟨tables, call⟩ (ih hbefore) hframe hok
    · exact absurd (by rw [hclosed]; rfl) hopen
    · exact Consistent.same ⟨tables, call⟩ (ih hbefore) hnone hsame

/-! ## Whole runs -/

theorem Traced.accepted {steps before later : List TableStep} {step : TableStep} {tables : SessionTables}
    {frame : FipcFrame} (h : Traced limits steps tables) (hsplit : steps = before ++ step :: later)
    (hframe : step.acceptedFrame limits = some frame) :
    Consistent limits before step.tables ∧ Accepts limits step.tables frame (step.after limits) := by
  rcases step.effect limits with ⟨other, _, hother, hok⟩ | ⟨hnone, _⟩ | ⟨hnone, _⟩
  · obtain rfl : other = frame := Option.some.inj (hother.symm.trans hframe)
    exact ⟨(h.of_append hsplit).consistent hok.state_ne, hok⟩
  · rw [hnone] at hframe
    cases hframe
  · rw [hnone] at hframe
    cases hframe

theorem Traced.hello_first {steps : List TableStep} {tables : SessionTables}
    (h : Traced limits steps tables) {frame : FipcFrame}
    (hfirst : (acceptedFrames limits steps).head? = some frame) :
    frame.type = .hello ∧ frame.streamId = 0 ∧ frame.sequence = 0 := by
  obtain ⟨rest, hframes⟩ := List.head?_eq_some_iff.mp hfirst
  obtain ⟨before, step, later, hsplit, hbefore, hframe, _⟩ := List.filterMap_eq_cons_iff.mp hframes
  obtain ⟨hconsistent, hok⟩ := h.accepted hsplit hframe
  have hstate : step.tables.state = .accepted :=
    hconsistent.greeted.mp (List.filterMap_eq_nil_iff.mpr hbefore)
  generalize step.after limits = tables' at hok
  cases hok with
  | hello _ htype hid hsequence => exact ⟨htype, hid, hsequence⟩
  | opens hnegotiated => simp [hstate] at hnegotiated
  | control hproceeds => exact absurd hproceeds (SessionTables.not_proceeds_of_accepted hstate)
  | onStream _ _ hproceeds => exact absurd hproceeds (SessionTables.not_proceeds_of_accepted hstate)
  | closes _ hproceeds => exact absurd hproceeds (SessionTables.not_proceeds_of_accepted hstate)

theorem Traced.frame_on_stream {steps before later : List TableStep} {step : TableStep}
    {tables : SessionTables} {frame : FipcFrame} (h : Traced limits steps tables)
    (hsplit : steps = before ++ step :: later) (hframe : step.acceptedFrame limits = some frame)
    (hid : frame.streamId ≠ 0) (hopens : ¬ step.Opens limits frame) :
    (step.tables.streams[frame.streamId]?).isSome ∧
      ∃ frames, LiveSince limits before frame.streamId frame.streamGeneration frames ∧
        frame.sequence = UInt64.ofNat frames := by
  obtain ⟨hconsistent, hok⟩ := h.accepted hsplit hframe
  have hnext (stream : StreamState) (hlive : step.tables.streams[frame.streamId]? = some stream)
      (hgeneration : stream.generation = frame.streamGeneration)
      (hsequence : stream.nextSequence = frame.sequence) :
      (step.tables.streams[frame.streamId]?).isSome ∧
        ∃ frames, LiveSince limits before frame.streamId frame.streamGeneration frames ∧
          frame.sequence = UInt64.ofNat frames := by
    obtain ⟨frames, hsince, hcount⟩ := hconsistent.live _ _ hlive
    rw [hgeneration] at hsince
    exact ⟨by rw [hlive]; rfl, frames, hsince, hsequence.symm.trans hcount⟩
  generalize step.after limits = tables' at hok
  cases hok with
  | hello _ _ hzero => exact absurd hzero hid
  | opens hstate htype => exact absurd ⟨hframe, hstate, htype⟩ hopens
  | control _ hzero => exact absurd hzero hid
  | onStream stream credit _ hlive hgeneration hsequence => exact hnext stream hlive hgeneration hsequence
  | closes stream _ hlive hgeneration hsequence => exact hnext stream hlive hgeneration hsequence

theorem Traced.one_payload {steps : List TableStep} {tables : SessionTables}
    (h : Traced limits steps tables) : ∀ f ∈ acceptedFrames limits steps,
      ∀ g ∈ acceptedFrames limits steps, f.type = .buildRequest → g.type = .buildRequest →
        f.requestToken = g.requestToken → f.payload = g.payload := by
  induction h with
  | nil => simp [acceptedFrames]
  | @snoc steps tables before call ih =>
    rw [acceptedFrames_snoc]
    cases hframe : TableStep.acceptedFrame limits ⟨tables, call⟩ with
    | none =>
      rw [Option.toList_none, List.append_nil]
      exact ih
    | some frame =>
      rw [Option.toList_some]
      have htraced := before.snoc call
      obtain ⟨hconsistent, hok⟩ := htraced.accepted rfl hframe
      have hnew (f : FipcFrame) (hf : f ∈ acceptedFrames limits steps) (hf' : f.type = .buildRequest)
          (htype : frame.type = .buildRequest) (htoken : f.requestToken = frame.requestToken) :
          f.payload = frame.payload := by
        have hprior := hconsistent.remembered f hf hf'
        rw [htoken] at hprior
        exact hok.rememberable htype f.payload hprior
      intro f hf g hg hf' hg' htoken
      rcases List.mem_append.mp hf with hold | hlast
      · rcases List.mem_append.mp hg with hold' | hlast'
        · exact ih f hold g hold' hf' hg' htoken
        · obtain rfl := List.mem_singleton.mp hlast'
          exact hnew f hold hf' hg' htoken
      · obtain rfl := List.mem_singleton.mp hlast
        rcases List.mem_append.mp hg with hold' | hlast'
        · exact (hnew g hold' hg' hf' htoken.symm).symm
        · obtain rfl := List.mem_singleton.mp hlast'
          rfl

namespace FipcSession

/-- **Behind the first feed that fails** no feed delivers an event. -/
theorem no_event_after_error (limits : Limits) (earlier between : List SessionCall) (data data' : Bytes)
    (status : Status) (hfails : ((run limits earlier).feed data).1 = .error status)
    (events : List SessionEvent)
    (hfeed : ((run limits (earlier ++ .feed data :: between)).feed data').1 = .ok events) : events = [] := by
  have hclosed : ((run limits earlier).call (.feed data)).tables.state = .closed :=
    feedLoop_error _ _ data [] status hfails
  have hlater := foldl_call_of_closed between hclosed
  have hrun : run limits (earlier ++ .feed data :: between) =
      between.foldl call ((run limits earlier).call (.feed data)) := by
    unfold run
    rw [List.foldl_append, List.foldl_cons]
  rw [← hrun] at hlater
  exact feed_of_closed hlater hfeed

/-- **Trace safety** of every run of a session, whatever is fed in whatever chunks. -/
theorem trace_safe (limits : Limits) (calls : List SessionCall) :
    (∀ frame, (acceptedFrames limits (trace limits calls)).head? = some frame →
      frame.type = .hello ∧ frame.streamId = 0 ∧ frame.sequence = 0) ∧
    (∀ before step later frame, trace limits calls = before ++ step :: later →
      step.acceptedFrame limits = some frame → frame.streamId ≠ 0 → ¬ step.Opens limits frame →
        (step.tables.streams[frame.streamId]?).isSome ∧
          ∃ frames, LiveSince limits before frame.streamId frame.streamGeneration frames ∧
            frame.sequence = UInt64.ofNat frames) ∧
    (∀ f ∈ acceptedFrames limits (trace limits calls), ∀ g ∈ acceptedFrames limits (trace limits calls),
      f.type = .buildRequest → g.type = .buildRequest → f.requestToken = g.requestToken →
        f.payload = g.payload) ∧
    (∀ earlier data between data' later status events,
      calls = earlier ++ .feed data :: (between ++ .feed data' :: later) →
        ((run limits earlier).feed data).1 = .error status →
          ((run limits (earlier ++ .feed data :: between)).feed data').1 = .ok events → events = []) := by
  have htraced := traced_run limits calls
  refine ⟨fun frame => htraced.hello_first, ?_, htraced.one_payload, ?_⟩
  · intro before step later frame hsplit hframe hid hopens
    exact htraced.frame_on_stream hsplit hframe hid hopens
  · intro earlier data between data' later status events _ hfails hfeed
    exact no_event_after_error limits earlier between data data' status hfails events hfeed

end FipcSession

end Forge
