import Forge.Ipc.TraceSafety

/-!
# The invariant of the session state

State, streams and retired generations of a session agree behind every step (`WellFormed`), also where
a frame is refused: such a frame replaces at most one stream in place before the session closes. Retired
generations never decrease, since a stream is opened above the retired generation of its id, and each of
them once was the generation of an opening. So `opens_iff` says where a further stream may be opened:
`apply_frame` looks for an open_stream frame in the negotiated state only, in which no stream is live.
-/

namespace Forge

open Std (ExtTreeMap)
open SessionTables (Accepts)

variable {limits : Limits}

/-! ## The invariant -/

/-- What holds of the tables of a session in each of its states. -/
structure WellFormed (limits : Limits) (tables : SessionTables) : Prop where
  accepted : tables.state = .accepted → tables.streams = ∅ ∧ tables.retiredStreamGenerations = ∅
  negotiated : tables.state = .negotiated → tables.streams = ∅
  active : tables.state = .active → tables.streams ≠ ∅
  control : (0 : UInt32) ∉ tables.streams
  cap : tables.streams.size ≤ limits.maxStreams.toNat
  reuse : ∀ (id : UInt32) (stream : StreamState) (generation : UInt32),
    tables.streams[id]? = some stream → tables.retiredStreamGenerations[id]? = some generation →
      generation < stream.generation

/-- Retired generations stay, or increase. -/
def RetiredLe (tables tables' : SessionTables) : Prop :=
  ∀ (id : UInt32) (generation : UInt32), tables.retiredStreamGenerations[id]? = some generation →
    ∃ generation', tables'.retiredStreamGenerations[id]? = some generation' ∧ generation ≤ generation'

theorem RetiredLe.refl (tables : SessionTables) : RetiredLe tables tables :=
  fun _ generation h => ⟨generation, h, UInt32.le_refl generation⟩

theorem RetiredLe.trans {tables tables' tables'' : SessionTables} (h : RetiredLe tables tables')
    (h' : RetiredLe tables' tables'') : RetiredLe tables tables'' := by
  intro id generation hgeneration
  obtain ⟨generation', hgeneration', hle⟩ := h id generation hgeneration
  obtain ⟨generation'', hgeneration'', hle'⟩ := h' id generation' hgeneration'
  exact ⟨generation'', hgeneration'', UInt32.le_trans hle hle'⟩

theorem wellFormed_init (limits : Limits) : WellFormed limits {} := by
  refine ⟨fun _ => ⟨rfl, rfl⟩, fun h => (by cases h), fun h => (by cases h),
    ExtTreeMap.not_mem_empty, Nat.zero_le _, fun id stream generation hlive _ => ?_⟩
  simp at hlive

/-! ## One step -/

theorem TableStep.accepts_or_refreshes (limits : Limits) (step : TableStep) :
    (∃ frame, step.call = .applyFrame frame ∧ step.acceptedFrame limits = some frame ∧
        Accepts limits step.tables frame (step.after limits)) ∨
      step.acceptedFrame limits = none ∧ ∃ tables', step.tables.Refreshes tables' ∧
        (step.after limits = tables' ∨ step.after limits = tables'.close) := by
  rcases step.effect limits with haccepts | ⟨hnone, tables, hrefreshes, hafter⟩ | ⟨hnone, hrefreshes, _⟩
  · exact .inl haccepts
  · exact .inr ⟨hnone, tables, hrefreshes, .inr hafter⟩
  · exact .inr ⟨hnone, _, hrefreshes, .inl rfl⟩

theorem WellFormed.refreshes {tables tables' : SessionTables} (h : WellFormed limits tables)
    (hrefreshes : tables.Refreshes tables') : WellFormed limits tables' := by
  cases hrefreshes with
  | same => exact h
  | @stream id stream stream' hlive hgeneration =>
    have hmem := ExtTreeMap.mem_of_getElem?_eq_some hlive
    have hnonempty := ExtTreeMap.ne_empty_of_mem hmem
    refine ⟨fun hstate => absurd (h.accepted hstate).1 hnonempty,
      fun hstate => absurd (h.negotiated hstate) hnonempty, fun _ => ExtTreeMap.insert_ne_empty, ?_, ?_,
      fun other live generation hother hretired => ?_⟩
    · rw [ExtTreeMap.mem_insert]
      rintro (hzero | hmem')
      · rw [Std.LawfulEqCmp.eq_of_compare hzero] at hmem
        exact h.control hmem
      · exact h.control hmem'
    · dsimp only
      rw [ExtTreeMap.size_insert, if_pos (ExtTreeMap.mem_iff_contains.mp hmem)]
      exact h.cap
    · obtain ⟨rfl, rfl⟩ | ⟨_, hkept⟩ := ExtTreeMap.getElem?_insert_cases hother
      · rw [hgeneration]
        exact h.reuse id stream generation hlive hretired
      · exact h.reuse other live generation hkept hretired

theorem WellFormed.close {tables : SessionTables} (h : WellFormed limits tables) :
    WellFormed limits tables.close :=
  ⟨fun hstate => (by cases hstate), fun hstate => (by cases hstate), fun hstate => (by cases hstate),
    h.control, h.cap, h.reuse⟩

theorem WellFormed.accept {tables tables' : SessionTables} (h : WellFormed limits tables)
    {frame : FipcFrame} (hok : Accepts limits tables frame tables') : WellFormed limits tables' := by
  cases hok with
  | hello hstate =>
    exact ⟨fun hstate' => (by cases hstate'), fun _ => (h.accepted hstate).1,
      fun hstate' => (by cases hstate'), h.control, h.cap, h.reuse⟩
  | opens hstate htype hid hlive hretired hcap =>
    refine ⟨fun hstate' => (by cases hstate'), fun hstate' => (by cases hstate'),
      fun _ => ExtTreeMap.insert_ne_empty, ?_, ?_, fun other live generation hother hgeneration => ?_⟩
    · rw [ExtTreeMap.mem_insert]
      rintro (hzero | hmem)
      · exact hid (Std.LawfulEqCmp.eq_of_compare hzero)
      · exact h.control hmem
    · exact (ExtTreeMap.size_insert_le).trans hcap
    · obtain ⟨rfl, rfl⟩ | ⟨_, hkept⟩ := ExtTreeMap.getElem?_insert_cases hother
      · exact hretired generation hgeneration
      · exact h.reuse other live generation hkept hgeneration
  | control => exact ⟨h.accepted, h.negotiated, h.active, h.control, h.cap, h.reuse⟩
  | onStream stream credit hproceeds hlive =>
    have hsame := h.refreshes
      (.stream { stream with nextSequence := stream.nextSequence + 1, credit } hlive rfl)
    exact ⟨hsame.accepted, hsame.negotiated, hsame.active, hsame.control, hsame.cap, hsame.reuse⟩
  | closes stream hproceeds hlive hgeneration hsequence htype =>
    refine ⟨fun hstate => ?_, fun hstate => ?_, fun hstate => ?_,
      fun hmem => h.control (ExtTreeMap.mem_of_mem_erase hmem),
      (ExtTreeMap.size_erase_le).trans h.cap, fun other live generation hother hretired => ?_⟩
    · dsimp only at hstate
      split_ifs at hstate
    · dsimp only at hstate ⊢
      split_ifs at hstate with hempty
      exact ExtTreeMap.isEmpty_iff.mp hempty
    · dsimp only at hstate ⊢
      split_ifs at hstate with hempty
      exact fun hnone => hempty (ExtTreeMap.isEmpty_iff.mpr hnone)
    · -- the stream whose generation is retired is gone
      dsimp only at hother hretired
      obtain ⟨hne, hkept⟩ := ExtTreeMap.getElem?_erase_cases hother
      rw [ExtTreeMap.getElem?_insert_of_ne hne] at hretired
      exact h.reuse other live generation hkept hretired

theorem TableStep.wellFormed (step : TableStep) (h : WellFormed limits step.tables) :
    WellFormed limits (step.after limits) := by
  rcases step.accepts_or_refreshes limits with ⟨frame, _, _, hok⟩ | ⟨_, tables', hrefreshes, hafter | hafter⟩
  · exact h.accept hok
  · rw [hafter]
    exact h.refreshes hrefreshes
  · rw [hafter]
    exact (h.refreshes hrefreshes).close

theorem TableStep.retiredLe (step : TableStep) (h : WellFormed limits step.tables) :
    RetiredLe step.tables (step.after limits) := by
  -- only the close of a stream retires a generation, and it is the greater one
  rcases step.accepts_or_refreshes limits with ⟨frame, _, _, hok⟩ | ⟨_, tables', hrefreshes, hafter⟩
  · generalize step.after limits = tables' at hok
    cases hok with
    | hello => exact .refl _
    | opens => exact .refl _
    | control => exact .refl _
    | onStream => exact .refl _
    | closes stream _ hlive =>
      intro id generation hgeneration
      dsimp only
      rw [ExtTreeMap.getElem?_insert]
      split_ifs with hsame
      · obtain rfl := Std.LawfulEqCmp.eq_of_compare hsame
        exact ⟨stream.generation, rfl, UInt32.le_of_lt (h.reuse _ stream generation hlive hgeneration)⟩
      · exact ⟨generation, hgeneration, UInt32.le_refl generation⟩
  · have hkept : (step.after limits).retiredStreamGenerations = step.tables.retiredStreamGenerations := by
      have htables' : tables'.retiredStreamGenerations = step.tables.retiredStreamGenerations := by
        cases hrefreshes <;> rfl
      rcases hafter with hafter | hafter
      · rw [hafter, htables']
      · rw [hafter]
        exact htables'
    intro id generation hgeneration
    exact ⟨generation, by rw [hkept, hgeneration], UInt32.le_refl generation⟩

/-! ## Runs -/

theorem Traced.wellFormed {steps : List TableStep} {tables : SessionTables}
    (h : Traced limits steps tables) : WellFormed limits tables := by
  induction h with
  | nil => exact wellFormed_init limits
  | snoc before call ih => exact TableStep.wellFormed ⟨_, call⟩ ih

theorem retiredLe_tablesAfter (calls : List TableCall) : ∀ {tables : SessionTables},
    WellFormed limits tables → RetiredLe tables (tablesAfter limits tables calls) := by
  induction calls with
  | nil => exact fun {tables} _ => .refl tables
  | cons call calls ih =>
    intro tables h
    exact (TableStep.retiredLe ⟨tables, call⟩ h).trans (ih (TableStep.wellFormed ⟨tables, call⟩ h))

namespace FipcSession

/-- **The session state invariant** holds in every state a session can reach, and retired generations
never decrease. -/
theorem wellFormed_run (limits : Limits) (calls : List SessionCall) :
    WellFormed limits (run limits calls).tables ∧
      ∀ earlier, earlier <+: calls → RetiredLe (run limits earlier).tables (run limits calls).tables := by
  refine ⟨(traced_run limits calls).wellFormed, fun earlier hearlier => ?_⟩
  obtain ⟨later, rfl⟩ := hearlier
  have hlimits : (run limits earlier).limits = limits := (foldl_call_tables earlier (init limits)).1
  have hlater := (foldl_call_tables later (run limits earlier)).2
  rw [hlimits] at hlater
  have happend : run limits (earlier ++ later) = later.foldl call (run limits earlier) :=
    List.foldl_append
  rw [happend, hlater]
  exact retiredLe_tablesAfter _ (traced_run limits earlier).wellFormed

end FipcSession

/-! ## Further streams -/

/-- A step of the run opened the stream with this generation. -/
def OpenedWith (limits : Limits) (steps : List TableStep) (streamId generation : UInt32) : Prop :=
  ∃ step ∈ steps, ∃ frame, step.Opens limits frame ∧ frame.streamId = streamId ∧
    frame.streamGeneration = generation

/-- The tables hold the generation for the stream, live or retired. -/
def SessionTables.Known (tables : SessionTables) (streamId generation : UInt32) : Prop :=
  tables.retiredStreamGenerations[streamId]? = some generation ∨
    ∃ stream, tables.streams[streamId]? = some stream ∧ stream.generation = generation

theorem TableStep.known_of_after {step : TableStep} {streamId generation : UInt32}
    (h : (step.after limits).Known streamId generation) :
    step.tables.Known streamId generation ∨
      ∃ frame, step.Opens limits frame ∧ frame.streamId = streamId ∧
        frame.streamGeneration = generation := by
  rcases step.accepts_or_refreshes limits with ⟨frame, _, hframe, hok⟩ | ⟨_, tables', hrefreshes, hafter⟩
  · generalize step.after limits = tables' at h hok
    cases hok with
    | hello => exact .inl h
    | opens hstate htype =>
      rcases h with hretired | ⟨stream, hlive, rfl⟩
      · exact .inl (.inl hretired)
      · obtain ⟨hid, rfl⟩ | ⟨_, hkept⟩ := ExtTreeMap.getElem?_insert_cases hlive
        · exact .inr ⟨frame, ⟨hframe, hstate, htype⟩, hid, rfl⟩
        · exact .inl (.inr ⟨stream, hkept, rfl⟩)
    | control => exact .inl h
    | onStream before credit _ hbefore =>
      rcases h with hretired | ⟨stream, hlive, rfl⟩
      · exact .inl (.inl hretired)
      · obtain ⟨rfl, rfl⟩ | ⟨_, hkept⟩ := ExtTreeMap.getElem?_insert_cases hlive
        · exact .inl (.inr ⟨before, hbefore, rfl⟩)
        · exact .inl (.inr ⟨stream, hkept, rfl⟩)
    | closes before _ hbefore =>
      rcases h with hretired | ⟨stream, hlive, rfl⟩
      · obtain ⟨rfl, rfl⟩ | ⟨_, hkept⟩ := ExtTreeMap.getElem?_insert_cases hretired
        · exact .inl (.inr ⟨before, hbefore, rfl⟩)
        · exact .inl (.inl hkept)
      · obtain ⟨_, hkept⟩ := ExtTreeMap.getElem?_erase_cases hlive
        exact .inl (.inr ⟨stream, hkept, rfl⟩)
  · have hknown : tables'.Known streamId generation := by
      rcases hafter with hafter | hafter
      · rwa [hafter] at h
      · rwa [hafter] at h
    cases hrefreshes with
    | same => exact .inl hknown
    | stream stream' hbefore hgeneration =>
      rcases hknown with hretired | ⟨stream, hlive, rfl⟩
      · exact .inl (.inl hretired)
      · obtain ⟨rfl, rfl⟩ | ⟨_, hkept⟩ := ExtTreeMap.getElem?_insert_cases hlive
        · exact .inl (.inr ⟨_, hbefore, hgeneration.symm⟩)
        · exact .inl (.inr ⟨stream, hkept, rfl⟩)

theorem Traced.openedWith {steps : List TableStep} {tables : SessionTables} (h : Traced limits steps tables)
    {streamId generation : UInt32} (hknown : tables.Known streamId generation) :
    OpenedWith limits steps streamId generation := by
  induction h with
  | nil => rcases hknown with hretired | ⟨stream, hlive, _⟩ <;> simp_all
  | @snoc steps tables before call ih =>
    rcases TableStep.known_of_after hknown with hearlier | ⟨frame, hopens⟩
    · obtain ⟨step, hstep, hopened⟩ := ih hearlier
      exact ⟨step, List.mem_append_left _ hstep, hopened⟩
    · exact ⟨⟨tables, call⟩, by simp, frame, hopens⟩

/-- The frame is accepted and adds a new stream to those that are live. -/
def SessionTables.AddsStream (limits : Limits) (tables : SessionTables) (frame : FipcFrame) : Prop :=
  ∃ event tables', tables.applyFrame limits frame = (.ok event, tables') ∧
    tables'.streams[frame.streamId]? =
      some { generation := frame.streamGeneration, nextSequence := 0, credit := 0 } ∧
    ∀ id, id ≠ frame.streamId → tables'.streams[id]? = tables.streams[id]?

theorem SessionTables.addsStream_of_negotiated {tables : SessionTables} {frame : FipcFrame}
    (hstate : tables.state = .negotiated) (htype : frame.type = .openStream) (hid : frame.streamId ≠ 0)
    (hlive : tables.streams[frame.streamId]? = none)
    (hretired : ∀ generation, tables.retiredStreamGenerations[frame.streamId]? = some generation →
      generation < frame.streamGeneration)
    (hcap : tables.streams.size < limits.maxStreams.toNat) : AddsStream limits tables frame := by
  have happly : tables.applyOpenStream limits frame =
      (.ok (), { tables with
        streams := tables.streams.insert frame.streamId { generation := frame.streamGeneration }
        state := .active }) := by
    have hreuse : ¬ (frame.streamId = 0 ∨
        (tables.streams[frame.streamId]?).any (frame.streamGeneration ≤ ·.generation) ∨
        (tables.retiredStreamGenerations[frame.streamId]?).any (frame.streamGeneration ≤ ·)) := by
      rw [hlive]
      rintro (hzero | hlow | hlow)
      · exact hid hzero
      · cases hlow
      · rw [Option.any_eq_true] at hlow
        obtain ⟨generation, hgeneration, hle⟩ := hlow
        exact UInt32.not_lt.mpr (of_decide_eq_true hle) (hretired generation hgeneration)
    unfold applyOpenStream
    dsimp only
    rw [if_neg hreuse, if_neg (Nat.not_le.mpr hcap)]
  have happlied : tables.applyFrame limits frame = (.ok (eventOf frame), { tables with
      streams := tables.streams.insert frame.streamId { generation := frame.streamGeneration }
      state := .active }) := by
    unfold applyFrame
    rw [if_neg (by simp [hstate]), if_pos ⟨hstate, htype⟩, happly]
    rfl
  exact ⟨_, _, happlied, ExtTreeMap.getElem?_insert_self, fun id hother =>
    ExtTreeMap.getElem?_insert_of_ne hother.symm⟩

theorem OpenedWith.exists_frame {steps : List TableStep} {streamId generation : UInt32}
    (h : OpenedWith limits steps streamId generation) :
    ∃ frame ∈ acceptedFrames limits steps, frame.type = .openStream ∧ frame.streamId = streamId ∧
      frame.streamGeneration = generation := by
  obtain ⟨step, hstep, frame, ⟨hframe, _, htype⟩, hid, hgeneration⟩ := h
  exact ⟨frame, List.mem_filterMap.mpr ⟨step, hstep, hframe⟩, htype, hid, hgeneration⟩

namespace FipcSession

/-- **A session opens a stream exactly while none is live**: an open_stream frame for an unused id and
generation, below the cap, is accepted in the negotiated state and refused in the active one. -/
theorem addsStream_iff (limits : Limits) (calls : List SessionCall) (frame : FipcFrame)
    (hgreeted : (run limits calls).tables.state ≠ .accepted)
    (hopen : (run limits calls).tables.state ≠ .closed)
    (hcap : (run limits calls).tables.streams.size < limits.maxStreams.toNat)
    (htype : frame.type = .openStream) (hid : frame.streamId ≠ 0)
    (hlive : frame.streamId ∉ (run limits calls).tables.streams)
    (habove : ∀ generation, OpenedWith limits (trace limits calls) frame.streamId generation →
      generation < frame.streamGeneration) :
    SessionTables.AddsStream limits (run limits calls).tables frame ↔
      (run limits calls).tables.streams = ∅ := by
  have hwell := (wellFormed_run limits calls).1
  have htraced := traced_run limits calls
  generalize (run limits calls).tables = tables at *
  have hnone : tables.streams[frame.streamId]? = none := ExtTreeMap.not_mem_iff.mp hlive
  constructor
  · rintro ⟨event, tables', happly, _⟩
    by_contra hnonempty
    rcases SessionTables.applyFrame_cases limits tables frame with
      ⟨_, _, hok⟩ | ⟨status, hrefused, _⟩ | ⟨status, stream, _, _, hrefused⟩
    · cases hok with
      | hello hstate => exact hgreeted hstate
      | opens hstate => exact hnonempty (hwell.negotiated hstate)
      | control _ hzero => exact hid hzero
      | onStream _ _ _ hstream =>
        rw [hnone] at hstream
        cases hstream
      | closes _ _ hstream =>
        rw [hnone] at hstream
        cases hstream
    · rw [happly] at hrefused
      cases hrefused
    · rw [happly] at hrefused
      cases hrefused
  · intro hempty
    have hstate : tables.state = .negotiated := by
      cases hstate : tables.state with
      | accepted => exact absurd hstate hgreeted
      | negotiated => rfl
      | active => exact absurd hempty (hwell.active hstate)
      | closed => exact absurd hstate hopen
    exact SessionTables.addsStream_of_negotiated hstate htype hid hnone
      (fun generation hretired => habove generation (htraced.openedWith (.inl hretired))) hcap

/-- A stream that was closed is opened again with a greater generation. -/
theorem addsStream_iff_reopened :
    SessionTables.AddsStream {} (run {} [.feed helloBytes,
      .feed (FipcCodec.encode { type := .openStream, streamId := 1, streamGeneration := 1 }),
      .feed (FipcCodec.encode { type := .closeStream, streamId := 1, streamGeneration := 1 })]).tables
      { type := .openStream, streamId := 1, streamGeneration := 2 } := by
  have hframes : acceptedFrames {} (trace {} [.feed helloBytes,
      .feed (FipcCodec.encode { type := .openStream, streamId := 1, streamGeneration := 1 }),
      .feed (FipcCodec.encode { type := .closeStream, streamId := 1, streamGeneration := 1 })]) =
        [{ type := .hello }, { type := .openStream, streamId := 1, streamGeneration := 1 },
          { type := .closeStream, streamId := 1, streamGeneration := 1 }] := by
    decide +kernel
  refine (addsStream_iff {} _ _ (by decide +kernel) (by decide +kernel) (by decide +kernel) rfl
    (by decide) (by decide +kernel) ?_).mpr (by decide +kernel)
  intro generation hopened
  obtain ⟨frame, hframe, htype, _, rfl⟩ := hopened.exists_frame
  rw [hframes] at hframe
  have hone : ∀ f ∈ ([{ type := .hello }, { type := .openStream, streamId := 1, streamGeneration := 1 },
      { type := .closeStream, streamId := 1, streamGeneration := 1 }] : List FipcFrame),
      f.type = .openStream → f.streamGeneration < 2 := by
    decide
  exact hone frame hframe htype

/-- A second stream is refused beside the first one. -/
theorem second_stream_refused :
    let calls : List SessionCall := [.feed helloBytes,
      .feed (FipcCodec.encode { type := .openStream, streamId := 1, streamGeneration := 1 })]
    let session := run {} calls
    session.tables.state = .active ∧ session.tables.streams.size < ({} : Limits).maxStreams.toNat ∧
      (2 : UInt32) ∉ session.tables.streams ∧
      (∀ generation, OpenedWith {} (trace {} calls) 2 generation → generation < 1) ∧
      ¬ SessionTables.AddsStream {} session.tables
        { type := .openStream, streamId := 2, streamGeneration := 1 } := by
  intro calls session
  refine ⟨by decide +kernel, by decide +kernel, by decide +kernel, fun generation hopened => ?_, ?_⟩
  · obtain ⟨frame, hframe, _, hid, _⟩ := hopened.exists_frame
    have hframes : acceptedFrames {} (trace {} calls) =
        [{ type := .hello }, { type := .openStream, streamId := 1, streamGeneration := 1 }] := by
      decide +kernel
    rw [hframes] at hframe
    have hother : ∀ f ∈ ([{ type := .hello }, { type := .openStream, streamId := 1, streamGeneration := 1 }] :
        List FipcFrame), f.streamId ≠ 2 := by
      decide
    exact absurd hid (hother frame hframe)
  · rintro ⟨event, tables', happly, _⟩
    have hrefused : (session.tables.applyFrame {}
        { type := .openStream, streamId := 2, streamGeneration := 1 }).1 =
          .error (sessionError "unknown stream") := by
      decide +kernel
    rw [happly] at hrefused
    cases hrefused

end FipcSession

end Forge
