import Forge.Ipc.SessionInvariant

/-!
# Where frames are accepted

The branches of `apply_frame` for a hello and for an opening check the state of the session. The rest of
it takes any frame that is the next one of a live stream, and any frame on stream 0, which is never live,
unless it is about credit. So a hello is accepted a second time, and requests and closes are accepted on
stream 0: the runs in which this happens are exactly those with a misplaced frame (`inPlace_iff`).
-/

namespace Forge

open Std (ExtTreeMap)
open SessionTables (Accepts)

variable {limits : Limits}

/-! ## Definitions -/

/-- A step of the run opened the stream, and no frame that closes it was accepted since. -/
def StreamOpen (limits : Limits) (steps : List TableStep) (streamId : UInt32) : Prop :=
  ∃ earlier opening since frame, steps = earlier ++ opening :: since ∧ opening.Opens limits frame ∧
    frame.streamId = streamId ∧
    ∀ step ∈ since, ∀ later, step.acceptedFrame limits = some later →
      ¬ (later.type = .closeStream ∧ later.streamId = streamId)

/-- Frames of this type are about an open stream. -/
def FrameType.OnOpenStream (type : FrameType) : Prop :=
  type = .buildRequest ∨ type = .cancelRequest ∨ type = .credit ∨ type = .closeStream

/-- Frames are accepted only where the state table allows them. -/
structure InPlace (limits : Limits) (steps : List TableStep) : Prop where
  hello : ∀ first rest, acceptedFrames limits steps = first :: rest →
    first.type = .hello ∧ ∀ frame ∈ rest, frame.type ≠ .hello
  onStream : ∀ before step later frame, steps = before ++ step :: later →
    step.acceptedFrame limits = some frame → frame.type.OnOpenStream →
      StreamOpen limits before frame.streamId

/-- Behind the first hello another one comes on stream 0 or as the next frame of a live stream, or a
request or a close comes on stream 0. -/
def TableStep.Misplaced (step : TableStep) : Prop :=
  ∃ frame, step.call = .applyFrame frame ∧
    (step.tables.state = .negotiated ∨ step.tables.state = .active) ∧
    ((frame.type = .hello ∧ (frame.streamId = 0 ∨ ∃ stream, step.tables.NextOnStream frame stream)) ∨
      frame.streamId = 0 ∧
        (frame.type = .cancelRequest ∨ frame.type = .closeStream ∨
          frame.type = .buildRequest ∧ step.tables.Rememberable frame))

/-! ## Misplaced frames are accepted -/

theorem TableStep.Misplaced.accepted {step : TableStep} (h : step.Misplaced)
    (hwell : WellFormed limits step.tables) : ∃ frame, step.acceptedFrame limits = some frame ∧
      (frame.type = .hello ∨ frame.streamId = 0 ∧ frame.type.OnOpenStream) := by
  obtain ⟨tables, call⟩ := step
  obtain ⟨frame, hcall, hstate, hkind⟩ := h
  obtain rfl : call = .applyFrame frame := hcall
  have hproceeds (htype : frame.type ≠ .openStream) : tables.Proceeds frame :=
    hstate.symm.imp_right fun hnegotiated => ⟨hnegotiated, htype⟩
  have hcontrol (hid : frame.streamId = 0) :
      frame.streamId = 0 ∧ tables.streams[frame.streamId]? = none := by
    refine ⟨hid, ?_⟩
    rw [← Option.not_isSome_iff_eq_none, ← ExtTreeMap.mem_iff_isSome_getElem?, hid]
    exact hwell.control
  have hother (htype : frame.type ≠ .buildRequest) : tables.Rememberable frame :=
    fun hrequest => absurd hrequest htype
  have haccepted (htype : frame.type ≠ .openStream ∧ frame.type ≠ .credit)
      (hremember : tables.Rememberable frame)
      (hplace : frame.streamId = 0 ∨ ∃ stream, tables.NextOnStream frame stream) :
      TableStep.acceptedFrame limits ⟨tables, .applyFrame frame⟩ = some frame :=
    acceptedFrame_of_proceeds (hproceeds htype.1) htype.2 hremember (hplace.imp_left hcontrol)
  rcases hkind with ⟨htype, hplace⟩ | ⟨hid, htype | htype | ⟨htype, hremember⟩⟩
  · exact ⟨frame, haccepted (by rw [htype]; decide) (hother (by rw [htype]; decide)) hplace, .inl htype⟩
  · exact ⟨frame, haccepted (by rw [htype]; decide) (hother (by rw [htype]; decide)) (.inl hid),
      .inr ⟨hid, .inr (.inl htype)⟩⟩
  · exact ⟨frame, haccepted (by rw [htype]; decide) (hother (by rw [htype]; decide)) (.inl hid),
      .inr ⟨hid, .inr (.inr (.inr htype))⟩⟩
  · exact ⟨frame, haccepted (by rw [htype]; decide) hremember (.inl hid), .inr ⟨hid, .inl htype⟩⟩

theorem not_streamOpen_zero {steps : List TableStep} {tables : SessionTables}
    (h : Traced limits steps tables) : ¬ StreamOpen limits steps 0 := by
  rintro ⟨earlier, opening, since, frame, hsplit, ⟨hframe, hstate, htype⟩, hid, _⟩
  obtain ⟨_, hok⟩ := h.accepted hsplit hframe
  generalize opening.after limits = tables' at hok
  cases hok with
  | hello hstate' => simp [hstate] at hstate'
  | opens _ _ hnonzero => exact hnonzero hid
  | control hproceeds => exact SessionTables.not_proceeds_of_open hstate htype hproceeds
  | onStream _ _ hproceeds => exact SessionTables.not_proceeds_of_open hstate htype hproceeds
  | closes _ hproceeds => exact SessionTables.not_proceeds_of_open hstate htype hproceeds

theorem Traced.not_inPlace {steps : List TableStep} {tables : SessionTables} (h : Traced limits steps tables)
    {step : TableStep} (hstep : step ∈ steps) (hmisplaced : step.Misplaced) : ¬ InPlace limits steps := by
  intro hplace
  obtain ⟨before, later, hsplit⟩ := List.append_of_mem hstep
  have hbefore := h.of_append hsplit
  obtain ⟨frame, hframe, hhello | ⟨hid, hkind⟩⟩ := hmisplaced.accepted hbefore.wellFormed
  · -- a hello behind the first accepted frame
    obtain ⟨hconsistent, _⟩ := h.accepted hsplit hframe
    obtain ⟨_, _, hstate, _⟩ := hmisplaced
    have hgreeted : acceptedFrames limits before ≠ [] := fun hnone => by
      have haccepted := hconsistent.greeted.mp hnone
      simp [haccepted] at hstate
    obtain ⟨first, rest, hfirst⟩ := List.exists_cons_of_ne_nil hgreeted
    have hframes : acceptedFrames limits steps =
        first :: (rest ++ frame :: acceptedFrames limits later) := by
      unfold acceptedFrames at hfirst ⊢
      rw [hsplit, List.filterMap_append, List.filterMap_cons_some hframe, hfirst, List.cons_append]
    exact (hplace.hello first _ hframes).2 frame (by simp) hhello
  · have hopen := hplace.onStream before step later frame hsplit hframe hkind
    rw [hid] at hopen
    exact not_streamOpen_zero hbefore hopen

/-! ## Other frames are in place -/

theorem LiveSince.streamOpen {steps : List TableStep} {tables : SessionTables}
    (h : Traced limits steps tables) {streamId generation : UInt32} {frames : Nat}
    (hsince : LiveSince limits steps streamId generation frames)
    (hlive : (tables.streams[streamId]?).isSome) : StreamOpen limits steps streamId := by
  obtain ⟨earlier, opening, since, frame, rfl, hopens, hid, _, hall, _⟩ := hsince
  refine ⟨earlier, opening, since, frame, rfl, hopens, hid, fun step hstep closing hclosing hclose => ?_⟩
  obtain ⟨between, later, rfl⟩ := List.append_of_mem hstep
  have hsplit : earlier ++ opening :: (between ++ step :: later) =
      (earlier ++ opening :: between) ++ step :: later := by
    rw [List.append_assoc, List.cons_append]
  have hgone : (step.after limits).streams[streamId]? = none := by
    obtain ⟨_, hok⟩ := h.accepted hsplit hclosing
    generalize step.after limits = tables' at hok
    cases hok with
    | hello _ htype =>
      rw [htype] at hclose
      exact absurd hclose.1 (by decide)
    | opens _ htype =>
      rw [htype] at hclose
      exact absurd hclose.1 (by decide)
    | control _ _ hnone => rwa [hclose.2] at hnone
    | onStream _ _ _ _ _ _ htype => exact absurd hclose.1 htype
    | closes =>
      dsimp only
      rw [hclose.2, ExtTreeMap.getElem?_erase_self]
  have hstill : ((step.after limits).streams[streamId]?).isSome := by
    cases later with
    | nil =>
      rw [hsplit] at h
      rwa [h.tables_eq] at hlive
    | cons next later =>
      have hnext : Traced limits ((earlier ++ opening :: between) ++ [step]) next.tables := by
        have hnextSplit : earlier ++ opening :: (between ++ step :: next :: later) =
            ((earlier ++ opening :: between) ++ [step]) ++ next :: later := by
          simp
        exact h.of_append hnextSplit
      rw [← hnext.tables_eq]
      exact hall next (by simp)
  rw [hgone] at hstill
  cases hstill

theorem SessionTables.Proceeds.state_cases {tables : SessionTables} {frame : FipcFrame}
    (h : tables.Proceeds frame) : tables.state = .negotiated ∨ tables.state = .active :=
  h.symm.imp_left fun hnegotiated => hnegotiated.1

theorem Traced.misplaced_of_hello {steps before later : List TableStep} {step : TableStep}
    {tables : SessionTables} {frame : FipcFrame} (h : Traced limits steps tables)
    (hsplit : steps = before ++ step :: later) (hframe : step.acceptedFrame limits = some frame)
    (htype : frame.type = .hello) (hgreeted : acceptedFrames limits before ≠ []) : step.Misplaced := by
  obtain ⟨hconsistent, hok⟩ := h.accepted hsplit hframe
  have hcall := TableStep.call_of_acceptedFrame hframe
  generalize step.after limits = tables' at hok
  cases hok with
  | hello haccepted => exact absurd (hconsistent.greeted.mpr haccepted) hgreeted
  | opens _ hopen =>
    rw [htype] at hopen
    exact absurd hopen (by decide)
  | control hproceeds hid => exact ⟨frame, hcall, hproceeds.state_cases, .inl ⟨htype, .inl hid⟩⟩
  | onStream stream _ hproceeds hlive hgeneration hsequence =>
    exact ⟨frame, hcall, hproceeds.state_cases, .inl ⟨htype, .inr ⟨stream, hlive, hgeneration, hsequence⟩⟩⟩
  | closes _ _ _ _ _ hclose =>
    rw [htype] at hclose
    exact absurd hclose (by decide)

theorem Traced.streamOpen_or_misplaced {steps before later : List TableStep} {step : TableStep}
    {tables : SessionTables} {frame : FipcFrame} (h : Traced limits steps tables)
    (hsplit : steps = before ++ step :: later) (hframe : step.acceptedFrame limits = some frame)
    (hkind : frame.type.OnOpenStream) : StreamOpen limits before frame.streamId ∨ step.Misplaced := by
  obtain ⟨hconsistent, hok⟩ := h.accepted hsplit hframe
  have hcall := TableStep.call_of_acceptedFrame hframe
  have hopened {stream : StreamState} (hlive : step.tables.streams[frame.streamId]? = some stream) :
      StreamOpen limits before frame.streamId := by
    obtain ⟨frames, hsince, _⟩ := hconsistent.live _ _ hlive
    exact hsince.streamOpen (h.of_append hsplit) (by rw [hlive]; rfl)
  generalize step.after limits = tables' at hok
  cases hok with
  | hello _ htype =>
    rw [htype] at hkind
    exact absurd hkind (by unfold FrameType.OnOpenStream; decide)
  | opens _ htype =>
    rw [htype] at hkind
    exact absurd hkind (by unfold FrameType.OnOpenStream; decide)
  | control hproceeds hid _ hcredit hremember =>
    refine .inr ⟨frame, hcall, hproceeds.state_cases, .inr ⟨hid, ?_⟩⟩
    rcases hkind with htype | htype | htype | htype
    · exact .inr (.inr ⟨htype, hremember⟩)
    · exact .inl htype
    · exact absurd htype hcredit
    · exact .inr (.inl htype)
  | onStream _ _ _ hlive => exact .inl (hopened hlive)
  | closes _ _ hlive => exact .inl (hopened hlive)

theorem Traced.inPlace {steps : List TableStep} {tables : SessionTables} (h : Traced limits steps tables)
    (hmisplaced : ∀ step ∈ steps, ¬ step.Misplaced) : InPlace limits steps := by
  refine ⟨fun first rest hframes => ⟨(h.hello_first (by rw [hframes]; rfl)).1, fun frame hrest htype => ?_⟩,
    fun before step later frame hsplit hframe hkind => ?_⟩
  · obtain ⟨before, opening, later, hsplit, _, hfirst, hlater⟩ := List.filterMap_eq_cons_iff.mp hframes
    rw [← hlater] at hrest
    obtain ⟨step, hstep, hframe⟩ := List.mem_filterMap.mp hrest
    obtain ⟨between, later, rfl⟩ := List.append_of_mem hstep
    have hsplit' : steps = (before ++ opening :: between) ++ step :: later := by
      rw [hsplit, List.append_assoc, List.cons_append]
    have hgreeted : acceptedFrames limits (before ++ opening :: between) ≠ [] := by
      unfold acceptedFrames
      rw [List.filterMap_append, List.filterMap_cons_some hfirst]
      simp
    exact hmisplaced step (by rw [hsplit']; simp) (h.misplaced_of_hello hsplit' hframe htype hgreeted)
  · exact (h.streamOpen_or_misplaced hsplit hframe hkind).resolve_right
      (hmisplaced step (by rw [hsplit]; simp))

namespace FipcSession

/-- **Frames are accepted in their places** in exactly the runs without a misplaced frame. -/
theorem inPlace_iff (limits : Limits) (calls : List SessionCall) :
    InPlace limits (trace limits calls) ↔ ∀ step ∈ trace limits calls, ¬ step.Misplaced :=
  ⟨fun h _ hstep hmisplaced => (traced_run limits calls).not_inPlace hstep hmisplaced h,
    (traced_run limits calls).inPlace⟩

/-- A second hello is accepted, and so is a build request on stream 0. -/
theorem misplaced_accepted :
    ¬ InPlace {} (trace {} [.feed helloBytes, .feed helloBytes]) ∧
      ¬ InPlace {} (trace {} [.feed helloBytes, .feed (FipcCodec.encode { type := .buildRequest })]) := by
  have hgreeted : (run {} [.feed helloBytes]).tables.state = .negotiated := by decide +kernel
  have hmisplaced (frame : FipcFrame) (hid : frame.streamId = 0)
      (htype : frame.type = .hello ∨ frame.type = .buildRequest ∧
        (run {} [.feed helloBytes]).tables.Rememberable frame) :
      TableStep.Misplaced ⟨(run {} [.feed helloBytes]).tables, .applyFrame frame⟩ :=
    ⟨frame, rfl, .inl hgreeted, htype.imp (fun h => ⟨h, .inl hid⟩) fun h => ⟨hid, .inr (.inr h)⟩⟩
  have hremember (frame : FipcFrame) : (run {} [.feed helloBytes]).tables.Rememberable frame := by
    have hempty : (run {} [.feed helloBytes]).tables.idempotency = ∅ := by decide +kernel
    intro _ prior hprior
    rw [hempty] at hprior
    simp at hprior
  have hhello : (⟨(run {} [.feed helloBytes]).tables, .applyFrame { type := .hello }⟩ : TableStep) ∈
      trace {} [.feed helloBytes, .feed helloBytes] := by
    decide +kernel
  have hrequest :
      (⟨(run {} [.feed helloBytes]).tables, .applyFrame { type := .buildRequest }⟩ : TableStep) ∈
        trace {} [.feed helloBytes, .feed (FipcCodec.encode { type := .buildRequest })] := by
    decide +kernel
  exact ⟨(traced_run {} _).not_inPlace hhello (hmisplaced _ rfl (.inl rfl)),
    (traced_run {} _).not_inPlace hrequest (hmisplaced _ rfl (.inr ⟨rfl, hremember _⟩))⟩

end FipcSession

end Forge
