import Forge.Event.EventHub
import Forge.Lib.Runs
import Forge.Lib.TreeMap

/-!
# What an event hub does with the events of a stream

A run of a hub is a list of calls. The log of a stream is what was drained from it and what is still
queued. One call does one of seven things to a stream (`Effect`), and from these follows by induction on
the run that the log is `logOf` of what became of the published events: the accepted events in order,
with one gap event where the first one was dropped (`StreamBooks`). `nothing_lost` puts this in the words
of the interface: no accepted event is lost, credit is conserved, and streams do not affect each other.
-/

namespace Forge

open Std (ExtTreeMap)

inductive HubCall
  | openStream (streamId : UInt32) (credit : UInt64)
  | addCredit (streamId : UInt32) (credit : UInt64)
  | publish (streamId : UInt32) (event : BuildEvent)
  | drain (streamId : UInt32)
deriving DecidableEq, Repr

/-- The stream a call is about. -/
def HubCall.streamId : HubCall → UInt32
  | .openStream streamId _ => streamId
  | .addCredit streamId _ => streamId
  | .publish streamId _ => streamId
  | .drain streamId => streamId

/-- The kind of the event a call publishes. -/
def HubCall.kind : HubCall → Option EventKind
  | .publish _ event => some event.kind
  | _ => none

/-- A call with the hub it is made on. -/
abbrev HubStep := EventHub × HubCall

/-- What became of a published event. -/
inductive Outcome
  | accepted (event : BuildEvent)
  | dropped
deriving DecidableEq, Repr

/-- The event, if it was accepted. -/
def Outcome.event? : Outcome → Option BuildEvent
  | .accepted event => some event
  | .dropped => none

namespace EventHub

/-! ## Runs -/

def after (hub : EventHub) : HubCall → EventHub
  | .openStream streamId credit => (hub.openStream streamId credit).2
  | .addCredit streamId credit => (hub.addCredit streamId credit).2
  | .publish streamId event => (hub.publish streamId event).2
  | .drain streamId => (hub.drain streamId).2

def run (calls : List HubCall) : EventHub := calls.foldl after {}

def history (calls : List HubCall) : List HubStep := Runs.trace after {} calls

/-- The credit with which the step opens the stream. -/
def opened (streamId : UInt32) : HubStep → Option UInt64
  | (hub, .openStream id credit) =>
    if id = streamId then
      match (hub.openStream id credit).1 with
      | .ok _ => some credit
      | .error _ => none
    else none
  | _ => none

/-- What `add_credit` adds to the stream. -/
def added (streamId : UInt32) : HubStep → Nat
  | (hub, .addCredit id credit) =>
    if id = streamId then
      match (hub.addCredit id credit).1 with
      | .ok _ => credit.toNat
      | .error _ => 0
    else 0
  | _ => 0

/-- What became of an event published on the stream: `publish` returned ok, or backpressure. -/
def outcome (streamId : UInt32) : HubStep → Option Outcome
  | (hub, .publish id event) =>
    if id = streamId then
      match (hub.publish id event).1 with
      | .ok _ => some (.accepted event)
      | .error status => if status.code = .backpressure then some .dropped else none
    else none
  | _ => none

/-- The bytes of an event published on the stream that fit its credit. -/
def charged (streamId : UInt32) : HubStep → Nat
  | (hub, .publish id event) =>
    if id = streamId ∧ hub.streams[id]?.any (event.bytes ≤ ·.credit) then event.bytes.toNat else 0
  | _ => 0

def drained (streamId : UInt32) : HubStep → List BuildEvent
  | (hub, .drain id) => if id = streamId then (hub.drain id).1 else []
  | _ => []

/-- What a step shows of a stream. -/
structure Seen where
  opened : Option UInt64 := none
  added : Nat := 0
  outcome : Option Outcome := none
  charged : Nat := 0
  drained : List BuildEvent := []
deriving DecidableEq

def seen (streamId : UInt32) (step : HubStep) : Seen :=
  ⟨opened streamId step, added streamId step, outcome streamId step, charged streamId step,
    drained streamId step⟩

/-- What the steps of a run show of a stream, taken together. -/
structure Tally where
  openings : List UInt64 := []
  added : Nat := 0
  outcomes : List Outcome := []
  charged : Nat := 0
  drained : List BuildEvent := []
deriving DecidableEq

def Tally.add (tally : Tally) (seen : Seen) : Tally :=
  ⟨tally.openings ++ seen.opened.toList, tally.added + seen.added,
    tally.outcomes ++ seen.outcome.toList, tally.charged + seen.charged,
    tally.drained ++ seen.drained⟩

def tally (streamId : UInt32) (steps : List HubStep) : Tally :=
  (steps.map (seen streamId)).foldl Tally.add {}

/-- The events whose `publish` returned ok, in order. -/
def Tally.accepted (tally : Tally) : List BuildEvent := tally.outcomes.filterMap Outcome.event?

def queued (hub : EventHub) (streamId : UInt32) : List BuildEvent :=
  (hub.streams[streamId]?.map Stream.queued).getD []

/-- Everything drained from the stream in a run, and what is still queued. -/
def log (calls : List HubCall) (streamId : UInt32) : List BuildEvent :=
  (tally streamId (history calls)).drained ++ (run calls).queued streamId

/-! ## One call -/

/-- The stream behind a dropped event. -/
def Stream.drop (stream : Stream) : Stream :=
  if stream.gapEmitted then stream
  else { stream with gapEmitted := true, queued := stream.queued ++ [gapEvent] }

/-- What a step can do to a stream, with what it shows of it. -/
inductive Effect : Option Stream → Seen → Option Stream → Prop
  | nothing (stream : Option Stream) : Effect stream {} stream
  | opens (credit : UInt64) : Effect none { opened := some credit } (some { credit })
  | adds (stream : Stream) (credit : UInt64) (amount : Nat)
      (hsum : credit.toNat = stream.credit.toNat + amount) :
      Effect (some stream) { added := amount } (some { stream with credit })
  | takes (stream : Stream) (event : BuildEvent) (hfits : event.bytes ≤ stream.credit) :
      Effect (some stream) { outcome := some (.accepted event), charged := event.bytes.toNat }
        (some { stream with
          credit := stream.credit - event.bytes, queued := stream.queued ++ [event] })
  | keeps (stream : Stream) (event : BuildEvent) (hlarge : ¬ event.bytes ≤ stream.credit)
      (hterminal : event.terminal = true) :
      Effect (some stream) { outcome := some (.accepted event) }
        (some { stream with queued := stream.queued ++ [event] })
  | drops (stream : Stream) : Effect (some stream) { outcome := some .dropped } (some stream.drop)
  | drains (stream : Stream) :
      Effect (some stream) { drained := stream.queued } (some { stream with queued := [] })

theorem streams_after_other {hub : EventHub} {call : HubCall} {streamId : UInt32}
    (h : call.streamId ≠ streamId) : (hub.after call).streams[streamId]? = hub.streams[streamId]? := by
  have hother {id : UInt32} (hid : id ≠ streamId) (stream : Stream) :
      (hub.streams.insert id stream)[streamId]? = hub.streams[streamId]? :=
    ExtTreeMap.getElem?_insert_of_ne hid
  cases call with
  | openStream id credit =>
    simp only [after, openStream]
    split_ifs
    · rfl
    · exact hother h _
  | addCredit id credit =>
    simp only [after, addCredit]
    split
    · rfl
    · split
      · rfl
      · exact hother h _
  | publish id event =>
    simp only [after, publish]
    split
    · rfl
    · split_ifs
      · exact hother h _
      · exact hother h _
      · exact hother h _
      · exact hother h _
  | drain id =>
    simp only [after, drain]
    split
    · rfl
    · exact hother h _

theorem seen_other {hub : EventHub} {call : HubCall} {streamId : UInt32} (h : call.streamId ≠ streamId) :
    seen streamId (hub, call) = {} := by
  cases call with
  | openStream id credit => simp [seen, opened, added, outcome, charged, drained, show id ≠ streamId from h]
  | addCredit id credit => simp [seen, opened, added, outcome, charged, drained, show id ≠ streamId from h]
  | publish id event => simp [seen, opened, added, outcome, charged, drained, show id ≠ streamId from h]
  | drain id => simp [seen, opened, added, outcome, charged, drained, show id ≠ streamId from h]

theorem effect_openStream (hub : EventHub) (id : UInt32) (credit : UInt64) :
    Effect hub.streams[id]? (seen id (hub, .openStream id credit))
      (hub.openStream id credit).2.streams[id]? := by
  simp only [seen, opened, added, outcome, charged, drained, if_true]
  unfold openStream
  by_cases hbad : id = 0 ∨ id ∈ hub.streams
  · simp only [if_pos hbad]
    exact .nothing _
  · simp only [if_neg hbad, ExtTreeMap.getElem?_insert_self]
    rw [not_or, ExtTreeMap.not_mem_iff] at hbad
    rw [hbad.2]
    exact .opens credit

theorem effect_addCredit (hub : EventHub) (id : UInt32) (credit : UInt64) :
    Effect hub.streams[id]? (seen id (hub, .addCredit id credit))
      (hub.addCredit id credit).2.streams[id]? := by
  simp only [seen, opened, added, outcome, charged, drained, if_true]
  unfold addCredit
  cases hstream : hub.streams[id]? with
  | none =>
    simp only [hstream]
    exact .nothing none
  | some stream =>
    simp only
    cases hsum : checkedAdd stream.credit credit "event-hub" with
    | error status =>
      simp only [hstream]
      exact .nothing (some stream)
    | ok sum =>
      simp only [ExtTreeMap.getElem?_insert_self]
      exact .adds stream sum credit.toNat (toNat_of_checkedAdd hsum)

theorem effect_publish (hub : EventHub) (id : UInt32) (event : BuildEvent) :
    Effect hub.streams[id]? (seen id (hub, .publish id event)) (hub.publish id event).2.streams[id]? := by
  simp only [seen, opened, added, outcome, charged, drained, true_and, if_true]
  unfold publish
  cases hstream : hub.streams[id]? with
  | none =>
    simp only [hstream]
    exact .nothing none
  | some stream =>
    simp only [Option.any_some, decide_eq_true_eq]
    by_cases hfits : event.bytes ≤ stream.credit
    · simp only [if_pos hfits, ExtTreeMap.getElem?_insert_self]
      exact .takes stream event hfits
    · simp only [if_neg hfits]
      by_cases hterminal : event.terminal = true
      · simp only [if_pos hterminal, ExtTreeMap.getElem?_insert_self]
        exact .keeps stream event hfits hterminal
      · simp only [if_neg hterminal, ExtTreeMap.getElem?_insert_self, Status.error, if_true]
        exact .drops stream

theorem effect_drain (hub : EventHub) (id : UInt32) :
    Effect hub.streams[id]? (seen id (hub, .drain id)) (hub.drain id).2.streams[id]? := by
  simp only [seen, opened, added, outcome, charged, drained, if_true]
  unfold drain
  cases hstream : hub.streams[id]? with
  | none =>
    simp only [hstream]
    exact .nothing none
  | some stream =>
    simp only [ExtTreeMap.getElem?_insert_self]
    exact .drains stream

/-- **What a step does to a stream.** -/
theorem effect (streamId : UInt32) (step : HubStep) :
    Effect step.1.streams[streamId]? (seen streamId step) (step.1.after step.2).streams[streamId]? := by
  obtain ⟨hub, call⟩ := step
  by_cases h : call.streamId = streamId
  · subst h
    cases call with
    | openStream id credit => exact effect_openStream hub id credit
    | addCredit id credit => exact effect_addCredit hub id credit
    | publish id event => exact effect_publish hub id event
    | drain id => exact effect_drain hub id
  · rw [streams_after_other h, seen_other h]
    exact .nothing _

/-! ## The books of a stream -/

/-- The log that comes of the outcomes, where the flag of the stream is `gapEmitted` before them. -/
def logOf : Bool → List Outcome → List BuildEvent
  | _, [] => []
  | gapEmitted, .accepted event :: rest => event :: logOf gapEmitted rest
  | true, .dropped :: rest => logOf true rest
  | false, .dropped :: rest => gapEvent :: logOf true rest

theorem logOf_accepted (gapEmitted : Bool) (before : List Outcome) (event : BuildEvent) :
    logOf gapEmitted (before ++ [.accepted event]) = logOf gapEmitted before ++ [event] := by
  induction before generalizing gapEmitted with
  | nil => cases gapEmitted <;> rfl
  | cons outcome before ih =>
    cases outcome with
    | accepted other => exact congrArg (other :: ·) (ih gapEmitted)
    | dropped =>
      cases gapEmitted with
      | true => exact ih true
      | false => exact congrArg (gapEvent :: ·) (ih true)

theorem logOf_dropped (gapEmitted : Bool) (before : List Outcome) :
    logOf gapEmitted (before ++ [.dropped]) =
      logOf gapEmitted before ++
        if gapEmitted = true ∨ .dropped ∈ before then [] else [gapEvent] := by
  induction before generalizing gapEmitted with
  | nil => cases gapEmitted <;> rfl
  | cons outcome before ih =>
    cases outcome with
    | accepted other => simpa [logOf] using ih gapEmitted
    | dropped =>
      cases gapEmitted with
      | true => simpa [logOf] using ih true
      | false => simpa [logOf] using ih true

/-- What holds of an open stream and what was seen of it. -/
structure OpenBooks (tally : Tally) (stream : Stream) : Prop where
  log : tally.drained ++ stream.queued = logOf false tally.outcomes
  gap : stream.gapEmitted = true ↔ .dropped ∈ tally.outcomes
  credit : ∃ credit, tally.openings = [credit] ∧
    stream.credit.toNat + tally.charged = credit.toNat + tally.added

/-- Nothing is seen of a stream before it is opened. -/
def Books (tally : Tally) : Option Stream → Prop
  | none => tally = {}
  | some stream => OpenBooks tally stream

theorem Effect.books {before after : Option Stream} {seen : Seen} (h : Effect before seen after)
    {tally : Tally} (hbooks : Books tally before) : Books (tally.add seen) after := by
  cases h with
  | nothing =>
    have hsame : tally.add {} = tally := by simp [Tally.add]
    rwa [hsame]
  | opens credit =>
    obtain rfl : tally = {} := hbooks
    exact ⟨rfl, by simp [Tally.add], credit, rfl, rfl⟩
  | adds stream credit amount hsum =>
    obtain ⟨hlog, hgap, first, hfirst, hcredit⟩ := hbooks
    refine ⟨by simpa [Tally.add] using hlog, by simpa [Tally.add] using hgap, first,
      by simpa [Tally.add] using hfirst, ?_⟩
    simp only [Tally.add]
    omega
  | takes stream event hfits =>
    obtain ⟨hlog, hgap, first, hfirst, hcredit⟩ := hbooks
    refine ⟨?_, by simpa [Tally.add] using hgap, first, by simpa [Tally.add] using hfirst, ?_⟩
    · simp only [Tally.add, Option.toList_some, List.append_nil, logOf_accepted, ← hlog,
        List.append_assoc]
    · have hbytes := UInt64.le_iff_toNat_le.mp hfits
      simp only [Tally.add, UInt64.toNat_sub_of_le _ _ hfits]
      omega
  | keeps stream event hlarge hterminal =>
    obtain ⟨hlog, hgap, first, hfirst, hcredit⟩ := hbooks
    refine ⟨?_, by simpa [Tally.add] using hgap, first, by simpa [Tally.add] using hfirst, hcredit⟩
    simp only [Tally.add, Option.toList_some, List.append_nil, logOf_accepted, ← hlog, List.append_assoc]
  | drops stream =>
    obtain ⟨hlog, hgap, first, hfirst, hcredit⟩ := hbooks
    by_cases hemitted : stream.gapEmitted = true
    · have hsame : stream.drop = stream := if_pos hemitted
      rw [hsame]
      refine ⟨?_, by simp [Tally.add, hemitted], first, by simpa [Tally.add] using hfirst, hcredit⟩
      simp only [Tally.add, Option.toList_some, List.append_nil, logOf_dropped, hlog,
        if_pos (Or.inr (hgap.mp hemitted))]
    · have hnew : stream.drop =
          { stream with gapEmitted := true, queued := stream.queued ++ [gapEvent] } := if_neg hemitted
      have hfirstDrop : ¬ (false = true ∨ Outcome.dropped ∈ tally.outcomes) :=
        fun h => hemitted (hgap.mpr (h.resolve_left Bool.false_ne_true))
      rw [hnew]
      refine ⟨?_, by simp [Tally.add], first, by simpa [Tally.add] using hfirst, hcredit⟩
      simp only [Tally.add, Option.toList_some, List.append_nil, logOf_dropped, if_neg hfirstDrop,
        ← hlog, List.append_assoc]
  | drains stream =>
    obtain ⟨hlog, hgap, first, hfirst, hcredit⟩ := hbooks
    refine ⟨?_, by simpa [Tally.add] using hgap, first, by simpa [Tally.add] using hfirst, hcredit⟩
    simpa [Tally.add] using hlog

theorem tally_snoc (streamId : UInt32) (steps : List HubStep) (step : HubStep) :
    tally streamId (steps ++ [step]) = (tally streamId steps).add (seen streamId step) := by
  simp [tally]

/-- **The books of every stream are right** behind every run. -/
theorem books_run (calls : List HubCall) (streamId : UInt32) :
    Books (tally streamId (history calls)) (run calls).streams[streamId]? := by
  refine Runs.trace_induction (P := fun steps hub => Books (tally streamId steps) hub.streams[streamId]?)
    ?_ (fun steps hub call h => ?_) calls
  · simp [Books, tally]
  · rw [tally_snoc]
    exact (effect streamId (hub, call)).books h

/-! ## One stream among others -/

section

variable {hub hub' : EventHub} {id : UInt32} (h : hub.streams[id]? = hub'.streams[id]?)
include h

theorem openStream_congr (credit : UInt64) :
    (hub.openStream id credit).1 = (hub'.openStream id credit).1 ∧
      (hub.openStream id credit).2.streams[id]? = (hub'.openStream id credit).2.streams[id]? := by
  have hmem : id ∈ hub.streams ↔ id ∈ hub'.streams := by
    rw [ExtTreeMap.mem_iff_isSome_getElem?, ExtTreeMap.mem_iff_isSome_getElem?, h]
  unfold openStream
  by_cases hbad : id = 0 ∨ id ∈ hub'.streams
  · rw [if_pos hbad, if_pos (hbad.imp_right hmem.mpr)]
    exact ⟨rfl, h⟩
  · rw [if_neg hbad, if_neg fun h => hbad (h.imp_right hmem.mp)]
    simp

theorem addCredit_congr (credit : UInt64) :
    (hub.addCredit id credit).1 = (hub'.addCredit id credit).1 ∧
      (hub.addCredit id credit).2.streams[id]? = (hub'.addCredit id credit).2.streams[id]? := by
  unfold addCredit
  rw [h]
  cases hstream : hub'.streams[id]? with
  | none => exact ⟨rfl, h⟩
  | some stream =>
    simp only
    cases checkedAdd stream.credit credit "event-hub" with
    | error status => exact ⟨rfl, h⟩
    | ok sum => simp

theorem publish_congr (event : BuildEvent) :
    (hub.publish id event).1 = (hub'.publish id event).1 ∧
      (hub.publish id event).2.streams[id]? = (hub'.publish id event).2.streams[id]? := by
  unfold publish
  rw [h]
  cases hstream : hub'.streams[id]? with
  | none => exact ⟨rfl, h⟩
  | some stream =>
    simp only
    split_ifs
    · simp
    · simp
    · simp
    · simp

theorem drain_congr :
    (hub.drain id).1 = (hub'.drain id).1 ∧
      (hub.drain id).2.streams[id]? = (hub'.drain id).2.streams[id]? := by
  unfold drain
  rw [h]
  cases hstream : hub'.streams[id]? with
  | none => exact ⟨rfl, h⟩
  | some stream => simp

end

theorem step_congr {hub hub' : EventHub} {call : HubCall}
    (h : hub.streams[call.streamId]? = hub'.streams[call.streamId]?) :
    seen call.streamId (hub, call) = seen call.streamId (hub', call) ∧
      (hub.after call).streams[call.streamId]? = (hub'.after call).streams[call.streamId]? := by
  cases call with
  | openStream id credit =>
    obtain ⟨hresult, hstream⟩ := openStream_congr h credit
    refine ⟨?_, hstream⟩
    simp only [seen, opened, added, outcome, charged, drained, HubCall.streamId] at hresult ⊢
    rw [hresult]
  | addCredit id credit =>
    obtain ⟨hresult, hstream⟩ := addCredit_congr h credit
    refine ⟨?_, hstream⟩
    simp only [seen, opened, added, outcome, charged, drained, HubCall.streamId] at hresult ⊢
    rw [hresult]
  | publish id event =>
    obtain ⟨hresult, hstream⟩ := publish_congr h event
    refine ⟨?_, hstream⟩
    simp only [seen, opened, added, outcome, charged, drained, HubCall.streamId] at h hresult ⊢
    rw [hresult, h]
  | drain id =>
    obtain ⟨hresult, hstream⟩ := drain_congr h
    refine ⟨?_, hstream⟩
    simp only [seen, opened, added, outcome, charged, drained, HubCall.streamId] at hresult ⊢
    rw [hresult]

theorem foldl_filter (streamId : UInt32) (calls : List HubCall) : ∀ (hub hub' : EventHub) (t : Tally),
    hub.streams[streamId]? = hub'.streams[streamId]? →
      let own := calls.filter (·.streamId = streamId)
      ((Runs.trace after hub calls).map (seen streamId)).foldl Tally.add t =
          ((Runs.trace after hub' own).map (seen streamId)).foldl Tally.add t ∧
        (calls.foldl after hub).streams[streamId]? = (own.foldl after hub').streams[streamId]? := by
  induction calls with
  | nil => exact fun hub hub' t h => ⟨rfl, h⟩
  | cons call calls ih =>
    intro hub hub' t h
    by_cases hcall : call.streamId = streamId
    · subst hcall
      obtain ⟨hseen, hstream⟩ := step_congr h
      simp only [decide_true, List.filter_cons_of_pos, Runs.trace, List.map_cons, List.foldl_cons, hseen]
      exact ih _ _ _ hstream
    · have hskip : (call :: calls).filter (·.streamId = streamId) = calls.filter (·.streamId = streamId) :=
        List.filter_cons_of_neg (by simpa using hcall)
      have hnothing : t.add {} = t := by simp [Tally.add]
      simp only [hskip, Runs.trace, List.map_cons, List.foldl_cons, seen_other hcall, hnothing]
      exact ih _ _ _ (by rw [streams_after_other hcall, h])

/-! ## Nothing is lost -/

theorem filter_logOf (gapEmitted : Bool) (outcomes : List Outcome)
    (h : ∀ event ∈ outcomes.filterMap Outcome.event?, event.kind ≠ .gap) :
    (logOf gapEmitted outcomes).filter (·.kind ≠ .gap) = outcomes.filterMap Outcome.event? := by
  induction outcomes generalizing gapEmitted with
  | nil => cases gapEmitted <;> rfl
  | cons outcome outcomes ih =>
    cases outcome with
    | accepted event =>
      have haccepted : Outcome.event? (.accepted event) = some event := rfl
      rw [List.filterMap_cons_some haccepted] at h ⊢
      rw [List.forall_mem_cons] at h
      rw [logOf, List.filter_cons_of_pos (by simpa using h.1), ih gapEmitted h.2]
    | dropped =>
      have hdropped : Outcome.event? .dropped = none := rfl
      rw [List.filterMap_cons_none hdropped] at h ⊢
      cases gapEmitted with
      | true => exact ih true h
      | false => exact ih true h

theorem outcomes_tally (streamId : UInt32) (steps : List HubStep) :
    (tally streamId steps).outcomes = steps.filterMap (outcome streamId) := by
  induction steps using List.reverseRecOn with
  | nil => rfl
  | append_singleton steps step ih =>
    rw [tally_snoc, List.filterMap_append, ← ih]
    cases h : outcome streamId step <;> simp [Tally.add, seen, h]

theorem published_of_accepted {calls : List HubCall} {streamId : UInt32} {event : BuildEvent}
    (h : event ∈ (tally streamId (history calls)).accepted) :
    ∃ id, HubCall.publish id event ∈ calls := by
  unfold Tally.accepted at h
  rw [outcomes_tally, List.filterMap_filterMap, List.mem_filterMap] at h
  obtain ⟨⟨hub, call⟩, hstep, hevent⟩ := h
  have hcall := Runs.mem_of_mem_trace hstep
  cases call with
  | publish id other =>
    simp only [outcome] at hevent
    split_ifs at hevent
    · split at hevent
      · obtain rfl := Option.some.inj hevent
        exact ⟨id, hcall⟩
      · split_ifs at hevent <;> simp [Outcome.event?] at hevent
    · simp at hevent
  | openStream id credit => simp [outcome] at hevent
  | addCredit id credit => simp [outcome] at hevent
  | drain id => simp [outcome] at hevent

theorem publish_terminal {hub : EventHub} {streamId : UInt32} {event : BuildEvent}
    (hopen : streamId ∈ hub.streams) (hterminal : event.terminal = true) :
    (hub.publish streamId event).1 = .ok () := by
  unfold publish
  obtain ⟨stream, hstream⟩ := ExtTreeMap.exists_of_mem hopen
  simp only [hstream, hterminal, if_true]
  split_ifs
  · rfl
  · rfl

/-- **A hub loses nothing that it accepted and never overdraws**: the accepted events are what the log
of their stream holds besides gap events, in order; terminal events are accepted; the credit is what was
given and not charged; and calls on other streams make no difference. -/
theorem nothing_lost (calls : List HubCall) (hkinds : ∀ call ∈ calls, call.kind ≠ some .gap)
    (streamId : UInt32) :
    let seen := tally streamId (history calls)
    let own := calls.filter (·.streamId = streamId)
    (log calls streamId).filter (·.kind ≠ .gap) = seen.accepted ∧
    (∀ hub event, (hub, HubCall.publish streamId event) ∈ history calls → streamId ∈ hub.streams →
      event.terminal = true → (hub.publish streamId event).1 = .ok ()) ∧
    (∀ stream, (run calls).streams[streamId]? = some stream → ∃ credit, seen.openings = [credit] ∧
      stream.credit.toNat + seen.charged = credit.toNat + seen.added) ∧
    seen = tally streamId (history own) ∧
    (run calls).streams[streamId]? = (run own).streams[streamId]? := by
  intro seen own
  have hbooks := books_run calls streamId
  refine ⟨?_, fun hub event _ hopen hterminal => publish_terminal hopen hterminal,
    fun stream hstream => ?_, foldl_filter streamId calls {} {} {} rfl⟩
  · have haccepted : ∀ event ∈ seen.accepted, event.kind ≠ .gap := by
      intro event hevent
      obtain ⟨id, hcall⟩ := published_of_accepted hevent
      exact fun hgap => hkinds _ hcall (congrArg some hgap)
    unfold log queued
    cases hstream : (run calls).streams[streamId]? with
    | none =>
      rw [hstream] at hbooks
      have hnothing : tally streamId (history calls) = {} := hbooks
      simp only [seen, hnothing]
      rfl
    | some stream =>
      rw [hstream] at hbooks
      simp only [Option.map_some, Option.getD_some, hbooks.log]
      exact filter_logOf false _ haccepted
  · rw [hstream] at hbooks
    exact hbooks.credit

/-- A progress event that fits, one that is dropped and a terminal one beyond the credit. -/
theorem nothing_lost_progress :
    let progress : BuildEvent := { message := "p", bytes := 10 }
    let done : BuildEvent := { kind := .succeeded, message := "done", terminal := true, bytes := 10 }
    let calls : List HubCall :=
      [.openStream 1 15, .publish 1 progress, .publish 1 progress, .drain 1, .publish 1 done]
    (log calls 1).filter (·.kind ≠ .gap) = [progress, done] := by
  intro progress done calls
  have haccepted : (tally 1 (history calls)).accepted = [progress, done] := by decide +kernel
  rw [← haccepted]
  exact (nothing_lost calls (by decide) 1).1

end EventHub

end Forge
