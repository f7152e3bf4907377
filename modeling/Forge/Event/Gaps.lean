import Forge.Event.EventLog

/-!
# Gap events

A stream emits a gap event where its first event is dropped, and its flag `gap_emitted` is never cleared:
what is dropped behind a later accepted event leaves no mark. So every gap is announced exactly as long
as no stream drops an event, accepts one and drops another (`gapsAnnounced_iff`).
-/

namespace Forge

namespace EventHub

/-! ## Definitions -/

/-- The log holds the accepted events in order and besides them only gap events, at least one wherever
events were dropped. The flag says that events were dropped since the last accepted one. -/
def Announced : Bool → List Outcome → List BuildEvent → Prop
  | dropped, [], log => (∀ event ∈ log, event.kind = .gap) ∧ (dropped = true → log ≠ [])
  | _, .dropped :: rest, log => Announced true rest log
  | dropped, .accepted event :: rest, log =>
    ∃ gaps later, log = gaps ++ event :: later ∧ (∀ gap ∈ gaps, gap.kind = .gap) ∧
      (dropped = true → gaps ≠ []) ∧ Announced false rest later

/-- In the logs of all streams a gap event stands wherever events were dropped. -/
def GapsAnnounced (calls : List HubCall) : Prop :=
  ∀ streamId, Announced false (tally streamId (history calls)).outcomes (log calls streamId)

/-- A published event is not terminal and beyond the credit of its stream. -/
def Drops (streamId : UInt32) (step : HubStep) : Prop :=
  ∃ event stream, step.2 = .publish streamId event ∧ step.1.streams[streamId]? = some stream ∧
    ¬ event.bytes ≤ stream.credit ∧ ¬ event.terminal = true

/-- A published event is terminal or within the credit of its stream. -/
def Takes (streamId : UInt32) (step : HubStep) : Prop :=
  ∃ event stream, step.2 = .publish streamId event ∧ step.1.streams[streamId]? = some stream ∧
    (event.bytes ≤ stream.credit ∨ event.terminal = true)

/-- The stream does not drop an event, take one and drop another. -/
def DropsOnce (streamId : UInt32) (steps : List HubStep) : Prop :=
  ∀ first taken second, [first, taken, second].Sublist steps → Drops streamId first →
    Takes streamId taken → ¬ Drops streamId second

/-! ## Counting -/

/-- The number of places at which events were dropped. -/
def places : Bool → List Outcome → Nat
  | dropped, [] => dropped.toNat
  | _, .dropped :: rest => places true rest
  | dropped, .accepted _ :: rest => dropped.toNat + places false rest

theorem length_of_announced {dropped : Bool} {outcomes : List Outcome} {log : List BuildEvent}
    (h : Announced dropped outcomes log) :
    (outcomes.filterMap Outcome.event?).length + places dropped outcomes ≤ log.length := by
  have hmarks {d : Bool} {l : List BuildEvent} (hl : d = true → l ≠ []) : d.toNat ≤ l.length := by
    cases d with
    | false => exact Nat.zero_le _
    | true => exact List.length_pos_of_ne_nil (hl rfl)
  induction outcomes generalizing dropped log with
  | nil =>
    have hlog := hmarks h.2
    simpa [places] using hlog
  | cons outcome outcomes ih =>
    cases outcome with
    | dropped => exact ih h
    | accepted event =>
      obtain ⟨gaps, later, rfl, _, hgaps, hlater⟩ := h
      have hevent : Outcome.event? (.accepted event) = some event := rfl
      have hrest := ih hlater
      have hfirst := hmarks hgaps
      rw [List.filterMap_cons_some hevent, places, List.length_cons, List.length_append,
        List.length_cons]
      omega

theorem length_logOf (gapEmitted : Bool) (outcomes : List Outcome) :
    (logOf gapEmitted outcomes).length = (outcomes.filterMap Outcome.event?).length +
      if gapEmitted = false ∧ .dropped ∈ outcomes then 1 else 0 := by
  induction outcomes generalizing gapEmitted with
  | nil => cases gapEmitted <;> rfl
  | cons outcome outcomes ih =>
    cases outcome with
    | accepted event =>
      have hevent : Outcome.event? (.accepted event) = some event := rfl
      rw [List.filterMap_cons_some hevent, logOf, List.length_cons, List.length_cons, ih gapEmitted]
      simp only [List.mem_cons, reduceCtorEq, false_or]
      omega
    | dropped =>
      have hevent : Outcome.event? .dropped = none := rfl
      rw [List.filterMap_cons_none hevent]
      cases gapEmitted with
      | true => simp [logOf, ih true]
      | false => simp [logOf, ih true]

theorem one_le_places (outcomes : List Outcome) : 1 ≤ places true outcomes := by
  induction outcomes with
  | nil => exact Nat.le_refl 1
  | cons outcome outcomes ih =>
    cases outcome with
    | dropped => exact ih
    | accepted event => exact Nat.le_add_right 1 _

theorem one_le_places_of_mem {outcomes : List Outcome} (h : .dropped ∈ outcomes) (dropped : Bool) :
    1 ≤ places dropped outcomes := by
  induction outcomes generalizing dropped with
  | nil => cases h
  | cons outcome outcomes ih =>
    cases outcome with
    | dropped => exact one_le_places outcomes
    | accepted event =>
      have hrest := ih (by simpa using h) false
      rw [places]
      omega

theorem two_le_places_of_taken {outcomes : List Outcome} {event : BuildEvent}
    (h : [.accepted event, .dropped].Sublist outcomes) : 2 ≤ places true outcomes := by
  induction outcomes with
  | nil => cases h
  | cons outcome outcomes ih =>
    cases outcome with
    | dropped =>
      cases h with
      | cons _ h => exact ih h
    | accepted other =>
      have hlater : .dropped ∈ outcomes := by
        cases h with
        | cons _ h => exact h.subset (by simp)
        | cons_cons _ h => exact List.singleton_sublist.mp h
      have hrest := one_le_places_of_mem hlater false
      simp only [places, Bool.toNat_true]
      omega

theorem two_le_places {outcomes : List Outcome} {event : BuildEvent}
    (h : [.dropped, .accepted event, .dropped].Sublist outcomes) (dropped : Bool) :
    2 ≤ places dropped outcomes := by
  induction outcomes generalizing dropped with
  | nil => cases h
  | cons outcome outcomes ih =>
    cases outcome with
    | dropped =>
      cases h with
      | cons _ h => exact two_le_places_of_taken ((List.sublist_cons_self _ _).trans h)
      | cons_cons _ h => exact two_le_places_of_taken h
    | accepted other =>
      cases h with
      | cons _ h =>
        have hrest := ih h false
        rw [places]
        omega

/-! ## Announcing -/

theorem announced_logOf_of_not_mem {outcomes : List Outcome} (h : .dropped ∉ outcomes)
    (gapEmitted : Bool) : Announced false outcomes (logOf gapEmitted outcomes) := by
  induction outcomes with
  | nil => simp [Announced, logOf]
  | cons outcome outcomes ih =>
    cases outcome with
    | dropped => exact absurd List.mem_cons_self h
    | accepted event =>
      have hrest := ih fun hmem => h (List.mem_cons_of_mem _ hmem)
      exact ⟨[], logOf gapEmitted outcomes, by cases gapEmitted <;> rfl, by simp, by simp, hrest⟩

theorem announced_gapEvent {outcomes : List Outcome}
    (h : ∀ event, ¬ [.accepted event, .dropped].Sublist outcomes) :
    Announced true outcomes (gapEvent :: logOf true outcomes) := by
  induction outcomes with
  | nil => simp [Announced, logOf, gapEvent]
  | cons outcome outcomes ih =>
    cases outcome with
    | dropped => exact ih fun event hsub => h event (hsub.cons _)
    | accepted event =>
      have hlater : .dropped ∉ outcomes :=
        fun hmem => h event (List.cons_sublist_cons.mpr (List.singleton_sublist.mpr hmem))
      exact ⟨[gapEvent], logOf true outcomes, rfl, by simp [gapEvent], by simp,
        announced_logOf_of_not_mem hlater true⟩

theorem announced_logOf {outcomes : List Outcome}
    (h : ∀ event, ¬ [.dropped, .accepted event, .dropped].Sublist outcomes) :
    Announced false outcomes (logOf false outcomes) := by
  induction outcomes with
  | nil => simp [Announced, logOf]
  | cons outcome outcomes ih =>
    cases outcome with
    | dropped => exact announced_gapEvent fun event hsub => h event (List.cons_sublist_cons.mpr hsub)
    | accepted event =>
      exact ⟨[], logOf false outcomes, rfl, by simp, by simp,
        ih fun other hsub => h other (hsub.cons _)⟩

theorem announced_logOf_iff (outcomes : List Outcome) :
    Announced false outcomes (logOf false outcomes) ↔
      ∀ event, ¬ [.dropped, .accepted event, .dropped].Sublist outcomes := by
  refine ⟨fun h event hsub => ?_, announced_logOf⟩
  have hplaces := two_le_places hsub false
  have hlength := length_of_announced h
  have hgaps : (logOf false outcomes).length ≤ (outcomes.filterMap Outcome.event?).length + 1 := by
    rw [length_logOf]
    split_ifs <;> omega
  omega

/-! ## The steps behind the outcomes -/

theorem outcome_publish {hub : EventHub} {streamId : UInt32} {event : BuildEvent} :
    outcome streamId (hub, .publish streamId event) = hub.streams[streamId]?.map fun stream =>
      if event.bytes ≤ stream.credit ∨ event.terminal = true then .accepted event else .dropped := by
  simp only [outcome, if_true, publish]
  cases hub.streams[streamId]? with
  | none => rfl
  | some stream =>
    by_cases hfits : event.bytes ≤ stream.credit
    · simp [hfits]
    · by_cases hterminal : event.terminal = true
      · simp [hfits, hterminal]
      · simp [hfits, hterminal, Status.error]

theorem publish_of_outcome {streamId : UInt32} {step : HubStep} {result : Outcome}
    (h : outcome streamId step = some result) :
    ∃ event stream, step.2 = .publish streamId event ∧ step.1.streams[streamId]? = some stream ∧
      result = if event.bytes ≤ stream.credit ∨ event.terminal = true then .accepted event
        else .dropped := by
  obtain ⟨hub, call⟩ := step
  cases call with
  | publish id event =>
    obtain rfl : id = streamId := by
      by_contra hother
      rw [outcome, if_neg hother] at h
      cases h
    rw [outcome_publish] at h
    obtain ⟨stream, hstream, hresult⟩ := Option.map_eq_some_iff.mp h
    exact ⟨event, stream, rfl, hstream, hresult.symm⟩
  | openStream id credit => cases h
  | addCredit id credit => cases h
  | drain id => cases h

theorem outcome_eq_dropped {streamId : UInt32} {step : HubStep} :
    outcome streamId step = some .dropped ↔ Drops streamId step := by
  constructor
  · intro h
    obtain ⟨event, stream, hcall, hstream, hresult⟩ := publish_of_outcome h
    split_ifs at hresult with htaken
    exact ⟨event, stream, hcall, hstream, not_or.mp htaken⟩
  · rintro ⟨event, stream, hcall, hstream, hbytes, hterminal⟩
    obtain ⟨hub, call⟩ := step
    obtain rfl : call = .publish streamId event := hcall
    have hstream : hub.streams[streamId]? = some stream := hstream
    rw [outcome_publish, hstream, Option.map_some, if_neg (not_or.mpr ⟨hbytes, hterminal⟩)]

theorem outcome_eq_accepted {streamId : UInt32} {step : HubStep} :
    (∃ event, outcome streamId step = some (.accepted event)) ↔ Takes streamId step := by
  constructor
  · rintro ⟨event, h⟩
    obtain ⟨event, stream, hcall, hstream, hresult⟩ := publish_of_outcome h
    split_ifs at hresult with htaken
    exact ⟨event, stream, hcall, hstream, htaken⟩
  · rintro ⟨event, stream, hcall, hstream, htaken⟩
    obtain ⟨hub, call⟩ := step
    obtain rfl : call = .publish streamId event := hcall
    have hstream : hub.streams[streamId]? = some stream := hstream
    exact ⟨event, by rw [outcome_publish, hstream, Option.map_some, if_pos htaken]⟩

theorem sublist_filterMap_iff_exists {α β : Type} {f : α → Option β} {out : List β} {l : List α} :
    out.Sublist (l.filterMap f) ↔ ∃ l' : List α, l'.Sublist l ∧ l'.map f = out.map some := by
  constructor
  · intro h
    induction l generalizing out with
    | nil =>
      obtain rfl := List.sublist_nil.mp h
      exact ⟨[], List.Sublist.slnil, rfl⟩
    | cons a l ih =>
      cases ha : f a with
      | none =>
        rw [List.filterMap_cons_none ha] at h
        obtain ⟨l', hsub, hmap⟩ := ih h
        exact ⟨l', hsub.cons a, hmap⟩
      | some b =>
        rw [List.filterMap_cons_some ha] at h
        cases h with
        | cons _ h =>
          obtain ⟨l', hsub, hmap⟩ := ih h
          exact ⟨l', hsub.cons a, hmap⟩
        | cons_cons _ h =>
          obtain ⟨l', hsub, hmap⟩ := ih h
          exact ⟨a :: l', hsub.cons_cons a, by rw [List.map_cons, ha, hmap, List.map_cons]⟩
  · rintro ⟨l', hsub, hmap⟩
    have hout : l'.filterMap f = out :=
      calc l'.filterMap f = (l'.map f).filterMap id := by rw [List.filterMap_map, Function.id_comp]
        _ = out := by rw [hmap, List.filterMap_map, Function.id_comp, List.filterMap_some]
    exact hout ▸ List.Sublist.filterMap f hsub

theorem dropsOnce_iff (streamId : UInt32) (steps : List HubStep) :
    DropsOnce streamId steps ↔
      ∀ event, ¬ [.dropped, .accepted event, .dropped].Sublist (tally streamId steps).outcomes := by
  rw [outcomes_tally]
  constructor
  · intro h event hsub
    obtain ⟨chosen, hchosen, hmap⟩ := sublist_filterMap_iff_exists.mp hsub
    obtain ⟨first, taken, second, rfl⟩ : ∃ a b c, chosen = [a, b, c] :=
      List.length_eq_three.mp (by simpa using congrArg List.length hmap)
    simp only [List.map_cons, List.map_nil, List.cons.injEq, and_true] at hmap
    exact h first taken second hchosen (outcome_eq_dropped.mp hmap.1)
      (outcome_eq_accepted.mp ⟨event, hmap.2.1⟩) (outcome_eq_dropped.mp hmap.2.2)
  · intro h first taken second hchosen hfirst htaken hsecond
    obtain ⟨event, hevent⟩ := outcome_eq_accepted.mpr htaken
    refine h event (sublist_filterMap_iff_exists.mpr ⟨_, hchosen, ?_⟩)
    simp [outcome_eq_dropped.mpr hfirst, hevent, outcome_eq_dropped.mpr hsecond]

theorem log_eq_logOf (calls : List HubCall) (streamId : UInt32) :
    log calls streamId = logOf false (tally streamId (history calls)).outcomes := by
  have hbooks := books_run calls streamId
  unfold log queued
  cases hstream : (run calls).streams[streamId]? with
  | none =>
    rw [hstream] at hbooks
    have hnothing : tally streamId (history calls) = {} := hbooks
    rw [hnothing]
    rfl
  | some stream =>
    rw [hstream] at hbooks
    exact hbooks.log

/-- **Drops are announced exactly as long as no stream drops again** behind an event that it took after
a drop: the one gap event of a stream stands where it dropped first. -/
theorem gapsAnnounced_iff (calls : List HubCall) :
    GapsAnnounced calls ↔ ∀ streamId, DropsOnce streamId (history calls) := by
  refine forall_congr' fun streamId => ?_
  rw [log_eq_logOf, announced_logOf_iff, dropsOnce_iff]

/-- Progress is dropped before and behind a terminal event, and only the first drop leaves a gap event. -/
theorem not_gapsAnnounced_second_drop :
    ¬ GapsAnnounced [.openStream 1 0, .publish 1 { bytes := 10 },
      .publish 1 { kind := .succeeded, terminal := true, bytes := 10 }, .publish 1 { bytes := 10 }] := by
  intro h
  have hlength := length_of_announced (h 1)
  revert hlength
  decide +kernel

end EventHub

end Forge
