import Forge.Lib.TreeMap
import Forge.Workspace.FileCoalescer
import Mathlib.Data.List.DropRight

/-!
# What a coalescer holds

A coalescer behind any run of `push` and `complete` calls, set beside the trace of the run: the pending
entries are the pushes since the last successful completion of their path (`pending_outstanding`), and
the stored epochs are to count the content changes that were committed.

`complete` raises the epoch with every completion, also where the digest is the stored one.
`epochs_count_changes_iff` says in which runs the epochs count changes.
-/

namespace Forge

open Std (ExtTreeMap)

/-- The calls that change a coalescer. -/
inductive CoalescerUpdate
  | push (path : NormalizedPath) (kind : FileEventKind) (now : UInt64)
  | complete (event : CoalescedEvent) (fingerprint : InputFingerprint)
deriving DecidableEq

/-- The due time of a push does not wrap. -/
def CoalescerUpdate.Fits (debounceTicks : UInt64) : CoalescerUpdate → Prop
  | push _ _ now => now.toNat + debounceTicks.toNat < 2 ^ 64
  | complete .. => True

structure FilePush where
  kind : FileEventKind
  now : UInt64
deriving DecidableEq, Repr

namespace FileEventCoalescer

def update (coalescer : FileEventCoalescer) : CoalescerUpdate → FileEventCoalescer
  | .push path kind now => (coalescer.push path kind now).2
  | .complete event fingerprint => (coalescer.complete event fingerprint).2

/-! ## Traces -/

/-- The push of the path that a step makes. -/
def pushed (path : NormalizedPath) : FileEventCoalescer × CoalescerUpdate → Option FilePush
  | (_, .push other kind now) => if other = path then some ⟨kind, now⟩ else none
  | (_, .complete ..) => none

/-- The digest that a step commits for the path: that of a successful completion. -/
def commits (path : NormalizedPath) : FileEventCoalescer × CoalescerUpdate → Option Digest256
  | (_, .push ..) => none
  | (coalescer, .complete event fingerprint) =>
    if event.path = path ∧ (coalescer.complete event fingerprint).1 = .ok () then
      some fingerprint.digest
    else none

/-- The pushes of a path since its last successful completion, oldest first. -/
def outstanding (path : NormalizedPath) (steps : List (FileEventCoalescer × CoalescerUpdate)) :
    List FilePush :=
  (steps.rtakeWhile fun step => (commits path step).isNone).filterMap (pushed path)

/-- The digests committed for a path, newest first. -/
def committed (path : NormalizedPath) (steps : List (FileEventCoalescer × CoalescerUpdate)) :
    List Digest256 := steps.reverse.filterMap (commits path)

variable {path : NormalizedPath} {steps : List (FileEventCoalescer × CoalescerUpdate)}
  {coalescer : FileEventCoalescer} {event : CoalescedEvent} {fingerprint : InputFingerprint}

theorem outstanding_push {pushedPath : NormalizedPath} {kind : FileEventKind} {now : UInt64} :
    outstanding path (steps ++ [(coalescer, .push pushedPath kind now)]) =
      outstanding path steps ++ if pushedPath = path then [⟨kind, now⟩] else [] := by
  rw [outstanding, List.rtakeWhile_concat, if_pos (by rfl), List.filterMap_append, ← outstanding]
  by_cases hpath : pushedPath = path <;> simp [pushed, hpath]

theorem outstanding_complete :
    outstanding path (steps ++ [(coalescer, .complete event fingerprint)]) =
      if event.path = path ∧ (coalescer.complete event fingerprint).1 = .ok () then []
      else outstanding path steps := by
  rw [outstanding, List.rtakeWhile_concat]
  by_cases hdone : event.path = path ∧ (coalescer.complete event fingerprint).1 = .ok ()
  · rw [if_neg (by simp [commits, hdone]), if_pos hdone, List.filterMap_nil]
  · rw [if_pos (by simp [commits, hdone]), if_neg hdone, List.filterMap_append, ← outstanding]
    simp [pushed]

theorem committed_push {pushedPath : NormalizedPath} {kind : FileEventKind} {now : UInt64} :
    committed path (steps ++ [(coalescer, .push pushedPath kind now)]) = committed path steps := by
  rw [committed, List.reverse_append, List.filterMap_append]
  rfl

theorem committed_complete :
    committed path (steps ++ [(coalescer, .complete event fingerprint)]) =
      if event.path = path ∧ (coalescer.complete event fingerprint).1 = .ok () then
        fingerprint.digest :: committed path steps
      else committed path steps := by
  by_cases hdone : event.path = path ∧ (coalescer.complete event fingerprint).1 = .ok ()
  · rw [if_pos hdone]
    simp [committed, commits, hdone]
  · rw [if_neg hdone]
    simp [committed, commits, hdone]

/-! ## Outstanding events -/

/-- The entry merges these pushes of the path. -/
structure Merges (debounceTicks : UInt64) (path : NormalizedPath) (pushes : List FilePush)
    (entry : CoalescedEvent) : Prop where
  path : entry.path = path
  mergedKind : entry.mergedKind = pushes.foldl (fun kinds push => kinds ||| push.kind.value) 0
  dueTime : ∃ latest, pushes.getLast? = some latest ∧
    entry.dueTime.toNat = latest.now.toNat + debounceTicks.toNat

/-- What the map may have for a path, given the pushes outstanding for it. -/
def PendingFor (debounceTicks : UInt64) (path : NormalizedPath) (pushes : List FilePush) :
    Option CoalescedEvent → Prop
  | none => pushes = []
  | some entry => Merges debounceTicks path pushes entry

structure HoldsOutstanding (debounceTicks : UInt64)
    (steps : List (FileEventCoalescer × CoalescerUpdate)) (coalescer : FileEventCoalescer) : Prop where
  pending : ∀ path : NormalizedPath,
    PendingFor debounceTicks path (outstanding path steps) coalescer.pending[path.relative]?
  ticks : coalescer.debounceTicks = debounceTicks

theorem Merges.ne_nil {debounceTicks : UInt64} {pushes : List FilePush} {entry : CoalescedEvent}
    (h : Merges debounceTicks path pushes entry) : pushes ≠ [] := by
  obtain ⟨latest, hlatest, _⟩ := h.dueTime
  rintro rfl
  cases hlatest

theorem holdsOutstanding_push {debounceTicks : UInt64} (h : HoldsOutstanding debounceTicks steps coalescer)
    (pushedPath : NormalizedPath) (kind : FileEventKind) {now : UInt64}
    (hfits : now.toNat + debounceTicks.toNat < 2 ^ 64) :
    HoldsOutstanding debounceTicks (steps ++ [(coalescer, .push pushedPath kind now)])
      (coalescer.push pushedPath kind now).2 := by
  refine ⟨fun path => ?_, h.ticks⟩
  rw [outstanding_push]
  show PendingFor debounceTicks path _
    (coalescer.pending.insert pushedPath.relative (coalescer.push pushedPath kind now).1)[path.relative]?
  by_cases hpath : pushedPath = path
  · subst hpath
    rw [if_pos rfl, ExtTreeMap.getElem?_insert_self]
    refine ⟨rfl, ?_, ⟨kind, now⟩, by simp, ?_⟩
    · show (coalescer.pending.getD pushedPath.relative {}).mergedKind ||| kind.value = _
      have hentry := h.pending pushedPath
      rw [List.foldl_append, ExtTreeMap.getD_eq_getD_getElem?]
      cases hpending : coalescer.pending[pushedPath.relative]? with
      | none =>
        rw [hpending] at hentry
        rw [show outstanding pushedPath steps = [] from hentry]
        rfl
      | some entry =>
        rw [hpending] at hentry
        rw [← hentry.mergedKind]
        rfl
    · show (now + coalescer.debounceTicks).toNat = now.toNat + debounceTicks.toNat
      rw [h.ticks, UInt64.toNat_add, Nat.mod_eq_of_lt hfits]
  · rw [if_neg hpath, List.append_nil,
      ExtTreeMap.getElem?_insert_of_ne (CoalescerHistory.relative_ne_of_ne hpath)]
    exact h.pending path

theorem holdsOutstanding_complete {debounceTicks : UInt64}
    (h : HoldsOutstanding debounceTicks steps coalescer) (event : CoalescedEvent)
    (fingerprint : InputFingerprint) :
    HoldsOutstanding debounceTicks (steps ++ [(coalescer, .complete event fingerprint)])
      (coalescer.complete event fingerprint).2 := by
  have hticks : (coalescer.complete event fingerprint).2.debounceTicks = debounceTicks := by
    rcases coalescer.complete_cases event fingerprint with ⟨_, _, hrun⟩ | ⟨_, hrun⟩ <;> rw [hrun]
    · exact h.ticks
    · exact h.ticks
  refine ⟨fun path => ?_, hticks⟩
  rw [outstanding_complete]
  rcases coalescer.complete_cases event fingerprint with ⟨_, _, hrun⟩ | ⟨_, hrun⟩
  · simp only [hrun, and_true]
    by_cases hpath : event.path = path
    · rw [if_pos hpath, hpath, ExtTreeMap.getElem?_erase_self]
      rfl
    · rw [if_neg hpath, ExtTreeMap.getElem?_erase_of_ne (CoalescerHistory.relative_ne_of_ne hpath)]
      exact h.pending path
  · rw [hrun, if_neg (fun hdone => by cases hdone.2)]
    exact h.pending path

theorem holdsOutstanding_run {debounceTicks : UInt64} {calls : List CoalescerUpdate}
    (hfits : ∀ call ∈ calls, call.Fits debounceTicks) :
    HoldsOutstanding debounceTicks (Runs.trace update { debounceTicks } calls)
      (calls.foldl update { debounceTicks }) := by
  induction calls using List.reverseRecOn with
  | nil => exact ⟨fun path => by simp [PendingFor, outstanding, Runs.trace], rfl⟩
  | append_singleton calls call ih =>
    have hheld := ih fun other hother => hfits other (List.mem_append_left _ hother)
    have hcall := hfits call (List.mem_append_right _ (List.mem_singleton_self call))
    rw [Runs.trace_append, List.foldl_append]
    cases call with
    | push path kind now => exact holdsOutstanding_push hheld path kind hcall
    | complete event fingerprint => exact holdsOutstanding_complete hheld event fingerprint

theorem mem_due {coalescer : FileEventCoalescer} {now : UInt64} {event : CoalescedEvent} :
    event ∈ coalescer.due now ↔
      (∃ relative : Str, coalescer.pending[relative]? = some event) ∧ event.dueTime ≤ now := by
  simp [due, ExtTreeMap.mem_toList_iff_getElem?_eq_some]

/-- **Coalescing keeps the outstanding events.** Behind every run of calls whose due times do not wrap, a
path is pending if it was pushed since its last successful completion, its entry merges these pushes,
`due` lists the entries that are due in the order of their paths, and a rejected `complete` changes
nothing. -/
theorem pending_outstanding (debounceTicks : UInt64) (calls : List CoalescerUpdate)
    (hfits : ∀ call ∈ calls, call.Fits debounceTicks) :
    let steps := Runs.trace update { debounceTicks } calls
    let coalescer := calls.foldl update { debounceTicks }
    (∀ path, path.relative ∈ coalescer.pending ↔ outstanding path steps ≠ []) ∧
    (∀ path entry, coalescer.pending[path.relative]? = some entry →
      Merges debounceTicks path (outstanding path steps) entry) ∧
    (∀ now, (∀ event, event ∈ coalescer.due now ↔
        coalescer.pending[event.path.relative]? = some event ∧ event.dueTime ≤ now) ∧
      (coalescer.due now).Pairwise fun a b => compare a.path.relative b.path.relative = .lt) ∧
    ∀ event fingerprint, (coalescer.complete event fingerprint).1 ≠ .ok () →
      (coalescer.complete event fingerprint).2 = coalescer := by
  intro steps coalescer
  have hheld : HoldsOutstanding debounceTicks steps coalescer := holdsOutstanding_run hfits
  have hmerges : ∀ path entry, coalescer.pending[path.relative]? = some entry →
      Merges debounceTicks path (outstanding path steps) entry := by
    intro path entry hentry
    have hpending := hheld.pending path
    rwa [hentry] at hpending
  have hkey : ∀ (relative : Str) (entry : CoalescedEvent), coalescer.pending[relative]? = some entry →
      entry.path.relative = relative :=
    fun relative entry hentry => congrArg (·.relative) (hmerges ⟨relative⟩ entry hentry).path
  refine ⟨fun path => ⟨fun hmem => ?_, fun hpushed => ?_⟩, hmerges, fun now => ⟨fun event => ?_, ?_⟩,
    fun event fingerprint => complete_rejected⟩
  · obtain ⟨entry, hentry⟩ := ExtTreeMap.exists_of_mem hmem
    exact (hmerges path entry hentry).ne_nil
  · by_contra hnot
    have hpending := hheld.pending path
    rw [ExtTreeMap.not_mem_iff.mp hnot] at hpending
    exact hpushed hpending
  · rw [mem_due]
    refine and_congr_left fun _ => ⟨fun ⟨relative, hentry⟩ => ?_, fun hentry => ⟨_, hentry⟩⟩
    rw [hkey relative event hentry]
    exact hentry
  · refine List.Pairwise.filter _ (List.pairwise_map.mpr ?_)
    refine ExtTreeMap.ordered_keys_toList.imp_of_mem fun {a b} ha hb hlt => ?_
    rw [hkey a.1 a.2 (ExtTreeMap.mem_toList_iff_getElem?_eq_some.mp ha),
      hkey b.1 b.2 (ExtTreeMap.mem_toList_iff_getElem?_eq_some.mp hb)]
    exact hlt

/-- Two paths pushed three times, one of them completed. -/
theorem pending_outstanding_two_paths :
    let calls : List CoalescerUpdate := [.push ⟨[98]⟩ .create 1, .push ⟨[97]⟩ .modify 2,
      .complete ⟨⟨[97]⟩, 2, ⟨2⟩, 7⟩ ⟨⟨[97]⟩, {}, 0, {}⟩, .push ⟨[98]⟩ .remove 4]
    (calls.foldl update {}).pending[([98] : Str)]? = some ⟨⟨[98]⟩, 5, ⟨3⟩, 9⟩ ∧
      Merges 5 ⟨[98]⟩ [⟨.create, 1⟩, ⟨.remove, 4⟩] ⟨⟨[98]⟩, 5, ⟨3⟩, 9⟩ := by
  intro calls
  have hentry : (calls.foldl update {}).pending[([98] : Str)]? = some ⟨⟨[98]⟩, 5, ⟨3⟩, 9⟩ := by
    decide +kernel
  have hfits : ∀ call ∈ calls, call.Fits 5 := by
    simp [calls, CoalescerUpdate.Fits]
  have hmerges := (pending_outstanding 5 calls hfits).2.1 ⟨[98]⟩ _ hentry
  have hpushes : outstanding ⟨[98]⟩ (Runs.trace update { debounceTicks := 5 } calls) =
      [⟨.create, 1⟩, ⟨.remove, 4⟩] := by decide +kernel
  rw [hpushes] at hmerges
  exact ⟨hentry, hmerges⟩

/-! ## Epochs -/

/-- The stored epoch of a path, zero as long as nothing is stored. -/
def epoch (coalescer : FileEventCoalescer) (path : NormalizedPath) : Nat :=
  ((coalescer.current path.relative).map fun stored => stored.epoch.value.toNat).getD 0

/-- How often the content changes in a list of digests, newest first; the first digest is a change. -/
def contentChanges : List Digest256 → Nat
  | [] => 0
  | [_] => 1
  | digest :: old :: older => contentChanges (old :: older) + if digest = old then 0 else 1

/-- The epoch that an accepted `complete` stores, given what is stored already. -/
def nextEpoch : Option InputFingerprint → Generation
  | none => ⟨1⟩
  | some old => old.epoch.next

theorem complete_accepted (h : coalescer.Accepts event) (fingerprint : InputFingerprint) :
    coalescer.complete event fingerprint = (.ok (),
      { coalescer with
        fingerprints := coalescer.fingerprints.insert event.path.relative
          { fingerprint with epoch := nextEpoch (coalescer.current event.path.relative) }
        pending := coalescer.pending.erase event.path.relative }) := by
  obtain ⟨entry, hentry, htoken⟩ := h
  simp only [complete, hentry, Option.filter_some, htoken, decide_true, if_true]
  rfl

theorem current_complete (h : coalescer.Accepts event) (fingerprint : InputFingerprint)
    (path : NormalizedPath) :
    (coalescer.complete event fingerprint).2.current path.relative =
      if event.path = path then
        some { fingerprint with epoch := nextEpoch (coalescer.current path.relative) }
      else coalescer.current path.relative := by
  rw [complete_accepted h]
  by_cases hpath : event.path = path
  · subst hpath
    rw [if_pos rfl]
    exact ExtTreeMap.getElem?_insert_self
  · rw [if_neg hpath]
    exact ExtTreeMap.getElem?_insert_of_ne (CoalescerHistory.relative_ne_of_ne hpath)

/-- A successful `complete` leaves the stored epoch if its digest is the stored one and raises it
otherwise. -/
def MovesEpochWithContent (coalescer : FileEventCoalescer) : CoalescerUpdate → Prop
  | .push .. => True
  | .complete event fingerprint => (coalescer.complete event fingerprint).1 = .ok () →
    if (coalescer.current event.path.relative).map (·.digest) = some fingerprint.digest then
      (coalescer.complete event fingerprint).2.epoch event.path = coalescer.epoch event.path
    else coalescer.epoch event.path < (coalescer.complete event fingerprint).2.epoch event.path

/-- A completion that is accepted has another digest than the stored one, and the stored epoch is not the
last one. -/
def CompletesChange (coalescer : FileEventCoalescer) : CoalescerUpdate → Prop
  | .push .. => True
  | .complete event fingerprint => coalescer.Accepts event →
    ∀ old, coalescer.current event.path.relative = some old →
      old.digest ≠ fingerprint.digest ∧ old.epoch.value.toNat + 1 < 2 ^ 64

/-- The newest digest committed for each path is the stored one, and the stored epoch counts its
changes. -/
structure CountsChanges (steps : List (FileEventCoalescer × CoalescerUpdate))
    (coalescer : FileEventCoalescer) : Prop where
  digest : ∀ path : NormalizedPath,
    (coalescer.current path.relative).map (·.digest) = (committed path steps).head?
  epoch : ∀ path, coalescer.epoch path = contentChanges (committed path steps)

theorem epoch_complete (h : coalescer.Accepts event) (fingerprint : InputFingerprint) :
    (coalescer.complete event fingerprint).2.epoch event.path =
      (nextEpoch (coalescer.current event.path.relative)).value.toNat := by
  rw [epoch, current_complete h, if_pos rfl]
  rfl

theorem movesEpochWithContent_iff (coalescer : FileEventCoalescer) (call : CoalescerUpdate) :
    coalescer.MovesEpochWithContent call ↔ coalescer.CompletesChange call := by
  cases call with
  | push path kind now => exact Iff.rfl
  | complete event fingerprint =>
    simp only [MovesEpochWithContent, CompletesChange, complete_ok_iff]
    refine forall_congr' fun haccepts => ?_
    rw [epoch_complete haccepts, epoch]
    cases hcurrent : coalescer.current event.path.relative with
    | none => simp [nextEpoch]
    | some old =>
      have hlt := old.epoch.value.toNat_lt
      have hnext : old.epoch.next.value.toNat = (old.epoch.value.toNat + 1) % 2 ^ 64 := by
        rw [Generation.next, UInt64.toNat_add]
        rfl
      simp only [nextEpoch, hnext, Option.map_some, Option.some.injEq, Option.getD_some,
        forall_eq']
      split
      · next hsame =>
        simp only [hsame, ne_eq, not_true, false_and, iff_false]
        omega
      · next hdiffers =>
        simp only [ne_eq, hdiffers, not_false_eq_true, true_and]
        omega

theorem CountsChanges.rejected (h : CountsChanges steps coalescer) {event : CoalescedEvent}
    (hrejected : ¬ coalescer.Accepts event) (fingerprint : InputFingerprint) :
    CountsChanges (steps ++ [(coalescer, .complete event fingerprint)])
      (coalescer.update (.complete event fingerprint)) := by
  rcases coalescer.complete_cases event fingerprint with ⟨hyes, _⟩ | ⟨_, hrun⟩
  · exact absurd hyes hrejected
  have hsame : coalescer.update (.complete event fingerprint) = coalescer := by
    rw [update, hrun]
  have hcommitted : ∀ path, committed path (steps ++ [(coalescer, .complete event fingerprint)]) =
      committed path steps := fun path => by
    rw [committed_complete, hrun, if_neg (fun hdone => by cases hdone.2)]
  exact ⟨fun path => by rw [hsame, hcommitted, h.digest], fun path => by rw [hsame, hcommitted, h.epoch]⟩

theorem CountsChanges.nextEpoch_eq (h : CountsChanges steps coalescer) (path : NormalizedPath)
    {digest : Digest256} (hchange : ∀ old, coalescer.current path.relative = some old →
      old.digest ≠ digest ∧ old.epoch.value.toNat + 1 < 2 ^ 64) :
    (nextEpoch (coalescer.current path.relative)).value.toNat =
      contentChanges (digest :: committed path steps) := by
  have hdigest := h.digest path
  have hepoch := h.epoch path
  rw [FileEventCoalescer.epoch] at hepoch
  cases hcurrent : coalescer.current path.relative with
  | none =>
    rw [hcurrent] at hdigest
    rw [List.head?_eq_none_iff.mp hdigest.symm]
    rfl
  | some old =>
    obtain ⟨hdiffers, hlast⟩ := hchange old hcurrent
    rw [hcurrent] at hdigest hepoch
    obtain ⟨older, holder⟩ := List.head?_eq_some_iff.mp hdigest.symm
    rw [holder] at hepoch
    rw [holder, contentChanges, if_neg (Ne.symm hdiffers), ← hepoch]
    show (old.epoch.value + 1).toNat = old.epoch.value.toNat + 1
    rw [UInt64.toNat_add]
    exact Nat.mod_eq_of_lt hlast

theorem countsChanges_step {call : CoalescerUpdate} (h : CountsChanges steps coalescer)
    (hchange : coalescer.CompletesChange call) :
    CountsChanges (steps ++ [(coalescer, call)]) (coalescer.update call) := by
  cases call with
  | push path kind now =>
    exact ⟨fun other => by rw [committed_push]; exact h.digest other,
      fun other => by rw [committed_push]; exact h.epoch other⟩
  | complete event fingerprint =>
    by_cases haccepts : coalescer.Accepts event
    swap
    · exact h.rejected haccepts fingerprint
    have hcommitted : ∀ path, committed path (steps ++ [(coalescer, .complete event fingerprint)]) =
        if event.path = path then fingerprint.digest :: committed path steps
        else committed path steps := fun path => by
      rw [committed_complete, (complete_ok_iff coalescer event fingerprint).mpr haccepts]
      simp only [and_true]
    refine ⟨fun path => ?_, fun path => ?_⟩
    · rw [update, current_complete haccepts, hcommitted]
      by_cases hpath : event.path = path
      · rw [if_pos hpath, if_pos hpath]
        rfl
      · rw [if_neg hpath, if_neg hpath, h.digest]
    · rw [update, epoch, current_complete haccepts, hcommitted]
      by_cases hpath : event.path = path
      · subst hpath
        rw [if_pos rfl, if_pos rfl, ← h.nextEpoch_eq event.path (hchange haccepts)]
        rfl
      · rw [if_neg hpath, if_neg hpath, ← h.epoch]
        rfl

theorem countsChanges_run {debounceTicks : UInt64} {calls : List CoalescerUpdate}
    (h : Runs.Admissible update CompletesChange { debounceTicks } calls) :
    CountsChanges (Runs.trace update { debounceTicks } calls) (calls.foldl update { debounceTicks }) := by
  induction calls using List.reverseRecOn with
  | nil => exact ⟨fun path => by simp [current, committed, Runs.trace], fun path => by
      simp [epoch, current, committed, contentChanges, Runs.trace]⟩
  | append_singleton calls call ih =>
    obtain ⟨hcalls, hcall, -⟩ := Runs.admissible_append.mp h
    rw [Runs.trace_append, List.foldl_append]
    exact countsChanges_step (ih hcalls) hcall

/-- **When epochs count content changes.** In a run every successful `complete` moves the epoch with the
content, and the epochs of all states reached count the changes, exactly when every completion that is
accepted brings another digest than the stored one. -/
theorem epochs_count_changes_iff (debounceTicks : UInt64) (calls : List CoalescerUpdate) :
    (Runs.Admissible update MovesEpochWithContent { debounceTicks } calls ∧
      ∀ reached, reached <+: calls → ∀ path,
        (reached.foldl update { debounceTicks }).epoch path =
          contentChanges (committed path (Runs.trace update { debounceTicks } reached))) ↔
      Runs.Admissible update CompletesChange { debounceTicks } calls := by
  have hcongr : Runs.Admissible update MovesEpochWithContent { debounceTicks } calls ↔
      Runs.Admissible update CompletesChange { debounceTicks } calls :=
    @Runs.admissible_congr _ _ update (fun _ => True) (fun _ _ _ => trivial) _ _
      (fun coalescer call _ => movesEpochWithContent_iff coalescer call) _ trivial calls
  refine ⟨fun h => hcongr.mp h.1, fun h => ⟨hcongr.mpr h, ?_⟩⟩
  rintro reached ⟨rest, rfl⟩ path
  exact (countsChanges_run h.of_append).epoch path

/-- The same content is completed twice: its epoch is 2. -/
theorem unchanged_content_moves_epoch :
    ¬ Runs.Admissible update MovesEpochWithContent {}
      [.push ⟨[97]⟩ .modify 0, .complete ⟨⟨[97]⟩, 2, ⟨2⟩, 5⟩ ⟨⟨[97]⟩, {}, 0, {}⟩,
        .push ⟨[97]⟩ .modify 7, .complete ⟨⟨[97]⟩, 2, ⟨2⟩, 12⟩ ⟨⟨[97]⟩, {}, 0, {}⟩] := by
  intro h
  have hsecond := h.2.2.2.1 (by decide +kernel)
  rw [if_pos (by decide +kernel)] at hsecond
  exact absurd hsecond (by decide +kernel)

end FileEventCoalescer

end Forge
