import Forge.Workspace.Coalescing
import Forge.Workspace.WorkspaceRuns

/-!
# File events of a workspace

`file_event` pushes an event, reads the file and completes the event at once. So nothing is pending between
two calls, no completion is stale, and the fingerprint of a path is that of the last event for it: the digest
of what the file held then, under an epoch that counts the events (`file_events_run`).
-/

namespace Forge

open Std (ExtTreeMap)
open FileEventCoalescer (nextEpoch)

namespace FileEventCoalescer

theorem accepts_push (coalescer : FileEventCoalescer) (path : NormalizedPath) (kind : FileEventKind)
    (now : UInt64) : (coalescer.push path kind now).2.Accepts (coalescer.push path kind now).1 :=
  ⟨_, ExtTreeMap.getElem?_insert_self, rfl⟩

theorem complete_push (coalescer : FileEventCoalescer) (path : NormalizedPath) (kind : FileEventKind)
    (now : UInt64) (fingerprint : InputFingerprint) :
    (coalescer.push path kind now).2.complete (coalescer.push path kind now).1 fingerprint = (.ok (),
      { coalescer with
        fingerprints := coalescer.fingerprints.insert path.relative
          { fingerprint with epoch := nextEpoch (coalescer.current path.relative) }
        pending := coalescer.pending.erase path.relative }) := by
  -- an event completed as soon as it is pushed is not stale, and not pending either
  have herase (entry : CoalescedEvent) : (coalescer.pending.insert path.relative entry).erase path.relative =
      coalescer.pending.erase path.relative :=
    ExtTreeMap.ext_getElem? fun other => by
      rw [ExtTreeMap.getElem?_erase, ExtTreeMap.getElem?_erase, ExtTreeMap.getElem?_insert]
      split_ifs <;> rfl
  rw [complete_accepted (accepts_push coalescer path kind now), push]
  simp only [herase]
  rfl

end FileEventCoalescer

namespace Workspace

variable {σ : Type}

/-- The path and the digest that an event puts on record, if its path is accepted. -/
def recorded : Workspace × WorkspaceCall σ → Option (Str × Digest256)
  | (workspace, .fileEvent relative path _) =>
    match workspace.pathPolicy.normalize relative path with
    | .value (.ok normalized) => some (normalized.relative, workspace.fingerprintPath normalized)
    | _ => none
  | _ => none

/-- The digests on record for a path. -/
def digestsOf (steps : List (Workspace × WorkspaceCall σ)) (path : Str) : List Digest256 :=
  ((steps.filterMap recorded).filter fun entry => entry.1 = path).map Prod.snd

/-- The fingerprint that these make. -/
def fingerprintOf (path : Str) (digests : List Digest256) : Option InputFingerprint :=
  digests.getLast?.map fun digest =>
    { path := ⟨path⟩, digest, epoch := ⟨UInt64.ofNat digests.length⟩ }

/-- Nothing is pending, and the fingerprints are those of the events so far. -/
structure Tracks (steps : List (Workspace × WorkspaceCall σ)) (workspace : Workspace) : Prop where
  pending : workspace.coalescer.pending = ∅
  current : ∀ path, workspace.coalescer.current path = fingerprintOf path (digestsOf steps path)

/-! ## One event -/

theorem fingerprintOf_concat (path : Str) (digests : List Digest256) (digest : Digest256) :
    fingerprintOf path (digests ++ [digest]) = some
      { path := ⟨path⟩, digest
        epoch := nextEpoch (fingerprintOf path digests) } := by
  rw [fingerprintOf, List.getLast?_concat, Option.map_some, List.length_append, List.length_singleton]
  rcases List.eq_nil_or_concat digests with rfl | ⟨before, last, rfl⟩
  · rfl
  · rw [List.concat_eq_append, fingerprintOf, List.getLast?_concat, Option.map_some, UInt64.ofNat_add]
    rfl

theorem fileEvent_accepted {workspace : Workspace} (hpending : workspace.coalescer.pending = ∅)
    {relative : Str → Str → Option Str} {path : Str} {normalized : NormalizedPath}
    (hnormal : workspace.pathPolicy.normalize relative path = .value (.ok normalized)) (kind : FileEventKind) :
    (workspace.fileEvent relative path kind).1 = .value (.ok ()) ∧
      (workspace.fileEvent relative path kind).2.coalescer.pending = ∅ ∧
      ∀ other, (workspace.fileEvent relative path kind).2.coalescer.current other =
        if normalized.relative = other then some
          { path := normalized
            digest := workspace.fingerprintPath normalized
            epoch := nextEpoch (workspace.coalescer.current normalized.relative) }
        else workspace.coalescer.current other := by
  simp only [fileEvent, hnormal, FileEventCoalescer.complete_push]
  refine ⟨trivial, ?_, fun other => ?_⟩
  · rw [hpending]
    exact ExtTreeMap.eq_empty_iff_forall_not_mem.mpr fun other => by simp
  · rw [FileEventCoalescer.current, ExtTreeMap.getElem?_insert]
    simp only [Std.compare_eq_iff_eq]
    rfl

/-! ## Runs -/

theorem digestsOf_concat (steps : List (Workspace × WorkspaceCall σ)) (last : Workspace × WorkspaceCall σ)
    (path : Str) :
    digestsOf (steps ++ [last]) path = digestsOf steps path ++
      match recorded last with
      | some entry => if entry.1 = path then [entry.2] else []
      | none => [] := by
  rw [digestsOf, digestsOf, List.filterMap_append, List.filter_append, List.map_append]
  congr 1
  rcases hrecorded : recorded last with _ | entry
  · simp [hrecorded]
  · by_cases hpath : entry.1 = path <;> simp [hrecorded, hpath]

theorem tracks_step {steps : List (Workspace × WorkspaceCall σ)} {workspace : Workspace}
    (h : Tracks steps workspace) (call : WorkspaceCall σ) :
    Tracks (steps ++ [(workspace, call)]) (workspace.step call) := by
  have hkept (hnothing : recorded (workspace, call) = none)
      (hcoalescer : (workspace.step call).coalescer = workspace.coalescer) :
      Tracks (steps ++ [(workspace, call)]) (workspace.step call) := by
    refine ⟨hcoalescer ▸ h.pending, fun path => ?_⟩
    rw [hcoalescer, h.current, digestsOf_concat, hnothing, List.append_nil]
  cases call with
  | fileEvent relative path kind =>
    rcases hnormal : workspace.pathPolicy.normalize relative path with (status | normalized) | _
    · exact hkept (by rw [recorded, hnormal]) (by rw [step, fileEvent, hnormal])
    · obtain ⟨-, hpending, hcurrent⟩ := fileEvent_accepted h.pending hnormal kind
      refine ⟨hpending, fun other => ?_⟩
      rw [step, hcurrent, digestsOf_concat, recorded, hnormal, h.current, h.current]
      by_cases hother : normalized.relative = other
      · subst hother
        simp only [if_true, fingerprintOf_concat]
      · simp only [if_neg hother, List.append_nil]
    · exact hkept (by rw [recorded, hnormal]) (by rw [step, fileEvent, hnormal])
  | build ex targets executor => exact hkept rfl rfl
  | putNode name action => exact hkept rfl rfl
  | putEdge fromNode toNode kind => exact hkept rfl rfl
  | addCredit streamId credit => exact hkept rfl rfl
  | publish streamId event => exact hkept rfl rfl
  | drain streamId => exact hkept rfl rfl
  | artifacts store inMemory => exact hkept rfl rfl
  | advance delta => exact hkept rfl rfl
  | write path bytes => exact hkept rfl rfl
  | erase path => exact hkept rfl rfl

/-- **The fingerprints of a workspace.** In every run nothing is pending between two calls; the fingerprint
of a path has the digest of what the file held at the last accepted event for it, and the number of those
events as its epoch; and an event fails only for its path, never as a stale one. -/
theorem file_events_run (root : Str) (calls : List (WorkspaceCall σ)) :
    let start : Workspace := { pathPolicy := ⟨root⟩ }
    let workspace := calls.foldl step start
    workspace.coalescer.pending = ∅ ∧
      (∀ path, workspace.coalescer.current path =
        fingerprintOf path (digestsOf (Runs.trace step start calls) path)) ∧
      ∀ relative path kind, (workspace.fileEvent relative path kind).1 =
        match workspace.pathPolicy.normalize relative path with
        | .threw => .threw
        | .value result => .value (result.map fun _ => ()) := by
  intro start workspace
  obtain ⟨hpending, hcurrent⟩ : Tracks (Runs.trace step start calls) workspace :=
    @Runs.trace_induction _ _ _ Tracks _ ⟨rfl, fun path => rfl⟩
      (fun steps workspace call h => tracks_step h call) calls
  refine ⟨hpending, hcurrent, fun relative path kind => ?_⟩
  rcases hnormal : workspace.pathPolicy.normalize relative path with (status | normalized) | _
  · rw [fileEvent, hnormal]
    rfl
  · rw [(fileEvent_accepted hpending hnormal kind).1]
    rfl
  · rw [fileEvent, hnormal]

end Workspace

end Forge
