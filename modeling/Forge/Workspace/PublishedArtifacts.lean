import Forge.Workspace.CompleteBuild
import Forge.Workspace.WorkspaceRuns

/-!
# The artifacts of a workspace

A build publishes the artifacts of the answers that come under their leases, also when it fails later, and
leaves all else in the store alone. So behind any run of a workspace in which nobody uses `artifacts()` a key
holds what was published last under it, and what a build has announced can be read (`artifacts_run`).
-/

namespace Forge

open Std (ExtTreeMap)

/-- What `publish` stores for these bytes. -/
def objectOf (bytes : Bytes) : ArtifactObject := (({} : ArtifactWriter).append bytes).finish

/-- What a build publishes for the call. -/
def Call.output (call : Call) : List Bytes := if call.Current then call.artifacts else []

/-- What a build publishes, in the order in which it does. -/
def WorkspaceCore.outputs {σ : Type} (workspace : WorkspaceCore) (ex : Executor σ) (targets : List NodeId)
    (executor : σ) : List Bytes :=
  (workspace.executorCalls ex targets executor).flatMap Call.output

/-! ## One build -/

namespace BuildRun

variable {σ : Type} {ex : Executor σ} {graph : BuildGraph} {store : ArtifactStore}
  {run : BuildRun (σ × List Call)}

theorem stored_objects {store : ArtifactStore} (hroot : store.root = none) (artifacts : List Bytes) :
    (stored store artifacts).objects =
      artifacts.foldl (fun objects bytes => objects.insert (objectOf bytes).key (objectOf bytes))
        store.objects := by
  induction artifacts generalizing store with
  | nil => rfl
  | cons bytes rest ih =>
    have hpublish := ArtifactStore.publish_of_root_none hroot {} (({} : ArtifactWriter).append bytes)
    rw [stored, List.foldl_cons, ← stored, ih (by rw [hpublish]; exact hroot), hpublish]
    rfl

theorem stored_append (store : ArtifactStore) (artifacts rest : List Bytes) :
    stored store (artifacts ++ rest) = stored (stored store artifacts) rest := List.foldl_append

/-- The artifacts of the calls so far are published and announced. -/
structure Stored (store : ArtifactStore) (run : BuildRun (σ × List Call)) : Prop where
  artifacts : run.artifacts = stored store (run.calls.flatMap Call.output)
  keys : run.outcome.artifacts = (run.calls.flatMap Call.output).map fun bytes => (objectOf bytes).key

theorem Stored.afterCall (h : Stored store run) (nodeId : NodeId) (node : BuildNode) :
    (run.afterCall ex nodeId node).artifacts = stored store (run.calls.flatMap Call.output) ∧
      (run.afterCall ex nodeId node).outcome.artifacts =
        (run.calls.flatMap Call.output).map fun bytes => (objectOf bytes).key := by
  rw [BuildRun.afterCall, dispatch_eq]
  exact ⟨h.artifacts, h.keys⟩

theorem Stored.buildNode (h : Stored store run) (nodeId : NodeId) :
    Stored store (run.buildNode ex.logged graph nodeId).1 := by
  cases hnode : graph.nodes[nodeId]? with
  | none =>
    simp only [BuildRun.buildNode, hnode]
    exact h
  | some node =>
    cases hactive : run.activeByKey[(actionKeyFor node [] []).hex]? with
    | some job =>
      rw [buildNode_attached ex.logged graph run hnode hactive]
      exact ⟨h.artifacts, h.keys⟩
    | none =>
      rw [buildNode_dispatch ex.logged graph run hnode hactive]
      obtain ⟨hartifacts, hkeys⟩ := @Stored.afterCall _ ex _ _ h nodeId node
      have hcalls := calls_afterCall ex run nodeId node
      by_cases hcurrent : (run.nextCall ex nodeId node).Current
      · obtain ⟨result, hanswer, hlease, hattempt⟩ := hcurrent
        have houtput : (run.nextCall ex nodeId node).output = result.artifacts := by
          rw [Call.output, if_pos ⟨result, hanswer, hlease, hattempt⟩, Call.artifacts, hanswer]
        rw [settle_of_current ex.logged run hanswer hlease hattempt]
        constructor
        · show stored (run.afterCall ex nodeId node).artifacts result.artifacts =
            stored store ((run.afterCall ex nodeId node).calls.flatMap Call.output)
          rw [hcalls, hartifacts, List.flatMap_append, List.flatMap_singleton, houtput, stored_append]
        · show (run.afterCall ex nodeId node).outcome.artifacts ++ result.artifacts.map _ =
            ((run.afterCall ex nodeId node).calls.flatMap Call.output).map _
          rw [hcalls, hkeys, List.flatMap_append, List.flatMap_singleton, houtput, List.map_append]
          rfl
      · obtain ⟨status, hfail⟩ := settle_of_not_current ex.logged run hcurrent
        rw [hfail]
        have hsame : (run.afterCall ex nodeId node).calls.flatMap Call.output =
            run.calls.flatMap Call.output := by
          rw [hcalls, List.flatMap_append, List.flatMap_singleton, Call.output, if_neg hcurrent, List.append_nil]
        constructor
        · show (run.afterCall ex nodeId node).artifacts =
            stored store ((run.afterCall ex nodeId node).calls.flatMap Call.output)
          rw [hsame, hartifacts]
        · show (run.afterCall ex nodeId node).outcome.artifacts =
            ((run.afterCall ex nodeId node).calls.flatMap Call.output).map _
          rw [hsame, hkeys]

theorem Stored.buildLoop (order : List NodeId) {run : BuildRun (σ × List Call)} (h : Stored store run) :
    Stored store (run.buildLoop ex.logged graph order).1 := by
  induction order generalizing run with
  | nil => exact h
  | cons nodeId rest ih =>
    have hturn := @Stored.buildNode _ ex graph _ _ h nodeId
    rw [BuildRun.buildLoop]
    rcases hnext : run.buildNode ex.logged graph nodeId with ⟨run', none | leave⟩
    · rw [hnext] at hturn
      exact ih hturn
    · rw [hnext] at hturn
      exact hturn

end BuildRun

namespace WorkspaceCore

variable {σ : Type}

theorem prepare_artifacts (workspace : WorkspaceCore) (targets : List NodeId) (executor : σ) :
    (workspace.prepare targets executor).2.artifacts = workspace.artifacts := by
  rw [prepare]
  cases workspace.graph.cycleWitness with
  | some cycle => rfl
  | none =>
    cases planOrder workspace.graph targets with
    | error status => rfl
    | ok order =>
      simp only [EventHub.openStream]
      split_ifs <;> rfl

theorem build_stores (workspace : WorkspaceCore) (ex : Executor σ) (targets : List NodeId) (executor : σ) :
    (workspace.build ex targets executor).2.1.artifacts =
        BuildRun.stored workspace.artifacts (workspace.outputs ex targets executor) ∧
      ∀ outcome, (workspace.build ex targets executor).1 = .value (.ok outcome) →
        outcome.artifacts = (workspace.outputs ex targets executor).map fun bytes => (objectOf bytes).key := by
  rw [workspace.build_forget, outputs, executorCalls]
  have hsame := workspace.prepare_artifacts targets (executor, ([] : List Call))
  have hok := workspace.prepare_eq_ok_iff targets (executor, ([] : List Call))
  simp only [build]
  rcases hprepare : workspace.prepare targets (executor, ([] : List Call)) with
    ⟨status | ⟨order, run⟩, workspace'⟩
  · rw [hprepare] at hsame
    exact ⟨hsame, fun outcome h => by cases h⟩
  · rw [hprepare] at hok
    obtain ⟨_, hstart⟩ := (hok order run).mp rfl
    have hbefore : BuildRun.Stored workspace.artifacts run := by
      rw [hstart]
      exact ⟨rfl, rfl⟩
    have hloop := @BuildRun.Stored.buildLoop _ ex workspace'.graph _ order _ hbefore
    dsimp only
    rcases hrun : run.buildLoop ex.logged workspace'.graph order with ⟨run', leave⟩
    rw [hrun] at hloop
    refine ⟨hloop.artifacts, fun outcome h => ?_⟩
    rcases leave with _ | ⟨status | _⟩ | _ <;> cases h <;> exact hloop.keys

end WorkspaceCore

/-! ## Runs -/

namespace WorkspaceCall

/-- The call does not use `artifacts()`. -/
def KeepsStore {σ : Type} : WorkspaceCall σ → Prop
  | artifacts _ _ => False
  | _ => True

end WorkspaceCall

namespace Workspace

open WorkspaceCore (twinWorkspace)

variable {σ : Type}

def outputs : Workspace × WorkspaceCall σ → List Bytes
  | (workspace, .build ex targets executor) => workspace.core.outputs ex targets executor
  | _ => []

/-- What the builds of a run publish. -/
def published (steps : List (Workspace × WorkspaceCall σ)) : List Bytes := steps.flatMap outputs

theorem artifacts_step (workspace : Workspace) {call : WorkspaceCall σ} (hcall : call.KeepsStore) :
    (workspace.step call).core.artifacts =
      BuildRun.stored workspace.core.artifacts (outputs (workspace, call)) := by
  cases call with
  | artifacts store inMemory => exact hcall.elim
  | build ex targets executor =>
    exact (workspace.core.build_stores ex targets executor).1
  | fileEvent relative path kind =>
    rw [step, fileEvent]
    rcases workspace.pathPolicy.normalize relative path with (status | normalized) | _
    all_goals rfl
  | putNode name action => rfl
  | putEdge fromNode toNode kind => rfl
  | addCredit streamId credit => rfl
  | publish streamId event => rfl
  | drain streamId => rfl
  | advance delta => rfl
  | write path bytes => rfl
  | erase path => rfl

theorem artifacts_foldl {calls : List (WorkspaceCall σ)} (hcalls : ∀ call ∈ calls, call.KeepsStore) :
    ∀ start : Workspace, (calls.foldl step start).core.artifacts =
      BuildRun.stored start.core.artifacts (published (Runs.trace step start calls)) := by
  induction calls with
  | nil => exact fun start => rfl
  | cons call calls ih =>
    intro start
    obtain ⟨hcall, hcalls⟩ := List.forall_mem_cons.mp hcalls
    rw [List.foldl_cons, ih hcalls, artifacts_step start hcall, ← BuildRun.stored_append]
    rfl

/-- **What a workspace has published.** Behind a run without `artifacts()`, an object is what the run
published last under its key, without leases, or was there before; and every artifact that a build of the run
announced is one that it published, and can be read. -/
theorem artifacts_run (start : Workspace) (calls : List (WorkspaceCall σ))
    (hcalls : ∀ call ∈ calls, call.KeepsStore) :
    let steps := Runs.trace step start calls
    let store := (calls.foldl step start).core.artifacts
    (∀ key, store.objects[key]? =
      (((published steps).filter fun bytes => (objectOf bytes).key = key).getLast?.map objectOf).or
        start.core.artifacts.objects[key]?) ∧
      ∀ workspace ex targets executor outcome, (workspace, .build ex targets executor) ∈ steps →
        (workspace.core.build ex targets executor).1 = .value (.ok outcome) →
        outcome.artifacts =
            (workspace.core.outputs ex targets executor).map (fun bytes => (objectOf bytes).key) ∧
          ∀ key ∈ outcome.artifacts, ∀ openFile, ∃ bytes ∈ published steps,
            (objectOf bytes).key = key ∧ store.read openFile key = .ok bytes := by
  intro steps store
  have hobjects (key : ArtifactKey) : store.objects[key]? =
      (((published steps).filter fun bytes => (objectOf bytes).key = key).getLast?.map objectOf).or
        start.core.artifacts.objects[key]? := by
    rw [show store = _ from artifacts_foldl hcalls start, BuildRun.stored_objects start.core.inMemory]
    exact ExtTreeMap.getElem?_foldl_insert (fun bytes => (objectOf bytes).key) objectOf _
  refine ⟨hobjects, fun workspace ex targets executor outcome hstep hbuild => ?_⟩
  have hkeys := (workspace.core.build_stores ex targets executor).2 outcome hbuild
  refine ⟨hkeys, fun key hkey openFile => ?_⟩
  rw [hkeys] at hkey
  obtain ⟨first, hfirst, hfirstKey⟩ := List.mem_map.mp hkey
  have hmem : first ∈ (published steps).filter fun bytes => (objectOf bytes).key = key :=
    List.mem_filter.mpr ⟨List.mem_flatMap.mpr ⟨_, hstep, hfirst⟩, by simpa using hfirstKey⟩
  obtain ⟨bytes, hlast⟩ := Option.ne_none_iff_exists'.mp
    (mt List.getLast?_eq_none_iff.mp (List.ne_nil_of_mem hmem))
  obtain ⟨hpublished, hbytesKey⟩ := List.mem_filter.mp (List.mem_of_getLast? hlast)
  refine ⟨bytes, hpublished, by simpa using hbytesKey, ?_⟩
  rw [ArtifactStore.read, hobjects, hlast, Option.map_some, Option.some_or, Option.filter_some,
    if_pos (show (objectOf bytes).durable = true from rfl)]
  rfl

/-- What is announced in the first of two builds is there behind the second. -/
theorem artifacts_run_twins :
    let build := WorkspaceCall.build DeterministicMockExecutor.executor [⟨2⟩, ⟨3⟩] {}
    ∃ outcome, (twinWorkspace.build DeterministicMockExecutor.executor [⟨2⟩, ⟨3⟩] {}).1 = .value (.ok outcome) ∧
      outcome.artifacts.length = 2 ∧ ∀ key ∈ outcome.artifacts, ∃ bytes,
        ([build, build].foldl step
          { core := twinWorkspace, pathPolicy := ⟨"/w"⟩ }).core.artifacts.read false key = .ok bytes := by
  intro build
  let outputs := twinWorkspace.outputs DeterministicMockExecutor.executor [⟨2⟩, ⟨3⟩] {}
  have hbuild : (twinWorkspace.build DeterministicMockExecutor.executor [⟨2⟩, ⟨3⟩] {}).1 = .value (.ok
      { request := ⟨1⟩
        events := [⟨.running, "running lib", false, 16⟩, ⟨.succeeded, "succeeded lib", true, 16⟩,
          ⟨.running, "running app", false, 16⟩, ⟨.succeeded, "succeeded app", true, 16⟩, queuedEvent]
        artifacts := outputs.map fun bytes => (objectOf bytes).key }) := by
    decide +kernel
  have hcalls : ∀ call ∈ [build, build], call.KeepsStore := by simp [build, WorkspaceCall.KeepsStore]
  obtain ⟨-, hread⟩ := (artifacts_run { core := twinWorkspace, pathPolicy := ⟨"/w"⟩ } [build, build] hcalls).2
    _ _ _ _ _ List.mem_cons_self hbuild
  refine ⟨_, hbuild, ?_, fun key hkey => (hread key hkey false).imp fun bytes h => h.2.2⟩
  rw [List.length_map]
  decide +kernel

end Workspace

end Forge
