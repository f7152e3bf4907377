import Forge.Artifact.ArtifactStore
import Forge.Event.EventHub
import Forge.Execute.ExecutorManager
import Forge.Graph.Invalidation
import Forge.Workspace.PlanOrder

/-!
# Builds

`WorkspaceCore::build` of `workspace.cpp`. It walks the plan and runs one job for each distinct action
key, each under a lease of its own; a node whose key has a job already is attached to it. The loop ends
with the first error of the executor or the first answer under another lease.

A recorded run also keeps the calls of the executor. `turns` cuts it into what each node of the plan
adds, and `build_turns` says that these are the calls and the events of the build.
-/

namespace Forge

open Std (ExtTreeMap)

structure BuildOutcome where
  request : RequestId
  events : List BuildEvent := []
  artifacts : List ArtifactKey := []
deriving DecidableEq

/-- The members `build` uses; the constructor gives the artifact store no root. -/
structure WorkspaceCore where
  graph : BuildGraph := {}
  artifacts : ArtifactStore := {}
  eventHub : EventHub := {}
  nextRequest : UInt64 := 1
  nextJob : UInt64 := 1
  inMemory : artifacts.root = none := by rfl

/-- The variables of the loop of `build` and the members it changes. -/
structure BuildRun (σ : Type) where
  outcome : BuildOutcome
  manager : ExecutorManager σ
  activeByKey : ExtTreeMap Str JobId := ∅
  nextJob : UInt64
  artifacts : ArtifactStore
  inMemory : artifacts.root = none

/-- A call of `executor.run` and its answer. -/
structure Call where
  lease : WorkerLease
  spec : JobSpec
  answer : Result WorkerResult

namespace Call

/-- The answer is a result under the lease and attempt of the call. -/
def Current (call : Call) : Prop :=
  ∃ result, call.answer = .ok result ∧ result.lease = call.lease.id ∧ result.attempt = call.lease.attempt

/-- The answer is such a result, and one that reports success. -/
def Successful (call : Call) : Prop :=
  ∃ result, call.answer = .ok result ∧ result.lease = call.lease.id ∧
    result.attempt = call.lease.attempt ∧ result.success = true

instance (call : Call) : Decidable call.Current :=
  match h : call.answer with
  | .error _ => .isFalse fun ⟨_, hanswer, _⟩ => by rw [h] at hanswer; cases hanswer
  | .ok result =>
    decidable_of_iff (result.lease = call.lease.id ∧ result.attempt = call.lease.attempt)
      (by simp [Current, h])

instance (call : Call) : Decidable call.Successful :=
  match h : call.answer with
  | .error _ => .isFalse fun ⟨_, hanswer, _⟩ => by rw [h] at hanswer; cases hanswer
  | .ok result =>
    decidable_of_iff (result.lease = call.lease.id ∧ result.attempt = call.lease.attempt ∧
      result.success = true) (by simp [Successful, h])

end Call

/-- How a turn leaves the loop: `return outcome`, `return` of a status, or an exception. -/
abbrev Leave := Return Unit

/-! ## The events of a build -/

def queuedEvent : BuildEvent := ⟨.queued, "attached duplicate job", false, 24⟩
def runningEvent (node : BuildNode) : BuildEvent := ⟨.running, "running " ++ node.name, false, 16⟩
def failedEvent (status : Status) : BuildEvent := ⟨.failed, status.message, true, 16⟩
def succeededEvent (node : BuildNode) : BuildEvent := ⟨.succeeded, "succeeded " ++ node.name, true, 16⟩

/-! ## The loop -/

namespace BuildRun

variable {σ : Type}

/-- `outcome.events.push_back`. -/
def emit (run : BuildRun σ) (event : BuildEvent) : BuildRun σ :=
  { run with outcome := { run.outcome with events := run.outcome.events ++ [event] } }

def fail (run : BuildRun σ) (status : Status) : BuildRun σ × Option Leave :=
  (run.emit (failedEvent status), some (.value (.ok ())))

/-- The loop over the artifacts of a result. -/
def publishAll (run : BuildRun σ) : List Bytes → BuildRun σ × Option Leave
  | [] => (run, none)
  | artifactBytes :: rest =>
    let writer := ({} : ArtifactWriter).append artifactBytes
    let published := run.artifacts.publish {} writer
    let run := { run with
      artifacts := published.2
      inMemory := by
        simp only [published, ArtifactStore.publish_of_root_none run.inMemory]
        exact run.inMemory }
    match published.1 with
    | .value (.ok key) =>
      publishAll
        { run with outcome := { run.outcome with artifacts := run.outcome.artifacts ++ [key] } } rest
    | .value (.error status) => run.fail status
    | .threw => (run, some .threw)

/-- The part of a turn behind the answer of the executor. -/
def settle (run : BuildRun σ) (node : BuildNode) (lease : WorkerLease) :
    Result WorkerResult → BuildRun σ × Option Leave
  | .error status => run.fail status
  | .ok result =>
    match run.manager.validateCurrent lease result with
    | .error status => run.fail status
    | .ok () =>
      match run.publishAll result.artifacts with
      | (run, some leave) => (run, some leave)
      | (run, none) => (run.emit (succeededEvent node), none)

/-- A job of its own for the node: the call of the executor, and the run behind it. -/
def dispatch (ex : Executor σ) (run : BuildRun σ) (nodeId : NodeId) (node : BuildNode) :
    Call × BuildRun σ :=
  let key := actionKeyFor node [] []
  let job : JobId := ⟨run.nextJob⟩
  let (lease, manager) := run.manager.lease job
  let spec : JobSpec := { job, node := nodeId, nodeGeneration := node.generation, actionKey := key }
  let run := { run with
    nextJob := run.nextJob + 1
    activeByKey := run.activeByKey.insert key.hex job
    manager }
  let run := run.emit (runningEvent node)
  let (answer, manager) := run.manager.run ex lease spec
  (⟨lease, spec, answer⟩, { run with manager })

/-- One turn of the loop over the plan. -/
def buildNode (ex : Executor σ) (graph : BuildGraph) (run : BuildRun σ) (nodeId : NodeId) :
    BuildRun σ × Option Leave :=
  match graph.nodes[nodeId]? with
  | none => (run, some (.value (.error (Status.error .graphConflict "workspace" "target missing"))))
  | some node =>
    match run.activeByKey[(actionKeyFor node [] []).hex]? with
    | some _ => (run.emit queuedEvent, none)
    | none =>
      let (call, run) := run.dispatch ex nodeId node
      run.settle node call.lease call.answer

def buildLoop (ex : Executor σ) (graph : BuildGraph) (run : BuildRun σ) :
    List NodeId → BuildRun σ × Option Leave
  | [] => (run, none)
  | nodeId :: rest =>
    match run.buildNode ex graph nodeId with
    | (run, some leave) => (run, some leave)
    | (run, none) => buildLoop ex graph run rest

/-- What `build` returns behind the loop. -/
def result (run : BuildRun σ) : Option Leave → Return BuildOutcome
  | none | some (.value (.ok ())) => .value (.ok run.outcome)
  | some (.value (.error status)) => .value (.error status)
  | some .threw => .threw

/-- The workspace with the members the loop changed. -/
def store (run : BuildRun σ) (workspace : WorkspaceCore) : WorkspaceCore :=
  { workspace with nextJob := run.nextJob, artifacts := run.artifacts, inMemory := run.inMemory }

end BuildRun

namespace WorkspaceCore

variable {σ : Type}

/-- The part of `build` before the loop: the plan and the variables the loop starts with, or the status
that is returned at once. -/
def prepare (workspace : WorkspaceCore) (targets : List NodeId) (executor : σ) :
    Result (List NodeId × BuildRun σ) × WorkspaceCore :=
  match workspace.graph.cycleWitness with
  | some _ => (.error (Status.error .cycle "workspace" "graph contains prohibited cycle"), workspace)
  | none =>
    match planOrder workspace.graph targets with
    | .error status => (.error status, workspace)
    | .ok order =>
      let request : RequestId := ⟨workspace.nextRequest⟩
      let workspace := { workspace with nextRequest := workspace.nextRequest + 1 }
      match workspace.eventHub.openStream request.value.toUInt32 (1024 * 1024) with
      | (.error status, eventHub) => (.error status, { workspace with eventHub })
      | (.ok (), eventHub) =>
        (.ok (order, {
          outcome := { request }
          manager := { executor }
          nextJob := workspace.nextJob
          artifacts := workspace.artifacts
          inMemory := workspace.inMemory }), { workspace with eventHub })

def build (workspace : WorkspaceCore) (ex : Executor σ) (targets : List NodeId) (executor : σ) :
    Return BuildOutcome × WorkspaceCore × σ :=
  match workspace.prepare targets executor with
  | (.error status, workspace) => (.value (.error status), workspace, executor)
  | (.ok (order, run), workspace) =>
    let (run, leave) := run.buildLoop ex workspace.graph order
    (run.result leave, run.store workspace, run.manager.executor)

end WorkspaceCore

/-! ## What an executor is asked -/

/-- The executor with a record of its calls. -/
def Executor.logged {σ : Type} (ex : Executor σ) : Executor (σ × List Call) where
  run executor lease spec :=
    let (answer, next) := ex.run executor.1 lease spec
    (answer, next, executor.2 ++ [⟨lease, spec, answer⟩])
  cancel executor lease := (ex.cancel executor.1 lease, executor.2)

/-- What a turn of the loop adds: the job its node has then, the calls and the events. -/
structure BuildTurn where
  node : NodeId
  job : Option JobId
  calls : List Call
  events : List BuildEvent

namespace BuildRun

variable {σ : Type}

/-- The calls recorded so far. -/
def calls (run : BuildRun (σ × List Call)) : List Call := run.manager.executor.2

def turn (ex : Executor σ) (graph : BuildGraph) (run : BuildRun (σ × List Call)) (nodeId : NodeId) :
    BuildTurn :=
  let after := (run.buildNode ex.logged graph nodeId).1
  { node := nodeId
    job := graph.nodes[nodeId]?.bind fun node => after.activeByKey[(actionKeyFor node [] []).hex]?
    calls := after.calls.drop run.calls.length
    events := after.outcome.events.drop run.outcome.events.length }

/-- The turns of the loop. -/
def turns (ex : Executor σ) (graph : BuildGraph) (run : BuildRun (σ × List Call)) :
    List NodeId → List BuildTurn
  | [] => []
  | nodeId :: rest =>
    run.turn ex graph nodeId ::
      match run.buildNode ex.logged graph nodeId with
      | (_, some _) => []
      | (run, none) => turns ex graph run rest

end BuildRun

/-- The turns of a build; none if it ends before the loop. -/
def WorkspaceCore.buildTurns {σ : Type} (workspace : WorkspaceCore) (ex : Executor σ)
    (targets : List NodeId) (executor : σ) : List BuildTurn :=
  match (workspace.prepare targets (executor, ([] : List Call))).1 with
  | .error _ => []
  | .ok (order, run) => run.turns ex workspace.graph order

/-! ## One turn -/

namespace ExecutorManager

variable {σ : Type}

theorem validateCurrent_lease_iff (manager : ExecutorManager σ) (job : JobId) (executor : σ)
    (result : WorkerResult) :
    let lease := (manager.lease job).1
    { (manager.lease job).2 with executor }.validateCurrent lease result = .ok () ↔
      result.lease = lease.id ∧ result.attempt = lease.attempt := by
  intro lease
  by_cases hnames : result.lease = lease.id ∧ result.attempt = lease.attempt
  · rw [validateCurrent_ok_iff _ hnames.1 hnames.2]
    simp [hnames, lease, ExecutorManager.lease]
  · refine iff_of_false (fun hok => ?_) hnames
    rw [validateCurrent, if_pos] at hok
    · cases hok
    · by_contra hall
      exact hnames (by tauto)

theorem run_lease (ex : Executor σ) (manager : ExecutorManager σ) (job : JobId) (spec : JobSpec) :
    (manager.lease job).2.run ex (manager.lease job).1 spec =
      ((ex.run manager.executor (manager.lease job).1 spec).1,
        { (manager.lease job).2 with executor := (ex.run manager.executor (manager.lease job).1 spec).2 }) := by
  have hvalid := (validateCurrent_lease_iff manager job manager.executor
    { lease := (manager.lease job).1.id, attempt := (manager.lease job).1.attempt }).mpr ⟨rfl, rfl⟩
  rw [run]
  rw [show (manager.lease job).2 = { (manager.lease job).2 with executor := manager.executor } from rfl,
    hvalid]

end ExecutorManager

namespace BuildRun

variable {σ : Type}

/-- The store behind the loop over the artifacts of a result. -/
def stored (store : ArtifactStore) (artifacts : List Bytes) : ArtifactStore :=
  artifacts.foldl (fun store bytes => (store.publish {} (({} : ArtifactWriter).append bytes)).2) store

theorem stored_root {store : ArtifactStore} (hroot : store.root = none) (artifacts : List Bytes) :
    (stored store artifacts).root = none := by
  induction artifacts generalizing store with
  | nil => exact hroot
  | cons bytes rest ih =>
    refine ih ?_
    simp only [ArtifactStore.publish_of_root_none hroot]
    exact hroot

/-- The run behind that loop, which in memory cannot fail. -/
def published (run : BuildRun σ) (artifacts : List Bytes) : BuildRun σ :=
  { run with
    outcome := { run.outcome with artifacts :=
      run.outcome.artifacts ++ artifacts.map fun bytes => (({} : ArtifactWriter).append bytes).key }
    artifacts := stored run.artifacts artifacts
    inMemory := stored_root run.inMemory artifacts }

theorem publishAll_eq (run : BuildRun σ) (artifacts : List Bytes) :
    run.publishAll artifacts = (run.published artifacts, none) := by
  induction artifacts generalizing run with
  | nil => simp [publishAll, published, stored]
  | cons bytes rest ih =>
    simp only [publishAll, ArtifactStore.publish_of_root_none run.inMemory, ih]
    simp [published, stored, ArtifactStore.publish_of_root_none run.inMemory]

section Turn

variable (ex : Executor σ) (graph : BuildGraph) (run : BuildRun σ) {nodeId : NodeId}
  {node : BuildNode}

theorem dispatch_eq (nodeId : NodeId) (node : BuildNode) :
    let key := actionKeyFor node [] []
    let lease := (run.manager.lease ⟨run.nextJob⟩).1
    let spec : JobSpec :=
      { job := ⟨run.nextJob⟩, node := nodeId, nodeGeneration := node.generation, actionKey := key }
    let (answer, executor) := ex.run run.manager.executor lease spec
    run.dispatch ex nodeId node = (⟨lease, spec, answer⟩,
      { run.emit (runningEvent node) with
        nextJob := run.nextJob + 1
        activeByKey := run.activeByKey.insert key.hex ⟨run.nextJob⟩
        manager := { (run.manager.lease ⟨run.nextJob⟩).2 with executor } }) := by
  intro key lease spec
  simp only [dispatch, emit]
  rw [ExecutorManager.run_lease]

theorem buildNode_attached (hnode : graph.nodes[nodeId]? = some node) {job : JobId}
    (hactive : run.activeByKey[(actionKeyFor node [] []).hex]? = some job) :
    run.buildNode ex graph nodeId = (run.emit queuedEvent, none) := by
  simp only [buildNode, hnode, hactive]

theorem buildNode_dispatch (hnode : graph.nodes[nodeId]? = some node)
    (hactive : run.activeByKey[(actionKeyFor node [] []).hex]? = none) :
    run.buildNode ex graph nodeId =
      (run.dispatch ex nodeId node).2.settle node (run.dispatch ex nodeId node).1.lease
        (run.dispatch ex nodeId node).1.answer := by
  simp only [buildNode, hnode, hactive]

theorem settle_of_current {result : WorkerResult}
    (hanswer : (run.dispatch ex nodeId node).1.answer = .ok result)
    (hlease : result.lease = (run.dispatch ex nodeId node).1.lease.id)
    (hattempt : result.attempt = (run.dispatch ex nodeId node).1.lease.attempt) :
    (run.dispatch ex nodeId node).2.settle node (run.dispatch ex nodeId node).1.lease
        (run.dispatch ex nodeId node).1.answer =
      (((run.dispatch ex nodeId node).2.published result.artifacts).emit
        (succeededEvent node), none) := by
  have hvalid : (run.dispatch ex nodeId node).2.manager.validateCurrent
      (run.dispatch ex nodeId node).1.lease result = .ok () := by
    rw [dispatch_eq] at hlease hattempt ⊢
    exact (ExecutorManager.validateCurrent_lease_iff _ _ _ _).mpr ⟨hlease, hattempt⟩
  rw [hanswer, settle, hvalid]
  simp only [publishAll_eq]

theorem settle_of_not_current (hanswer : ¬ (run.dispatch ex nodeId node).1.Current) :
    ∃ status, (run.dispatch ex nodeId node).2.settle node (run.dispatch ex nodeId node).1.lease
        (run.dispatch ex nodeId node).1.answer = (run.dispatch ex nodeId node).2.fail status := by
  cases hresult : (run.dispatch ex nodeId node).1.answer with
  | error status => exact ⟨status, rfl⟩
  | ok result =>
    rw [settle]
    cases hvalid : (run.dispatch ex nodeId node).2.manager.validateCurrent
        (run.dispatch ex nodeId node).1.lease result with
    | error status => exact ⟨status, rfl⟩
    | ok _ =>
      refine absurd ⟨result, hresult, ?_⟩ hanswer
      rw [dispatch_eq] at hvalid ⊢
      exact (ExecutorManager.validateCurrent_lease_iff _ _ _ _).mp hvalid

end Turn

/-! ## The turns of a recorded run -/

section Turns

variable (ex : Executor σ) (graph : BuildGraph) (run : BuildRun (σ × List Call)) {nodeId : NodeId}
  {node : BuildNode}

/-- The call a turn makes that dispatches a job. -/
def nextCall (nodeId : NodeId) (node : BuildNode) : Call := (run.dispatch ex.logged nodeId node).1

/-- The run behind that call. -/
def afterCall (nodeId : NodeId) (node : BuildNode) : BuildRun (σ × List Call) :=
  (run.dispatch ex.logged nodeId node).2

theorem calls_afterCall (nodeId : NodeId) (node : BuildNode) :
    (run.afterCall ex nodeId node).calls = run.calls ++ [run.nextCall ex nodeId node] := by
  rw [afterCall, nextCall, dispatch_eq]
  rfl

theorem events_afterCall (nodeId : NodeId) (node : BuildNode) :
    (run.afterCall ex nodeId node).outcome.events =
      run.outcome.events ++ [runningEvent node] := by
  rw [afterCall, dispatch_eq]
  rfl

theorem activeByKey_afterCall (nodeId : NodeId) (node : BuildNode) :
    (run.afterCall ex nodeId node).activeByKey =
      run.activeByKey.insert (actionKeyFor node [] []).hex ⟨run.nextJob⟩ := by
  rw [afterCall, dispatch_eq]

theorem turns_attached (hnode : graph.nodes[nodeId]? = some node) {job : JobId}
    (hactive : run.activeByKey[(actionKeyFor node [] []).hex]? = some job) (rest : List NodeId) :
    run.turns ex graph (nodeId :: rest) =
      ⟨nodeId, some job, [], [queuedEvent]⟩ ::
        (run.emit queuedEvent).turns ex graph rest := by
  have hturn := buildNode_attached ex.logged graph run hnode hactive
  rw [turns, turn, hturn]
  simp [hnode, hactive, emit, calls]

theorem turns_current (hnode : graph.nodes[nodeId]? = some node)
    (hactive : run.activeByKey[(actionKeyFor node [] []).hex]? = none) {result : WorkerResult}
    (hanswer : (run.nextCall ex nodeId node).answer = .ok result)
    (hlease : result.lease = (run.nextCall ex nodeId node).lease.id)
    (hattempt : result.attempt = (run.nextCall ex nodeId node).lease.attempt) (rest : List NodeId) :
    run.turns ex graph (nodeId :: rest) =
      ⟨nodeId, some ⟨run.nextJob⟩, [run.nextCall ex nodeId node],
        [(runningEvent node),
          (succeededEvent node)]⟩ ::
        (((run.afterCall ex nodeId node).published result.artifacts).emit
          (succeededEvent node)).turns ex graph rest := by
  have hturn := (buildNode_dispatch ex.logged graph run hnode hactive).trans
    (settle_of_current ex.logged run hanswer hlease hattempt)
  have hcalls := calls_afterCall ex run nodeId node
  have hevents := events_afterCall ex run nodeId node
  have hkeys := activeByKey_afterCall ex run nodeId node
  rw [← afterCall] at hturn
  rw [turns, turn, hturn]
  simp only [calls] at hcalls
  simp [hnode, emit, published, calls, hcalls, hevents, hkeys]

theorem turns_not_current (hnode : graph.nodes[nodeId]? = some node)
    (hactive : run.activeByKey[(actionKeyFor node [] []).hex]? = none)
    (hanswer : ¬ (run.nextCall ex nodeId node).Current) (rest : List NodeId) :
    ∃ status, run.turns ex graph (nodeId :: rest) =
      [⟨nodeId, some ⟨run.nextJob⟩, [run.nextCall ex nodeId node],
        [runningEvent node, failedEvent status]⟩] := by
  obtain ⟨status, hfail⟩ := settle_of_not_current ex.logged run hanswer
  have hturn := (buildNode_dispatch ex.logged graph run hnode hactive).trans hfail
  have hcalls := calls_afterCall ex run nodeId node
  have hevents := events_afterCall ex run nodeId node
  have hkeys := activeByKey_afterCall ex run nodeId node
  rw [← afterCall] at hturn
  refine ⟨status, ?_⟩
  rw [turns, turn, hturn]
  simp only [calls] at hcalls
  simp [hnode, fail, emit, calls, hcalls, hevents, hkeys]

end Turns

end BuildRun

/-! ## The recorded run and the run -/

namespace BuildRun

variable {σ : Type} (ex : Executor σ) (graph : BuildGraph)

/-- The run without its record. -/
def forget (run : BuildRun (σ × List Call)) : BuildRun σ :=
  { run with manager := { run.manager with executor := run.manager.executor.1 } }

theorem settle_forget (run : BuildRun (σ × List Call)) (node : BuildNode) (lease : WorkerLease)
    (answer : Result WorkerResult) :
    run.forget.settle node lease answer =
      ((run.settle node lease answer).1.forget, (run.settle node lease answer).2) := by
  cases answer with
  | error status => rfl
  | ok result =>
    have hsame : run.forget.manager.validateCurrent lease result = run.manager.validateCurrent lease result :=
      rfl
    rw [settle, settle, hsame]
    cases run.manager.validateCurrent lease result with
    | error status => rfl
    | ok _ =>
      simp only [publishAll_eq]
      rfl

theorem buildNode_forget (run : BuildRun (σ × List Call)) (nodeId : NodeId) :
    run.forget.buildNode ex graph nodeId =
      ((run.buildNode ex.logged graph nodeId).1.forget, (run.buildNode ex.logged graph nodeId).2) := by
  cases hnode : graph.nodes[nodeId]? with
  | none => simp only [buildNode, hnode]
  | some node =>
    cases hactive : run.activeByKey[(actionKeyFor node [] []).hex]? with
    | some job =>
      rw [buildNode_attached ex graph run.forget hnode hactive,
        buildNode_attached ex.logged graph run hnode hactive]
      rfl
    | none =>
      have hcall : (run.forget.dispatch ex nodeId node).1 = (run.dispatch ex.logged nodeId node).1 := by
        rw [dispatch_eq, dispatch_eq]
        rfl
      have hrun : (run.forget.dispatch ex nodeId node).2 = (run.dispatch ex.logged nodeId node).2.forget := by
        rw [dispatch_eq, dispatch_eq]
        rfl
      rw [buildNode_dispatch ex graph run.forget hnode hactive,
        buildNode_dispatch ex.logged graph run hnode hactive, hcall, hrun, settle_forget]

theorem buildLoop_forget (order : List NodeId) (run : BuildRun (σ × List Call)) :
    run.forget.buildLoop ex graph order =
      ((run.buildLoop ex.logged graph order).1.forget, (run.buildLoop ex.logged graph order).2) := by
  induction order generalizing run with
  | nil => rfl
  | cons nodeId rest ih =>
    rw [buildLoop, buildLoop, buildNode_forget]
    rcases run.buildNode ex.logged graph nodeId with ⟨run', none | leave⟩
    · exact ih run'
    · rfl

theorem buildNode_grows (run : BuildRun (σ × List Call)) (nodeId : NodeId) :
    run.calls <+: (run.buildNode ex.logged graph nodeId).1.calls ∧
      run.outcome.events <+: (run.buildNode ex.logged graph nodeId).1.outcome.events := by
  cases hnode : graph.nodes[nodeId]? with
  | none =>
    simp only [buildNode, hnode]
    exact ⟨⟨[], List.append_nil _⟩, ⟨[], List.append_nil _⟩⟩
  | some node =>
    cases hactive : run.activeByKey[(actionKeyFor node [] []).hex]? with
    | some job =>
      rw [buildNode_attached ex.logged graph run hnode hactive]
      exact ⟨⟨[], List.append_nil _⟩, ⟨[queuedEvent], rfl⟩⟩
    | none =>
      have hcalls := calls_afterCall ex run nodeId node
      have hevents := events_afterCall ex run nodeId node
      rw [buildNode_dispatch ex.logged graph run hnode hactive]
      by_cases hcurrent : (run.nextCall ex nodeId node).Current
      · obtain ⟨result, hanswer, hlease, hattempt⟩ := hcurrent
        rw [settle_of_current ex.logged run hanswer hlease hattempt]
        refine ⟨⟨_, hcalls.symm⟩, ⟨[runningEvent node, succeededEvent node], ?_⟩⟩
        show _ = (run.afterCall ex nodeId node).outcome.events ++ [succeededEvent node]
        rw [hevents, List.append_assoc]
        rfl
      · obtain ⟨status, hfail⟩ := settle_of_not_current ex.logged run hcurrent
        rw [hfail]
        refine ⟨⟨_, hcalls.symm⟩, ⟨[runningEvent node, failedEvent status], ?_⟩⟩
        show _ = (run.afterCall ex nodeId node).outcome.events ++ [failedEvent status]
        rw [hevents, List.append_assoc]
        rfl

theorem buildLoop_turns (order : List NodeId) (run : BuildRun (σ × List Call)) :
    (run.buildLoop ex.logged graph order).1.calls =
        run.calls ++ (run.turns ex graph order).flatMap BuildTurn.calls ∧
      (run.buildLoop ex.logged graph order).1.outcome.events =
        run.outcome.events ++ (run.turns ex graph order).flatMap BuildTurn.events := by
  induction order generalizing run with
  | nil => simp [buildLoop, turns]
  | cons nodeId rest ih =>
    obtain ⟨hcalls, hevents⟩ := buildNode_grows ex graph run nodeId
    rw [List.prefix_iff_eq_append] at hcalls hevents
    rw [buildLoop, turns, List.flatMap_cons, List.flatMap_cons]
    simp only [turn]
    rcases hturn : run.buildNode ex.logged graph nodeId with ⟨run', none | leave⟩
    · rw [hturn] at hcalls hevents
      obtain ⟨hcalls', hevents'⟩ := ih run'
      simp only at hcalls hevents ⊢
      rw [hcalls', hevents', ← List.append_assoc, ← List.append_assoc, hcalls, hevents]
      exact ⟨rfl, rfl⟩
    · rw [hturn] at hcalls hevents
      simp only [List.flatMap_nil, List.append_nil] at hcalls hevents ⊢
      exact ⟨hcalls.symm, hevents.symm⟩

end BuildRun

/-! ## The whole build -/

namespace WorkspaceCore

variable {σ : Type}

/-- The loop of `build` is reached, with the plan `order`. -/
structure Reaches (workspace : WorkspaceCore) (targets order : List NodeId) : Prop where
  acyclic : workspace.graph.cycleWitness = none
  planned : planOrder workspace.graph targets = .ok order
  opened : workspace.nextRequest.toUInt32 ≠ 0 ∧ workspace.nextRequest.toUInt32 ∉ workspace.eventHub.streams

/-- The variables the loop starts with. -/
def start (workspace : WorkspaceCore) (executor : σ) : BuildRun σ where
  outcome := { request := ⟨workspace.nextRequest⟩ }
  manager := { executor }
  nextJob := workspace.nextJob
  artifacts := workspace.artifacts
  inMemory := workspace.inMemory

theorem prepare_eq_ok_iff (workspace : WorkspaceCore) (targets : List NodeId) (executor : σ)
    (order : List NodeId) (run : BuildRun σ) :
    (workspace.prepare targets executor).1 = .ok (order, run) ↔
      workspace.Reaches targets order ∧ run = workspace.start executor := by
  constructor
  · intro h
    rw [prepare] at h
    cases hcycle : workspace.graph.cycleWitness with
    | some cycle => simp [hcycle] at h
    | none =>
      cases hplan : planOrder workspace.graph targets with
      | error status => simp [hcycle, hplan] at h
      | ok plan =>
        by_cases hstream : workspace.nextRequest.toUInt32 = 0 ∨
            workspace.nextRequest.toUInt32 ∈ workspace.eventHub.streams
        · simp [hcycle, hplan, EventHub.openStream, hstream] at h
        · simp only [hcycle, hplan, EventHub.openStream, hstream, if_false, Except.ok.injEq,
            Prod.mk.injEq] at h
          obtain ⟨rfl, rfl⟩ := h
          exact ⟨⟨hcycle, hplan, not_or.mp hstream⟩, rfl⟩
  · rintro ⟨⟨hcycle, hplan, hstream⟩, rfl⟩
    rw [← not_or] at hstream
    simp only [prepare, hcycle, hplan, EventHub.openStream, hstream, if_false]
    rfl

theorem prepare_graph (workspace : WorkspaceCore) (targets : List NodeId) (executor : σ) :
    (workspace.prepare targets executor).2.graph = workspace.graph := by
  rw [prepare]
  cases workspace.graph.cycleWitness with
  | some cycle => rfl
  | none =>
    cases planOrder workspace.graph targets with
    | error status => rfl
    | ok order =>
      simp only [EventHub.openStream]
      split_ifs <;> rfl

theorem prepare_forget (workspace : WorkspaceCore) (targets : List NodeId) (executor : σ)
    (calls : List Call) :
    workspace.prepare targets executor =
      ((workspace.prepare targets (executor, calls)).1.map fun plan => (plan.1, plan.2.forget),
        (workspace.prepare targets (executor, calls)).2) := by
  rw [prepare, prepare]
  cases workspace.graph.cycleWitness with
  | some cycle => rfl
  | none =>
    cases planOrder workspace.graph targets with
    | error status => rfl
    | ok order =>
      simp only [EventHub.openStream]
      split_ifs <;> rfl

theorem build_forget (workspace : WorkspaceCore) (ex : Executor σ) (targets : List NodeId) (executor : σ) :
    let recorded := workspace.build ex.logged targets (executor, [])
    workspace.build ex targets executor = (recorded.1, recorded.2.1, recorded.2.2.1) := by
  intro recorded
  simp only [recorded, build, workspace.prepare_forget targets executor []]
  rcases workspace.prepare targets (executor, ([] : List Call)) with ⟨status | ⟨order, run⟩, workspace'⟩
  · rfl
  · simp only [Except.map, BuildRun.buildLoop_forget]
    rcases run.buildLoop ex.logged workspace'.graph order with ⟨run', leave⟩
    rcases leave with _ | ⟨status | _⟩ | _ <;> rfl

/-- **The turns are what a build does**: the events of its outcome are theirs, and the calls it makes,
which recording does not change, are theirs too. -/
theorem build_turns (workspace : WorkspaceCore) (ex : Executor σ) (targets : List NodeId) (executor : σ) :
    let recorded := workspace.build ex.logged targets (executor, [])
    let turns := workspace.buildTurns ex targets executor
    (workspace.build ex targets executor).1 = recorded.1 ∧
      recorded.2.2.2 = turns.flatMap BuildTurn.calls ∧
      ∀ outcome, recorded.1 = .value (.ok outcome) → outcome.events = turns.flatMap BuildTurn.events := by
  intro recorded turns
  refine ⟨by rw [workspace.build_forget], ?_⟩
  have hgraph := workspace.prepare_graph targets (executor, ([] : List Call))
  have hok := workspace.prepare_eq_ok_iff targets (executor, ([] : List Call))
  simp only [recorded, turns, build, buildTurns]
  rcases hprepare : workspace.prepare targets (executor, ([] : List Call)) with
    ⟨status | ⟨order, run⟩, workspace'⟩
  · exact ⟨rfl, fun outcome h => by cases h⟩
  · rw [hprepare] at hgraph hok
    obtain ⟨_, hstart⟩ := (hok order run).mp rfl
    obtain ⟨hcalls, hevents⟩ := run.buildLoop_turns ex workspace.graph order
    have hcallsNil : run.calls = [] := by rw [hstart]; rfl
    have heventsNil : run.outcome.events = [] := by rw [hstart]; rfl
    rw [hcallsNil, List.nil_append] at hcalls
    rw [heventsNil, List.nil_append] at hevents
    simp only at hgraph
    simp only [hgraph]
    rcases hloop : run.buildLoop ex.logged workspace.graph order with ⟨run', leave⟩
    rw [hloop] at hcalls hevents
    rw [← hcalls, ← hevents]
    refine ⟨rfl, fun outcome h => ?_⟩
    rcases leave with _ | ⟨status | _⟩ | _ <;> cases h <;> rfl

theorem buildTurns_of_reaches {workspace : WorkspaceCore} {targets order : List NodeId}
    (h : workspace.Reaches targets order) (ex : Executor σ) (executor : σ) :
    workspace.buildTurns ex targets executor =
      (workspace.start (executor, ([] : List Call))).turns ex workspace.graph order := by
  rw [buildTurns, (workspace.prepare_eq_ok_iff targets (executor, []) order _).mpr ⟨h, rfl⟩]

theorem buildTurns_of_not_reaches {workspace : WorkspaceCore} {targets : List NodeId}
    (h : ¬ ∃ order, workspace.Reaches targets order) (ex : Executor σ) (executor : σ) :
    workspace.buildTurns ex targets executor = [] := by
  cases hprepare : (workspace.prepare targets (executor, ([] : List Call))).1 with
  | error status => rw [buildTurns, hprepare]
  | ok plan => exact absurd ⟨plan.1, ((workspace.prepare_eq_ok_iff ..).mp hprepare).1⟩ h

theorem Reaches.plansFor {workspace : WorkspaceCore} {targets order : List NodeId}
    (h : workspace.Reaches targets order) :
    (∀ v ∈ order, v ∈ workspace.graph.nodes) ∧ PlansFor workspace.graph targets order := by
  have htargets : ∀ t ∈ targets, t ∈ workspace.graph.nodes := by
    intro t ht
    by_contra hout
    obtain ⟨status, herror⟩ := planOrder_unknown ⟨t, ht, hout⟩
    rw [h.planned] at herror
    cases herror
  obtain ⟨order', horder, hplans⟩ :=
    planOrder_ok (BuildGraph.acyclic_of_cycleWitness_none h.acyclic) htargets
  obtain rfl : order = order' := Except.ok.inj (h.planned.symm.trans horder)
  refine ⟨fun v hv => ?_, hplans⟩
  obtain ⟨t, ht, hreach⟩ := (hplans.mem_iff v).mp hv
  rcases hreach.cases_tail with rfl | ⟨w, _, hdep⟩
  · exact htargets v ht
  · exact hdep.mem_nodes.2

end WorkspaceCore

end Forge
