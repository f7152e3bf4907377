import Forge.Workspace.Manifest
import Forge.Workspace.PathPolicy

/-!
# Runs of a workspace

A `WorkspaceCore` with all its members, `file_event` of `workspace.cpp`, and the runs that the public
members of the class allow as long as nobody opens streams through `events()`.

A build takes the lower half of its request id for the id of its event stream, and streams stay open. So
the streams of a run are those numbered up to the builds that got as far as opening one, and behind the
last 32-bit number no build opens its stream. `build_fails_only_unbuildable_iff` says which builds still
do.
-/

namespace Forge

open Std (ExtTreeMap)

/-- `core` has the members that `build` uses. -/
structure Workspace where
  core : WorkspaceCore := {}
  pathPolicy : PathPolicy
  clock : UInt64 := 0
  fs : ExtTreeMap Str Bytes := ∅
  coalescer : FileEventCoalescer := {}

/-- The calls on a workspace and on what its members hand out. `store` is what users of `artifacts()` leave
behind. -/
inductive WorkspaceCall (σ : Type)
  | putNode (name : Str) (action : ActionSpec)
  | putEdge (fromNode toNode : NodeId) (kind : EdgeKind)
  | fileEvent (relative : Str → Str → Option Str) (path : Str) (kind : FileEventKind)
  | build (ex : Executor σ) (targets : List NodeId) (executor : σ)
  | addCredit (streamId : UInt32) (credit : UInt64)
  | publish (streamId : UInt32) (event : BuildEvent)
  | drain (streamId : UInt32)
  | artifacts (store : ArtifactStore) (inMemory : store.root = none)
  | advance (delta : UInt64)
  | write (path : Str) (bytes : Bytes)
  | erase (path : Str)

namespace Workspace

variable {σ : Type}

def fingerprintPath (workspace : Workspace) (path : NormalizedPath) : Digest256 :=
  match workspace.fs[path.relative]? with
  | none => digestBytes "missing-input" []
  | some bytes => digestBytes "input" bytes

def fileEvent (workspace : Workspace) (relative : Str → Str → Option Str) (path : Str)
    (kind : FileEventKind) : Return Unit × Workspace :=
  match workspace.pathPolicy.normalize relative path with
  | .threw => (.threw, workspace)
  | .value (.error status) => (.value (.error status), workspace)
  | .value (.ok normalized) =>
    let (event, coalescer) := workspace.coalescer.push normalized kind workspace.clock
    let workspace := { workspace with coalescer, clock := workspace.clock + 5 }
    let fingerprint := workspace.fingerprintPath event.path
    let (completed, coalescer) := workspace.coalescer.complete event ⟨event.path, fingerprint, 0, {}⟩
    (.value completed, { workspace with coalescer })

/-- Through `events()`. -/
def useHub (workspace : Workspace) (eventHub : EventHub) : Workspace :=
  { workspace with core := { workspace.core with eventHub } }

def step (workspace : Workspace) : WorkspaceCall σ → Workspace
  | .putNode name action => { workspace with core := (workspace.core.putNode name action).2 }
  | .putEdge fromNode toNode kind => { workspace with core := (workspace.core.putEdge fromNode toNode kind).2 }
  | .fileEvent relative path kind => (workspace.fileEvent relative path kind).2
  | .build ex targets executor => { workspace with core := (workspace.core.build ex targets executor).2.1 }
  | .addCredit streamId credit => workspace.useHub (workspace.core.eventHub.addCredit streamId credit).2
  | .publish streamId event => workspace.useHub (workspace.core.eventHub.publish streamId event).2
  | .drain streamId => workspace.useHub (workspace.core.eventHub.drain streamId).2
  | .artifacts store inMemory => { workspace with core := { workspace.core with artifacts := store, inMemory } }
  | .advance delta => { workspace with clock := workspace.clock + delta }
  | .write path bytes => { workspace with fs := workspace.fs.insert path bytes }
  | .erase path => { workspace with fs := workspace.fs.erase path }

end Workspace

namespace WorkspaceCore

/-- The cycle search finds nothing and all targets are nodes. -/
def Buildable (workspace : WorkspaceCore) (targets : List NodeId) : Prop :=
  workspace.graph.cycleWitness = none ∧ ∀ target ∈ targets, target ∈ workspace.graph.nodes

instance (workspace : WorkspaceCore) (targets : List NodeId) : Decidable (workspace.Buildable targets) :=
  decidable_of_iff
    (workspace.graph.cycleWitness.isNone ∧ ∀ target ∈ targets, target ∈ workspace.graph.nodes)
    (by rw [Option.isNone_iff_eq_none]; rfl)

end WorkspaceCore

/-! ## One build -/

namespace BuildRun

variable {σ : Type} {ex : Executor σ} {graph : BuildGraph}

theorem buildNode_leaves (run : BuildRun σ) {nodeId : NodeId} (hnode : nodeId ∈ graph.nodes) :
    (run.buildNode ex graph nodeId).2 = none ∨
      (run.buildNode ex graph nodeId).2 = some (.value (.ok ())) := by
  obtain ⟨node, hnode⟩ := BuildGraph.exists_node hnode
  cases hactive : run.activeByKey[(actionKeyFor node [] []).hex]? with
  | some job =>
    rw [buildNode_attached ex graph run hnode hactive]
    exact .inl rfl
  | none =>
    rw [buildNode_dispatch ex graph run hnode hactive]
    by_cases hanswer : (run.dispatch ex nodeId node).1.Current
    · obtain ⟨result, hresult, hlease, hattempt⟩ := hanswer
      rw [settle_of_current ex run hresult hlease hattempt]
      exact .inl rfl
    · obtain ⟨status, hfail⟩ := settle_of_not_current ex run hanswer
      rw [hfail]
      exact .inr rfl

theorem buildLoop_leaves {order : List NodeId} (horder : ∀ v ∈ order, v ∈ graph.nodes) (run : BuildRun σ) :
    (run.buildLoop ex graph order).2 = none ∨ (run.buildLoop ex graph order).2 = some (.value (.ok ())) := by
  induction order generalizing run with
  | nil => exact .inl rfl
  | cons nodeId rest ih =>
    rw [buildLoop]
    rcases hturn : run.buildNode ex graph nodeId with ⟨next, leave⟩
    have hleaves := @buildNode_leaves σ ex graph run nodeId (horder nodeId List.mem_cons_self)
    rw [hturn] at hleaves
    rcases hleaves with rfl | rfl
    · exact ih (fun v hv => horder v (List.mem_cons_of_mem nodeId hv)) next
    · exact .inr rfl

end BuildRun

theorem planOrder_error {graph : BuildGraph} {targets : List NodeId} {status : Status}
    (h : planOrder graph targets = .error status) :
    status = Status.error .graphConflict "workspace" "unknown target" := by
  have htargets : ∀ fuel plan, planTargets graph.snapshot fuel targets plan = some (.error status) →
      status = Status.error .graphConflict "workspace" "unknown target" := by
    intro fuel
    clear h
    induction targets with
    | nil => intro plan h; cases h
    | cons target rest ih =>
      intro plan h
      rw [planTargets] at h
      split at h
      · split at h
        · next next _ => exact ih next h
        · cases h
      · cases h
        rfl
  rw [planOrder] at h
  split at h
  · next result hresult =>
    cases result with
    | error found =>
      obtain rfl : found = status := Except.error.inj h
      exact htargets _ _ hresult
    | ok plan => cases h
  · cases h

namespace WorkspaceCore

variable {σ : Type}

/-- There is a cycle, or a target that is no node. -/
def Unbuildable (workspace : WorkspaceCore) (targets : List NodeId) : Prop :=
  (∃ v, Relation.TransGen workspace.graph.DependsOn v v) ∨ ∃ target ∈ targets, target ∉ workspace.graph.nodes

theorem buildable_iff (workspace : WorkspaceCore) (targets : List NodeId) :
    workspace.Buildable targets ↔ ¬ workspace.Unbuildable targets := by
  have hcycle : workspace.graph.cycleWitness = none ↔
      ¬ ∃ v, Relation.TransGen workspace.graph.DependsOn v v := by
    rw [not_exists]
    exact workspace.graph.cycleWitness_eq_none_iff
  rw [Unbuildable, Buildable, not_or, hcycle]
  simp only [not_exists, not_and, not_not]

theorem prepare_snd (workspace : WorkspaceCore) (targets : List NodeId) (executor : σ) :
    (workspace.prepare targets executor).2 =
      if workspace.Buildable targets then
        { workspace with
          nextRequest := workspace.nextRequest + 1
          eventHub := (workspace.eventHub.openStream workspace.nextRequest.toUInt32 (1024 * 1024)).2 }
      else workspace := by
  rw [prepare]
  by_cases hcycle : workspace.graph.cycleWitness = none
  · by_cases htargets : ∀ target ∈ targets, target ∈ workspace.graph.nodes
    · obtain ⟨order, horder, _⟩ := planOrder_ok (BuildGraph.acyclic_of_cycleWitness_none hcycle) htargets
      rw [if_pos ⟨hcycle, htargets⟩]
      simp only [hcycle, horder, EventHub.openStream]
      split_ifs <;> rfl
    · obtain ⟨status, herror⟩ := planOrder_unknown (by push Not at htargets; exact htargets)
      rw [if_neg fun h => htargets h.2]
      simp only [hcycle, herror]
  · obtain ⟨witness, hwitness⟩ := Option.ne_none_iff_exists'.mp hcycle
    rw [if_neg fun h => hcycle h.1]
    simp only [hwitness]

theorem build_members (workspace : WorkspaceCore) (ex : Executor σ) (targets : List NodeId) (executor : σ) :
    let after := (workspace.build ex targets executor).2.1
    after.graph = workspace.graph ∧
      after.nextRequest = (workspace.prepare targets executor).2.nextRequest ∧
      after.eventHub = (workspace.prepare targets executor).2.eventHub := by
  intro after
  have hgraph := workspace.prepare_graph targets executor
  simp only [after, build]
  rcases hprepare : workspace.prepare targets executor with ⟨status | ⟨order, run⟩, workspace'⟩
  · rw [hprepare] at hgraph
    exact ⟨hgraph, rfl, rfl⟩
  · rw [hprepare] at hgraph
    exact ⟨hgraph, rfl, rfl⟩

/-- The stream for the next request can be opened. -/
def Opens (workspace : WorkspaceCore) : Prop :=
  workspace.nextRequest.toUInt32 ≠ 0 ∧ workspace.nextRequest.toUInt32 ∉ workspace.eventHub.streams

def invalidStream : Status := Status.error .protocol "event-hub" "invalid event stream"

/-- What a build returns: an outcome where its loop is reached, and otherwise a status that tells why it
is not. -/
theorem build_returns (workspace : WorkspaceCore) (ex : Executor σ) (targets : List NodeId) (executor : σ) :
    (workspace.Buildable targets ∧ workspace.Opens ∧
      ∃ outcome, (workspace.build ex targets executor).1 = .value (.ok outcome)) ∨
    (workspace.Buildable targets ∧ ¬ workspace.Opens ∧
      (workspace.build ex targets executor).1 = .value (.error invalidStream)) ∨
    ¬ workspace.Buildable targets ∧ ∃ status, status ≠ invalidStream ∧
      (workspace.build ex targets executor).1 = .value (.error status) := by
  by_cases hcycle : workspace.graph.cycleWitness = none
  swap
  · obtain ⟨witness, hwitness⟩ := Option.ne_none_iff_exists'.mp hcycle
    refine .inr (.inr ⟨fun h => hcycle h.1, _, ?_, by simp only [build, prepare, hwitness]; rfl⟩)
    decide
  by_cases htargets : ∀ target ∈ targets, target ∈ workspace.graph.nodes
  swap
  · obtain ⟨status, herror⟩ := planOrder_unknown (by push Not at htargets; exact htargets)
    refine .inr (.inr ⟨fun h => htargets h.2, status, ?_, by simp only [build, prepare, hcycle, herror]⟩)
    rw [planOrder_error herror]
    decide
  obtain ⟨order, horder, _⟩ := planOrder_ok (BuildGraph.acyclic_of_cycleWitness_none hcycle) htargets
  by_cases hopens : workspace.Opens
  · have hreaches : workspace.Reaches targets order := ⟨hcycle, horder, hopens⟩
    have hprepare := (workspace.prepare_eq_ok_iff targets executor order _).mpr ⟨hreaches, rfl⟩
    have hgraph := workspace.prepare_graph targets executor
    refine .inl ⟨⟨hcycle, htargets⟩, hopens, ?_⟩
    rw [build]
    rcases hrest : workspace.prepare targets executor with ⟨plan, workspace'⟩
    rw [hrest] at hprepare hgraph
    dsimp only at hprepare hgraph
    rw [hprepare]
    dsimp only
    rw [hgraph]
    rcases BuildRun.buildLoop_leaves hreaches.plansFor.1 (workspace.start executor) with
      hleave | hleave
    · rw [hleave]
      exact ⟨_, rfl⟩
    · rw [hleave]
      exact ⟨_, rfl⟩
  · have hbad : workspace.nextRequest.toUInt32 = 0 ∨
        workspace.nextRequest.toUInt32 ∈ workspace.eventHub.streams := by
      rw [Opens] at hopens
      tauto
    refine .inr (.inl ⟨⟨hcycle, htargets⟩, hopens, ?_⟩)
    simp only [build, prepare, hcycle, horder, EventHub.openStream, hbad, if_true]
    rfl

end WorkspaceCore

/-! ## Streams of a run -/

namespace EventHub

variable {hub : EventHub} {streamId id : UInt32}

theorem mem_insert_stream {stream : Stream} (h : streamId ∈ hub.streams) :
    id ∈ hub.streams.insert streamId stream ↔ id ∈ hub.streams := by
  rw [ExtTreeMap.mem_insert]
  refine or_iff_right_of_imp fun hsame => ?_
  rwa [← Std.LawfulEqCmp.eq_of_compare hsame]

theorem mem_addCredit (credit : UInt64) :
    id ∈ (hub.addCredit streamId credit).2.streams ↔ id ∈ hub.streams := by
  rw [addCredit]
  cases hstream : hub.streams[streamId]? with
  | none => exact Iff.rfl
  | some stream =>
    dsimp only
    split
    · exact Iff.rfl
    · exact mem_insert_stream (ExtTreeMap.mem_of_getElem?_eq_some hstream)

theorem mem_publish (event : BuildEvent) : id ∈ (hub.publish streamId event).2.streams ↔ id ∈ hub.streams := by
  rw [publish]
  cases hstream : hub.streams[streamId]? with
  | none => exact Iff.rfl
  | some stream =>
    have hmem := ExtTreeMap.mem_of_getElem?_eq_some hstream
    dsimp only
    split_ifs <;> exact mem_insert_stream hmem

theorem mem_drain : id ∈ (hub.drain streamId).2.streams ↔ id ∈ hub.streams := by
  rw [drain]
  cases hstream : hub.streams[streamId]? with
  | none => exact Iff.rfl
  | some stream => exact mem_insert_stream (ExtTreeMap.mem_of_getElem?_eq_some hstream)

end EventHub

namespace WorkspaceCore

/-- Behind `count` requests: the next id, and a stream for each of them as far as ids of 32 bits go. -/
structure Requested (count : Nat) (workspace : WorkspaceCore) : Prop where
  nextRequest : workspace.nextRequest = UInt64.ofNat (count + 1)
  streams : ∀ id : UInt32, id ∈ workspace.eventHub.streams ↔ 1 ≤ id.toNat ∧ id.toNat ≤ count

theorem Requested.toNat_stream {count : Nat} {workspace : WorkspaceCore} (h : Requested count workspace) :
    workspace.nextRequest.toUInt32.toNat = (count + 1) % 2 ^ 32 := by
  rw [h.nextRequest, UInt64.toNat_toUInt32, UInt64.toNat_ofNat']
  omega

theorem Requested.opens_iff {count : Nat} {workspace : WorkspaceCore} (h : Requested count workspace) :
    workspace.Opens ↔ count < 2 ^ 32 - 1 := by
  -- the id has 32 bits: it is 0 once, and behind that its stream is open already
  have hid := h.toNat_stream
  have hzero : workspace.nextRequest.toUInt32 = 0 ↔ workspace.nextRequest.toUInt32.toNat = 0 :=
    UInt32.toNat_inj.symm
  rw [Opens, h.streams, ne_eq, hzero, hid]
  omega

theorem Requested.opened {count : Nat} {workspace : WorkspaceCore} (h : Requested count workspace) :
    Requested (count + 1) { workspace with
      nextRequest := workspace.nextRequest + 1
      eventHub := (workspace.eventHub.openStream workspace.nextRequest.toUInt32 (1024 * 1024)).2 } := by
  refine ⟨(congrArg (· + 1) h.nextRequest).trans (UInt64.ofNat_add (count + 1) 1).symm, fun id => ?_⟩
  have hid := h.toNat_stream
  have hlt := id.toNat_lt
  have hopens := h.opens_iff
  dsimp only
  rw [EventHub.openStream]
  by_cases hbad : workspace.nextRequest.toUInt32 = 0 ∨
      workspace.nextRequest.toUInt32 ∈ workspace.eventHub.streams
  · have hmany : ¬ count < 2 ^ 32 - 1 := fun hfew => not_or.mpr (hopens.mpr hfew) hbad
    rw [if_pos hbad, h.streams]
    omega
  · have hfew := hopens.mp (not_or.mp hbad)
    have hsame : compare workspace.nextRequest.toUInt32 id = .eq ↔ id.toNat = count + 1 := by
      rw [Std.LawfulEqCmp.compare_eq_iff_eq, ← UInt32.toNat_inj, hid]
      omega
    rw [if_neg hbad, ExtTreeMap.mem_insert, h.streams, hsame]
    omega

theorem Requested.build {σ : Type} {count : Nat} {workspace : WorkspaceCore} (h : Requested count workspace)
    (ex : Executor σ) (targets : List NodeId) (executor : σ) :
    Requested (count + if workspace.Buildable targets then 1 else 0)
      (workspace.build ex targets executor).2.1 := by
  obtain ⟨-, hnext, hhub⟩ := workspace.build_members ex targets executor
  rw [prepare_snd] at hnext hhub
  by_cases hbuildable : workspace.Buildable targets
  · rw [if_pos hbuildable] at hnext hhub ⊢
    exact ⟨hnext.trans h.opened.nextRequest, by rw [hhub]; exact h.opened.streams⟩
  · rw [if_neg hbuildable] at hnext hhub ⊢
    exact ⟨hnext.trans h.nextRequest, by rw [hhub]; exact h.streams⟩

end WorkspaceCore

namespace Workspace

variable {σ : Type}

/-- The builds of a run that get as far as their event stream. -/
def openings (steps : List (Workspace × WorkspaceCall σ)) : Nat :=
  steps.countP fun
    | (workspace, .build _ targets _) => workspace.core.Buildable targets
    | _ => false

open WorkspaceCore (Requested)

theorem requested_step {count : Nat} {workspace : Workspace} (h : Requested count workspace.core)
    (call : WorkspaceCall σ) :
    Requested (count + openings [(workspace, call)]) (workspace.step call).core := by
  have hhub : ∀ eventHub : EventHub, (∀ id, id ∈ eventHub.streams ↔ id ∈ workspace.core.eventHub.streams) →
      Requested count (workspace.useHub eventHub).core :=
    fun eventHub hstreams => ⟨h.nextRequest, fun id => (hstreams id).trans (h.streams id)⟩
  cases call with
  | build ex targets executor =>
    have hcount : openings [(workspace, WorkspaceCall.build ex targets executor)] =
        if workspace.core.Buildable targets then 1 else 0 := by
      simp [openings, List.countP_cons]
    rw [hcount]
    exact h.build ex targets executor
  | putNode name action => exact ⟨h.nextRequest, h.streams⟩
  | putEdge fromNode toNode kind => exact ⟨h.nextRequest, h.streams⟩
  | fileEvent relative path kind =>
    have hcore : (workspace.fileEvent relative path kind).2.core = workspace.core := by
      rw [fileEvent]
      split <;> rfl
    rw [step, hcore]
    exact h
  | addCredit streamId credit => exact hhub _ fun id => EventHub.mem_addCredit credit
  | publish streamId event => exact hhub _ fun id => EventHub.mem_publish event
  | drain streamId => exact hhub _ fun id => EventHub.mem_drain
  | artifacts store inMemory => exact ⟨h.nextRequest, h.streams⟩
  | advance delta => exact h
  | write path bytes => exact h
  | erase path => exact h

theorem requested_run (root : Str) (calls : List (WorkspaceCall σ)) :
    let start : Workspace := { pathPolicy := ⟨root⟩ }
    Requested (openings (Runs.trace step start calls)) (calls.foldl step start).core := by
  intro start
  refine @Runs.trace_induction _ _ _ (fun steps workspace => Requested (openings steps) workspace.core) _
    ⟨rfl, fun id => ?_⟩ (fun steps workspace call h => ?_) calls
  · simp [start, openings]
    omega
  · rw [openings, List.countP_append]
    exact requested_step h call

/-- A build returns an error exactly if there is a cycle or a target that is no node, and never because of
its stream. -/
def FailsOnlyUnbuildable (workspace : Workspace) (ex : Executor σ) (targets : List NodeId) (executor : σ) :
    Prop :=
  ((∃ status, (workspace.core.build ex targets executor).1 = .value (.error status)) ↔
    workspace.core.Unbuildable targets) ∧
  (workspace.core.build ex targets executor).1 ≠ .value (.error WorkspaceCore.invalidStream)

theorem failsOnlyUnbuildable_iff (workspace : Workspace) (ex : Executor σ) (targets : List NodeId)
    (executor : σ) :
    workspace.FailsOnlyUnbuildable ex targets executor ↔
      (workspace.core.Unbuildable targets ∨ workspace.core.Opens) := by
  have hbuildable := workspace.core.buildable_iff targets
  rw [FailsOnlyUnbuildable]
  rcases workspace.core.build_returns ex targets executor with ⟨hyes, hopens, outcome, hrun⟩ |
    ⟨hyes, hclosed, hrun⟩ | ⟨hno, status, hstatus, hrun⟩
  · simp [hrun, hopens, hbuildable.mp hyes]
  · simp [hrun, hclosed, hbuildable.mp hyes]
  · simp [hrun, not_not.mp (hbuildable.not.mp hno), hstatus]

/-- **When builds wear out.** Behind any run a build fails only for a cycle or an unknown target, exactly
if it has one of these or fewer than `2 ^ 32 - 1` builds of the run had neither. -/
theorem build_fails_only_unbuildable_iff (root : Str) (calls : List (WorkspaceCall σ)) (ex : Executor σ)
    (targets : List NodeId) (executor : σ) :
    let start : Workspace := { pathPolicy := ⟨root⟩ }
    let workspace := calls.foldl step start
    workspace.FailsOnlyUnbuildable ex targets executor ↔
      (workspace.core.Unbuildable targets ∨ openings (Runs.trace step start calls) < 2 ^ 32 - 1) := by
  intro start workspace
  rw [failsOnlyUnbuildable_iff, (requested_run root calls).opens_iff]

/-! ## Builds without end -/

theorem openings_replicate (ex : Executor σ) {targets : List NodeId} (executor : σ) (count : Nat) :
    ∀ {workspace : Workspace}, workspace.core.Buildable targets →
      let calls := List.replicate count (WorkspaceCall.build ex targets executor)
      (calls.foldl step workspace).core.Buildable targets ∧
        openings (Runs.trace step workspace calls) = count := by
  induction count with
  | zero => exact fun hbuildable => ⟨hbuildable, rfl⟩
  | succ count ih =>
    intro workspace hbuildable
    have hgraph := (workspace.core.build_members ex targets executor).1
    have hnext : (workspace.step (.build ex targets executor)).core.Buildable targets := by
      rw [WorkspaceCore.Buildable, step, hgraph]
      exact hbuildable
    obtain ⟨hend, hcount⟩ := ih hnext
    refine ⟨hend, ?_⟩
    rw [openings] at hcount
    rw [List.replicate_succ, Runs.trace, openings, List.countP_cons, hcount]
    simp [hbuildable]

/-- An executor that knows no job. -/
def idleExecutor : Executor Unit := { run := fun _ _ _ => (.error .success, ()), cancel := fun _ _ => () }

/-- One node, put and built `count` times. -/
def oneNodeCalls (count : Nat) : List (WorkspaceCall Unit) :=
  .putNode [97] {} :: List.replicate count (.build idleExecutor [⟨1⟩] ())

theorem not_failsOnlyUnbuildable_of_many {count : Nat} (hmany : 2 ^ 32 - 1 ≤ count) :
    ¬ ((oneNodeCalls count).foldl step { pathPolicy := ⟨[46]⟩ }).FailsOnlyUnbuildable idleExecutor [⟨1⟩] () := by
  have hone : (({ pathPolicy := ⟨[46]⟩ } : Workspace).step
      (WorkspaceCall.putNode [97] {} : WorkspaceCall Unit)).core.Buildable [⟨1⟩] := by decide +kernel
  obtain ⟨hbuildable, hcount⟩ := openings_replicate idleExecutor () count hone
  have hall : openings (Runs.trace step { pathPolicy := ⟨[46]⟩ } (oneNodeCalls count)) = count := by
    rw [openings] at hcount
    rw [oneNodeCalls, Runs.trace, openings, List.countP_cons, hcount]
    rfl
  rw [failsOnlyUnbuildable_iff, (requested_run [46] (oneNodeCalls count)).opens_iff, hall]
  exact not_or.mpr ⟨(WorkspaceCore.buildable_iff _ _).mp hbuildable, by omega⟩

/-- The last of `2 ^ 32` builds of one node cannot open its stream. -/
theorem build_wears_out :
    ¬ ((oneNodeCalls (2 ^ 32 - 1)).foldl step { pathPolicy := ⟨[46]⟩ }).FailsOnlyUnbuildable
      idleExecutor [⟨1⟩] () :=
  not_failsOnlyUnbuildable_of_many (Nat.le_refl _)

end Workspace

end Forge
