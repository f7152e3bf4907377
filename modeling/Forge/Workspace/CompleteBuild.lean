import Forge.Workspace.SharedJobs

/-!
# Complete builds

A build whose calls are all answered under their leases goes through its plan. It calls the executor for
the nodes of the plan that no earlier one shares the action key with, in plan order, and attaches the
others; it announces each of them accordingly, and publishes what the calls have answered
(`build_runs_each_key_once`).
-/

namespace Forge

open Std (ExtTreeMap)

/-! ## First elements -/

section First

variable {α κ : Type} [DecidableEq α] {key : α → κ} {l before after : List α} {a : α}

/-- No element before `a` has the key of `a`. -/
def IsFirst (key : α → κ) (l : List α) (a : α) : Prop := ∀ b ∈ l.takeWhile (· ≠ a), key b ≠ key a

theorem isFirst_iff (hsplit : l = before ++ a :: after) (hnodup : l.Nodup) :
    IsFirst key l a ↔ ∀ b ∈ before, key b ≠ key a := by
  have hout : a ∉ before := by
    intro hmem
    rw [hsplit, List.nodup_append] at hnodup
    exact hnodup.2.2 a hmem a List.mem_cons_self rfl
  have htake : l.takeWhile (· ≠ a) = before := by
    rw [hsplit, List.takeWhile_append_of_pos fun b hb => ?_, List.takeWhile_cons_of_neg (by simp),
      List.append_nil]
    simpa using fun h : b = a => hout (h ▸ hb)
  rw [IsFirst, htake]

variable [DecidableEq κ]

instance (key : α → κ) (l : List α) : DecidablePred (IsFirst key l) := fun a =>
  inferInstanceAs (Decidable (∀ b ∈ l.takeWhile (· ≠ a), _))

theorem nodup_map_first (hnodup : l.Nodup) : ((l.filter (IsFirst key l)).map key).Nodup := by
  refine (hnodup.filter _).map_on fun a ha b hb hsame => ?_
  simp only [List.mem_filter, decide_eq_true_eq] at ha hb
  by_contra hne
  obtain ⟨before, after, hsplit⟩ := List.append_of_mem ha.1
  rcases List.mem_append.mp (hsplit ▸ hb.1) with hb' | hb'
  · exact (isFirst_iff hsplit hnodup).mp ha.2 b hb' hsame.symm
  · -- then `a` is before `b`
    obtain ⟨between, last, hafter⟩ := List.append_of_mem ((List.mem_cons.mp hb').resolve_left (Ne.symm hne))
    have hsplit' : l = (before ++ a :: between) ++ b :: last := by rw [hsplit, hafter]; simp
    exact (isFirst_iff hsplit' hnodup).mp hb.2 a (by simp) hsame

theorem exists_first_of_key (key : α → κ) (hnodup : l.Nodup) (ha : a ∈ l) :
    ∃ b ∈ l.filter (IsFirst key l), key b = key a := by
  obtain ⟨b, hfind⟩ : ∃ b, l.find? (key · = key a) = some b :=
    Option.isSome_iff_exists.mp (List.find?_isSome.mpr ⟨a, ha, by simp⟩)
  obtain ⟨hkey, before, after, hsplit, hbefore⟩ := List.find?_eq_some_iff_append.mp hfind
  have hkey : key b = key a := by simpa using hkey
  refine ⟨b, List.mem_filter.mpr ⟨List.mem_of_find?_eq_some hfind, ?_⟩, hkey⟩
  rw [decide_eq_true_eq, isFirst_iff hsplit hnodup]
  intro other hother
  rw [hkey]
  simpa using hbefore other hother

end First

/-! ## What a complete build does -/

namespace BuildGraph

/-- The action key of a node. -/
def keyOf (graph : BuildGraph) (v : NodeId) : Option Digest256 :=
  graph.nodes[v]?.map fun node => actionKeyFor node [] []

theorem keyOf_eq {graph : BuildGraph} {v : NodeId} {node : BuildNode} (hnode : graph.nodes[v]? = some node) :
    graph.keyOf v = some (actionKeyFor node [] []) := by
  rw [keyOf, hnode, Option.map_some]

/-- The nodes of a plan that get a job: those that no earlier one shares the key with. -/
def jobNodes (graph : BuildGraph) (order : List NodeId) : List NodeId :=
  order.filter (IsFirst graph.keyOf order)

/-- The events of a node. -/
def nodeEvents (graph : BuildGraph) (order : List NodeId) (v : NodeId) : List BuildEvent :=
  match graph.nodes[v]? with
  | none => []
  | some node =>
    if IsFirst graph.keyOf order v then [runningEvent node, succeededEvent node] else [queuedEvent]

end BuildGraph

namespace Call

/-- The keys under which the artifacts of the answer are published. -/
def published (call : Call) : List ArtifactKey :=
  call.artifacts.map fun bytes => (({} : ArtifactWriter).append bytes).key

end Call

/-- Each distinct action of a plan is run once: by the call for its first node. -/
structure RunsEachKeyOnce (graph : BuildGraph) (order : List NodeId) (calls : List Call)
    (outcome : BuildOutcome) (store : ArtifactStore) : Prop where
  nodes : calls.map (·.spec.node) = graph.jobNodes order
  keys : ∀ call ∈ calls, graph.keyOf call.spec.node = some call.spec.actionKey
  once : (calls.map (·.spec.actionKey)).Nodup
  all : ∀ v ∈ order, ∃ call ∈ calls, graph.keyOf v = some call.spec.actionKey
  events : outcome.events = order.flatMap (graph.nodeEvents order)
  artifacts : outcome.artifacts = calls.flatMap Call.published
  readable : ∀ key ∈ outcome.artifacts, ∀ openFile, ∃ bytes, store.read openFile key = .ok bytes

/-- The calls of the executor in a build. -/
def WorkspaceCore.executorCalls {σ : Type} (workspace : WorkspaceCore) (ex : Executor σ)
    (targets : List NodeId) (executor : σ) : List Call :=
  (workspace.build ex.logged targets (executor, [])).2.2.2

namespace BuildRun

variable {σ : Type} {ex : Executor σ} {graph : BuildGraph} {start : BuildRun (σ × List Call)}

/-! ## The run behind a part of the plan -/

/-- Behind the nodes `done` of a plan: their keys have jobs, the first of each has been called for, and
what has been answered is published. -/
structure Ran (graph : BuildGraph) (order done : List NodeId) (run : BuildRun (σ × List Call)) : Prop where
  active : ∀ hex, hex ∈ run.activeByKey ↔ ∃ v ∈ done, ∃ key, graph.keyOf v = some key ∧ key.hex = hex
  calls : run.calls.map (fun call => (call.spec.node, some call.spec.actionKey)) =
    (done.filter (IsFirst graph.keyOf order)).map fun v => (v, graph.keyOf v)
  events : run.outcome.events = done.flatMap (graph.nodeEvents order)
  artifacts : run.outcome.artifacts = run.calls.flatMap Call.published
  durable : ∀ key ∈ run.outcome.artifacts, ∃ object,
    run.artifacts.objects[key]? = some object ∧ object.durable = true

theorem Ran.isFirst_iff {order done rest : List NodeId} {run : BuildRun (σ × List Call)}
    (h : Ran graph order done run) {nodeId : NodeId} (hsplit : order = done ++ nodeId :: rest)
    (hnodup : order.Nodup) {node : BuildNode} (hnode : graph.nodes[nodeId]? = some node) :
    IsFirst graph.keyOf order nodeId ↔ (actionKeyFor node [] []).hex ∉ run.activeByKey := by
  have hkey := BuildGraph.keyOf_eq hnode
  rw [Forge.isFirst_iff hsplit hnodup, h.active, hkey]
  constructor
  · rintro hfirst ⟨v, hv, key, hvkey, hsame⟩
    exact hfirst v hv (by rw [hvkey, hex_injective hsame])
  · exact fun hnone v hv hsame => hnone ⟨v, hv, _, hsame, rfl⟩

section Step

variable {order done rest : List NodeId} {run : BuildRun (σ × List Call)} {nodeId : NodeId}
  {node : BuildNode}

theorem Ran.attached (h : Ran graph order done run) (hsplit : order = done ++ nodeId :: rest)
    (hnodup : order.Nodup) (hnode : graph.nodes[nodeId]? = some node) {job : JobId}
    (hactive : run.activeByKey[(actionKeyFor node [] []).hex]? = some job) :
    Ran graph order (done ++ [nodeId]) (run.emit queuedEvent) := by
  have hmem := ExtTreeMap.mem_of_getElem?_eq_some hactive
  have hlater : ¬ IsFirst graph.keyOf order nodeId := by
    rw [h.isFirst_iff hsplit hnodup hnode]
    exact not_not.mpr hmem
  have hkey := BuildGraph.keyOf_eq hnode
  refine ⟨fun hex => ?_, ?_, ?_, h.artifacts, h.durable⟩
  · show hex ∈ run.activeByKey ↔ _
    rw [h.active]
    constructor
    · rintro ⟨v, hv, hvkey⟩
      exact ⟨v, List.mem_append_left _ hv, hvkey⟩
    · rintro ⟨v, hv, key, hvkey, rfl⟩
      rcases List.mem_append.mp hv with hv | hv
      · exact ⟨v, hv, key, hvkey, rfl⟩
      · rw [List.mem_singleton.mp hv, hkey] at hvkey
        obtain rfl := Option.some.inj hvkey
        exact (h.active _).mp hmem
  · rw [List.filter_append, List.filter_singleton, decide_eq_false hlater]
    simp only [cond_false, List.append_nil]
    exact h.calls
  · rw [List.flatMap_append, ← h.events, List.flatMap_singleton, BuildGraph.nodeEvents, hnode]
    simp only [if_neg hlater]
    rfl

theorem durable_stored {key : ArtifactKey} (artifacts : List Bytes) :
    ∀ {store : ArtifactStore}, store.root = none →
      ((∃ object, store.objects[key]? = some object ∧ object.durable = true) ∨
        key ∈ artifacts.map fun bytes => (({} : ArtifactWriter).append bytes).key) →
      ∃ object, (stored store artifacts).objects[key]? = some object ∧ object.durable = true := by
  induction artifacts with
  | nil =>
    intro store _ h
    exact h.resolve_right (by simp)
  | cons bytes rest ih =>
    intro store hroot h
    have hpublish := ArtifactStore.publish_of_root_none hroot {} (({} : ArtifactWriter).append bytes)
    have hroot' : (store.publish {} (({} : ArtifactWriter).append bytes)).2.root = none := by
      rw [hpublish]
      exact hroot
    refine ih hroot' ?_
    simp only [hpublish]
    by_cases hsame : (({} : ArtifactWriter).append bytes).key = key
    · rw [← hsame, ExtTreeMap.getElem?_insert_self]
      exact .inl ⟨_, rfl, rfl⟩
    · rw [ExtTreeMap.getElem?_insert_of_ne hsame]
      refine h.imp_right fun hmem => ?_
      rw [List.map_cons, List.mem_cons] at hmem
      exact hmem.resolve_left (Ne.symm hsame)

theorem Ran.called (h : Ran graph order done run) (hsplit : order = done ++ nodeId :: rest)
    (hnodup : order.Nodup) (hnode : graph.nodes[nodeId]? = some node)
    (hactive : run.activeByKey[(actionKeyFor node [] []).hex]? = none) {result : WorkerResult}
    (hanswer : (run.nextCall ex nodeId node).answer = .ok result) :
    Ran graph order (done ++ [nodeId])
      (((run.afterCall ex nodeId node).published result.artifacts).emit (succeededEvent node)) := by
  have hfirst : IsFirst graph.keyOf order nodeId :=
    (h.isFirst_iff hsplit hnodup hnode).mpr (ExtTreeMap.not_mem_iff.mpr hactive)
  have hkey := BuildGraph.keyOf_eq hnode
  have hcalls : (((run.afterCall ex nodeId node).published result.artifacts).emit
      (succeededEvent node)).calls = run.calls ++ [run.nextCall ex nodeId node] :=
    calls_afterCall ex run nodeId node
  have hspec := spec_nextCall ex run nodeId node
  have hpublished : (run.nextCall ex nodeId node).published =
      result.artifacts.map fun bytes => (({} : ArtifactWriter).append bytes).key := by
    rw [Call.published, Call.artifacts, hanswer]
  have hold : (run.afterCall ex nodeId node).outcome.artifacts = run.outcome.artifacts ∧
      (run.afterCall ex nodeId node).artifacts = run.artifacts := by
    rw [afterCall, dispatch_eq]
    exact ⟨rfl, rfl⟩
  refine ⟨fun hex => ?_, ?_, ?_, ?_, fun key hmem => ?_⟩
  · show hex ∈ (run.afterCall ex nodeId node).activeByKey ↔ _
    rw [activeByKey_afterCall, ExtTreeMap.mem_insert, Std.compare_eq_iff_eq, h.active]
    simp only [List.mem_append, List.mem_singleton, or_and_right, exists_or, exists_eq_left, hkey,
      Option.some.injEq, exists_eq_left']
    exact or_comm
  · rw [hcalls, List.map_append, h.calls, List.filter_append, List.filter_singleton, decide_eq_true hfirst,
      List.map_append]
    simp [hspec, nextSpec, hkey]
  · show (run.afterCall ex nodeId node).outcome.events ++ [succeededEvent node] = _
    rw [events_afterCall, List.flatMap_append, ← h.events, List.flatMap_singleton, BuildGraph.nodeEvents,
      hnode]
    simp [if_pos hfirst]
  · rw [hcalls, List.flatMap_append, ← h.artifacts, List.flatMap_singleton, hpublished, ← hold.1]
    rfl
  · have hmem : key ∈ run.outcome.artifacts ++
        result.artifacts.map fun bytes => (({} : ArtifactWriter).append bytes).key := by
      rw [← hold.1]
      exact hmem
    show ∃ object, (stored (run.afterCall ex nodeId node).artifacts result.artifacts).objects[key]? =
      some object ∧ object.durable = true
    rw [hold.2]
    exact durable_stored result.artifacts run.inMemory ((List.mem_append.mp hmem).imp_left (h.durable key))

end Step

/-! ## The whole loop -/

theorem ran_start (workspace : WorkspaceCore) (executor : σ) (order : List NodeId) :
    Ran graph order [] (workspace.start (executor, ([] : List Call))) := by
  refine ⟨?_, ?_, ?_, ?_, ?_⟩
  all_goals simp [WorkspaceCore.start, calls]

theorem Behind.ran_of_prefix {order done : List NodeId} {before : List BuildTurn} {run : BuildRun (σ × List Call)}
    (hnodup : order.Nodup) (hstart : Ran graph order [] start) (h : Behind ex graph start done before run) :
    done <+: order → Ran graph order done run := by
  induction h with
  | start => exact fun _ => hstart
  | attached _ hnode hactive ih =>
    rintro ⟨rest, hsplit⟩
    rw [List.append_assoc, List.singleton_append] at hsplit
    exact (ih ⟨_, hsplit⟩).attached hsplit.symm hnodup hnode hactive
  | ran _ hnode hactive hanswer _ _ ih =>
    rintro ⟨rest, hsplit⟩
    rw [List.append_assoc, List.singleton_append] at hsplit
    exact (ih ⟨_, hsplit⟩).called hsplit.symm hnodup hnode hactive hanswer

theorem Behind.loop_eq {done : List NodeId} {before : List BuildTurn} {run : BuildRun (σ × List Call)}
    (h : Behind ex graph start done before run) : ∀ rest : List NodeId,
      start.buildLoop ex.logged graph (done ++ rest) = run.buildLoop ex.logged graph rest := by
  induction h with
  | start => exact fun _ => rfl
  | attached _ hnode hactive ih =>
    intro rest
    rw [List.append_assoc, List.singleton_append, ih, buildLoop,
      buildNode_attached ex.logged graph _ hnode hactive]
  | ran _ hnode hactive hanswer hlease hattempt ih =>
    intro rest
    rw [List.append_assoc, List.singleton_append, ih, buildLoop,
      buildNode_dispatch ex.logged graph _ hnode hactive, settle_of_current ex.logged _ hanswer hlease hattempt]
    rfl

theorem Ran.runsEachKeyOnce {order : List NodeId} {run : BuildRun (σ × List Call)}
    (h : Ran graph order order run) (hnodup : order.Nodup) :
    RunsEachKeyOnce graph order run.calls run.outcome run.artifacts := by
  have hnodes : run.calls.map (·.spec.node) = graph.jobNodes order := by
    have hfst := congrArg (List.map Prod.fst) h.calls
    simpa [Function.comp_def, BuildGraph.jobNodes] using hfst
  have hsnd : run.calls.map (fun call => some call.spec.actionKey) =
      (graph.jobNodes order).map graph.keyOf := by
    have hsnd := congrArg (List.map Prod.snd) h.calls
    simpa [Function.comp_def, BuildGraph.jobNodes] using hsnd
  have hkeys : ∀ call ∈ run.calls, graph.keyOf call.spec.node = some call.spec.actionKey := by
    rw [← hnodes, List.map_map, List.map_inj_left] at hsnd
    exact fun call hcall => (hsnd call hcall).symm
  refine ⟨hnodes, hkeys, ?_, fun v hv => ?_, h.events, h.artifacts, fun key hkey openFile => ?_⟩
  · have honce : (run.calls.map fun call => some call.spec.actionKey).Nodup := by
      rw [hsnd]
      exact nodup_map_first hnodup
    exact List.Nodup.of_map some (by rwa [List.map_map])
  · obtain ⟨w, hw, hsame⟩ := exists_first_of_key graph.keyOf hnodup hv
    obtain ⟨call, hcall, hnode⟩ := List.mem_map.mp (hnodes ▸ hw : w ∈ run.calls.map (·.spec.node))
    exact ⟨call, hcall, by rw [← hsame, ← hnode, hkeys call hcall]⟩
  · obtain ⟨object, hobject, hdurable⟩ := h.durable key hkey
    refine ⟨object.bytes, ?_⟩
    rw [ArtifactStore.read, hobject, Option.filter_some, if_pos hdurable]

end BuildRun

/-! ## The build -/

namespace WorkspaceCore

variable {σ : Type}

theorem Reaches.intro {workspace : WorkspaceCore} {targets : List NodeId}
    (hacyclic : Digraph.Acyclic workspace.graph.DependsOn) (htargets : ∀ t ∈ targets, t ∈ workspace.graph.nodes)
    (hopen : (workspace.eventHub.openStream workspace.nextRequest.toUInt32 (1024 * 1024)).1 = .ok ()) :
    ∃ order, workspace.Reaches targets order := by
  obtain ⟨order, hplanned, _⟩ := planOrder_ok hacyclic htargets
  refine ⟨order, ?_, hplanned, ?_⟩
  · rcases workspace.graph.cycleWitness_cases with ⟨hnone, _⟩ | ⟨witness, _, hvalid⟩
    · exact hnone
    · obtain ⟨v, hcycle⟩ := hvalid.transGen
      exact absurd hcycle (hacyclic v)
  · rw [EventHub.openStream] at hopen
    split_ifs at hopen with hbad
    exact not_or.mp hbad

theorem build_of_behind {workspace : WorkspaceCore} {ex : Executor σ} {targets order : List NodeId}
    {executor : σ} (hreaches : workspace.Reaches targets order) {before : List BuildTurn}
    {run : BuildRun (σ × List Call)}
    (h : BuildRun.Behind ex workspace.graph (workspace.start (executor, [])) order before run) :
    workspace.build ex.logged targets (executor, []) =
      (.value (.ok run.outcome), run.store (workspace.prepare targets (executor, ([] : List Call))).2,
        run.manager.executor) := by
  have hgraph := workspace.prepare_graph targets (executor, ([] : List Call))
  have hprepare := (workspace.prepare_eq_ok_iff targets (executor, ([] : List Call)) order _).mpr
    ⟨hreaches, rfl⟩
  have hloop := h.loop_eq []
  rw [List.append_nil, BuildRun.buildLoop] at hloop
  rw [build]
  rcases hrest : workspace.prepare targets (executor, ([] : List Call)) with ⟨plan, workspace'⟩
  rw [hrest] at hgraph hprepare
  dsimp only at hgraph hprepare ⊢
  rw [hprepare]
  dsimp only
  rw [hgraph, hloop]
  rfl

/-- **Each distinct action runs exactly once per build**: in an acyclic graph, with nodes for targets and
a stream for the request, and where all calls of the executor are answered with success. -/
theorem build_runs_each_key_once (ex : Executor σ) (workspace : WorkspaceCore) (targets : List NodeId)
    (executor : σ) (hacyclic : Digraph.Acyclic workspace.graph.DependsOn)
    (htargets : ∀ t ∈ targets, t ∈ workspace.graph.nodes)
    (hopen : (workspace.eventHub.openStream workspace.nextRequest.toUInt32 (1024 * 1024)).1 = .ok ())
    (hanswers : ∀ call ∈ workspace.executorCalls ex targets executor, call.Successful) :
    ∃ order outcome, planOrder workspace.graph targets = .ok order ∧
      (workspace.build ex targets executor).1 = .value (.ok outcome) ∧
      RunsEachKeyOnce workspace.graph order (workspace.executorCalls ex targets executor) outcome
        (workspace.build ex targets executor).2.1.artifacts := by
  obtain ⟨order, hreaches⟩ := Reaches.intro hacyclic htargets hopen
  obtain ⟨hnodes, hplans⟩ := hreaches.plansFor
  have hturns := buildTurns_of_reaches hreaches ex executor
  have hcurrent : ∀ call ∈ ((workspace.start (executor, ([] : List Call))).turns ex workspace.graph
      order).flatMap BuildTurn.calls, call.Current := by
    intro call hcall
    rw [← hturns, ← (workspace.build_turns ex targets executor).2.1] at hcall
    obtain ⟨result, hanswer, hlease, hattempt, _⟩ := hanswers call hcall
    exact ⟨result, hanswer, hlease, hattempt⟩
  obtain ⟨before, run, hbehind⟩ := BuildRun.Behind.complete order hnodes .start hcurrent
  rw [List.nil_append] at hbehind
  have hran := hbehind.ran_of_prefix hplans.nodup
    (BuildRun.ran_start workspace executor order) List.prefix_rfl
  have hbuild := build_of_behind hreaches hbehind
  have hforget := workspace.build_forget ex targets executor
  rw [hbuild] at hforget
  refine ⟨order, run.outcome, hreaches.planned, by rw [hforget], ?_⟩
  rw [executorCalls, hbuild, hforget]
  exact hran.runsEachKeyOnce hplans.nodup

/-- A library and two nodes with one command: the second is attached to the job of the first. -/
theorem build_runs_each_key_once_twins :
    twinWorkspace.graph.jobNodes [⟨1⟩, ⟨2⟩, ⟨3⟩] = [⟨1⟩, ⟨2⟩] ∧
      ∃ order outcome, planOrder twinWorkspace.graph [⟨2⟩, ⟨3⟩] = .ok order ∧
        (twinWorkspace.build DeterministicMockExecutor.executor [⟨2⟩, ⟨3⟩] {}).1 = .value (.ok outcome) ∧
        RunsEachKeyOnce twinWorkspace.graph order
          (twinWorkspace.executorCalls DeterministicMockExecutor.executor [⟨2⟩, ⟨3⟩] {}) outcome
          (twinWorkspace.build DeterministicMockExecutor.executor [⟨2⟩, ⟨3⟩] {}).2.1.artifacts :=
  ⟨by decide +kernel, build_runs_each_key_once _ _ _ _
    (BuildGraph.acyclic_of_cycleWitness_none (by decide +kernel)) (by decide +kernel) (by decide +kernel)
    (by decide +kernel)⟩

end WorkspaceCore

end Forge
