import Forge.Graph.ActionKey
import Forge.Workspace.FailedJobs

/-!
# Shared jobs

A node is attached to the job of an earlier one if their action keys are the same, and `build` derives
these keys from the nodes alone. So two nodes share a job whatever their dependencies have produced:
sharing is harmless exactly when planned nodes with one key material have the same action and the
executor's answers for their dependencies are the same (`build_shares_same_work_iff`).
-/

namespace Forge

open Std (ExtTreeMap)

/-! ## Definitions -/

namespace Call

/-- The artifacts of the answer. -/
def artifacts (call : Call) : List Bytes :=
  match call.answer with
  | .ok result => result.artifacts
  | .error _ => []

end Call

/-- What the job of a node has produced in these turns. -/
def artifactsFor (turns : List BuildTurn) (node : NodeId) : List Bytes :=
  match turns.find? (·.node = node) with
  | none => []
  | some turn =>
    ((turns.flatMap BuildTurn.calls).filter (some ·.spec.job = turn.job)).flatMap Call.artifacts

/-- The artifacts produced for the dependencies of a node, in their order. -/
def dependencyArtifacts (graph : BuildGraph) (produced : NodeId → List Bytes) (node : NodeId) :
    List Bytes :=
  (graph.snapshot.dependencies node).toList.flatMap produced

/-- A node is attached only to jobs of nodes with the same action, for whose dependencies the same has
been produced. -/
def SharesSameWork (graph : BuildGraph) (turns : List BuildTurn) : Prop :=
  ∀ before turn after, turns = before ++ turn :: after → turn.events = [queuedEvent] →
    ∀ earlier ∈ before, earlier.job = turn.job →
      graph.nodes[earlier.node]?.map BuildNode.action = graph.nodes[turn.node]?.map BuildNode.action ∧
        dependencyArtifacts graph (artifactsFor before) earlier.node =
          dependencyArtifacts graph (artifactsFor before) turn.node

/-- The answers to the jobs, asked for one after the other until one is not current. -/
def answers {σ : Type} (ex : Executor σ) : σ → List (WorkerLease × JobSpec) → List Call
  | _, [] => []
  | executor, (lease, spec) :: jobs =>
    let (answer, executor) := ex.run executor lease spec
    let call : Call := ⟨lease, spec, answer⟩
    if call.Current then call :: answers ex executor jobs else [call]

/-- What the calls under the action key of a node have produced. -/
def artifactsUnderKey (graph : BuildGraph) (calls : List Call) (nodeId : NodeId) : List Bytes :=
  match graph.nodes[nodeId]? with
  | none => []
  | some node =>
    (calls.filter (·.spec.actionKey = actionKeyFor node [] [])).flatMap Call.artifacts

/-- The material of the key that `build` gives a node. -/
def BuildNode.material (node : BuildNode) : Bytes := actionKeyMaterial node.action [] []

/-- The action keys of the nodes do not collide. -/
def NoCollision (graph : BuildGraph) : Prop :=
  ∀ v ∈ graph.nodes.toList, ∀ w ∈ graph.nodes.toList,
    actionKeyFor v.2 [] [] = actionKeyFor w.2 [] [] → v.2.material = w.2.material

instance (graph : BuildGraph) : Decidable (NoCollision graph) :=
  inferInstanceAs (Decidable (∀ v ∈ graph.nodes.toList, _))

theorem NoCollision.material_eq {graph : BuildGraph} (h : NoCollision graph) {v w : NodeId}
    {node node' : BuildNode} (hv : graph.nodes[v]? = some node) (hw : graph.nodes[w]? = some node')
    (hkey : actionKeyFor node [] [] = actionKeyFor node' [] []) : node.material = node'.material :=
  h (v, node) (ExtTreeMap.mem_toList_iff_getElem?_eq_some.mpr hv) (w, node')
    (ExtTreeMap.mem_toList_iff_getElem?_eq_some.mpr hw) hkey

theorem BuildNode.action_eq_of_material {node node' : BuildNode}
    (hshort : ActionTuple.Short ⟨node.action, [], []⟩) (hshort' : ActionTuple.Short ⟨node'.action, [], []⟩)
    (h : node.material = node'.material) : node.action = node'.action := by
  rcases (ActionTuple.material_eq_iff hshort hshort').mp h with hspells | hspells
  · exact hspells.action_eq rfl
  · exact (hspells.action_eq rfl).symm

namespace BuildRun

variable {σ : Type} {ex : Executor σ} {graph : BuildGraph}

/-! ## The calls of a run -/

theorem answers_cons (run : BuildRun (σ × List Call)) (nodeId : NodeId) (node : BuildNode)
    (jobs : List (WorkerLease × JobSpec)) :
    answers ex run.manager.executor.1 ((run.nextLease, run.nextSpec nodeId node) :: jobs) =
      if (run.nextCall ex nodeId node).Current then
        run.nextCall ex nodeId node ::
          answers ex (run.afterCall ex nodeId node).manager.executor.1 jobs
      else [run.nextCall ex nodeId node] := by
  rw [nextCall_eq, executor_afterCall]
  rfl

/-- **The calls of the turns** are the answers to the planned jobs. -/
theorem turns_calls (order : List NodeId) : ∀ (run : BuildRun (σ × List Call)) (seen : List Str),
    (∀ v ∈ order, v ∈ graph.nodes) → (∀ hex, hex ∈ seen ↔ hex ∈ run.activeByKey) →
      (run.turns ex graph order).flatMap BuildTurn.calls =
        answers ex run.manager.executor.1 (plannedJobs graph run.leases run.nextJob seen order) := by
  induction order with
  | nil => intro run seen _ _; rfl
  | cons nodeId rest ih =>
    intro run seen hnodes hseen
    have hrest : ∀ v ∈ rest, v ∈ graph.nodes := fun v hv => hnodes v (List.mem_cons_of_mem _ hv)
    obtain ⟨node, hnode⟩ := BuildGraph.exists_node (hnodes nodeId List.mem_cons_self)
    cases hactive : run.activeByKey[(actionKeyFor node [] []).hex]? with
    | some job =>
      have hmem := mem_seen_of_job run hseen hactive
      rw [turns_attached ex graph run hnode hactive, plannedJobs_attached graph run nodeId hnode hmem,
        List.flatMap_cons]
      exact ih (run.emit queuedEvent) seen hrest hseen
    | none =>
      have hmem := not_mem_seen_of_no_job run hseen hactive
      rw [plannedJobs_next ex graph run nodeId hnode hmem, answers_cons]
      by_cases hcurrent : (run.nextCall ex nodeId node).Current
      · rw [if_pos hcurrent]
        obtain ⟨result, hanswer, hlease, hattempt⟩ := hcurrent
        rw [turns_current ex graph run hnode hactive hanswer hlease hattempt, List.flatMap_cons]
        exact congrArg (run.nextCall ex nodeId node :: ·)
          (ih _ _ hrest (seen_afterCall ex run nodeId node hseen))
      · obtain ⟨status, hturns⟩ := turns_not_current ex graph run hnode hactive hcurrent rest
        rw [hturns, if_neg hcurrent]
        rfl

/-! ## Runs that go on -/

/-- The loop has taken the nodes `done` in the turns `before` and goes on with `run`. -/
inductive Behind (ex : Executor σ) (graph : BuildGraph) (start : BuildRun (σ × List Call)) :
    List NodeId → List BuildTurn → BuildRun (σ × List Call) → Prop
  | start : Behind ex graph start [] [] start
  | attached {done : List NodeId} {before : List BuildTurn} {run : BuildRun (σ × List Call)}
      (behind : Behind ex graph start done before run) {nodeId : NodeId} {node : BuildNode} {job : JobId}
      (hnode : graph.nodes[nodeId]? = some node)
      (hactive : run.activeByKey[(actionKeyFor node [] []).hex]? = some job) :
      Behind ex graph start (done ++ [nodeId]) (before ++ [⟨nodeId, some job, [], [queuedEvent]⟩])
        (run.emit queuedEvent)
  | ran {done : List NodeId} {before : List BuildTurn} {run : BuildRun (σ × List Call)}
      (behind : Behind ex graph start done before run) {nodeId : NodeId} {node : BuildNode}
      {result : WorkerResult} (hnode : graph.nodes[nodeId]? = some node)
      (hactive : run.activeByKey[(actionKeyFor node [] []).hex]? = none)
      (hanswer : (run.nextCall ex nodeId node).answer = .ok result)
      (hlease : result.lease = (run.nextCall ex nodeId node).lease.id)
      (hattempt : result.attempt = (run.nextCall ex nodeId node).lease.attempt) :
      Behind ex graph start (done ++ [nodeId])
        (before ++ [⟨nodeId, some ⟨run.nextJob⟩, [run.nextCall ex nodeId node],
          [runningEvent node, succeededEvent node]⟩])
        (((run.afterCall ex nodeId node).published result.artifacts).emit (succeededEvent node))

variable {start : BuildRun (σ × List Call)}

theorem Behind.turns_eq {done : List NodeId} {before : List BuildTurn} {run : BuildRun (σ × List Call)}
    (h : Behind ex graph start done before run) : ∀ rest : List NodeId,
      start.turns ex graph (done ++ rest) = before ++ run.turns ex graph rest := by
  induction h with
  | start => exact fun _ => rfl
  | attached _ hnode hactive ih =>
    intro rest
    rw [List.append_assoc, List.singleton_append, ih, turns_attached ex graph _ hnode hactive,
      List.append_assoc]
    rfl
  | ran _ hnode hactive hanswer hlease hattempt ih =>
    intro rest
    rw [List.append_assoc, List.singleton_append, ih,
      turns_current ex graph _ hnode hactive hanswer hlease hattempt, List.append_assoc]
    rfl

theorem Behind.next {done : List NodeId} {before : List BuildTurn} {run : BuildRun (σ × List Call)}
    (h : Behind ex graph start done before run) {nodeId : NodeId} (hmem : nodeId ∈ graph.nodes)
    (rest : List NodeId) :
    (∃ turn run', Behind ex graph start (done ++ [nodeId]) (before ++ [turn]) run' ∧
        run.turns ex graph (nodeId :: rest) = turn :: run'.turns ex graph rest) ∨
      ∃ turn, (∃ call ∈ turn.calls, ¬ call.Current) ∧ run.turns ex graph (nodeId :: rest) = [turn] := by
  obtain ⟨node, hnode⟩ := BuildGraph.exists_node hmem
  cases hactive : run.activeByKey[(actionKeyFor node [] []).hex]? with
  | some job =>
    exact .inl ⟨_, _, h.attached hnode hactive, turns_attached ex graph run hnode hactive rest⟩
  | none =>
    by_cases hcurrent : (run.nextCall ex nodeId node).Current
    · obtain ⟨result, hanswer, hlease, hattempt⟩ := hcurrent
      exact .inl ⟨_, _, h.ran hnode hactive hanswer hlease hattempt,
        turns_current ex graph run hnode hactive hanswer hlease hattempt rest⟩
    · obtain ⟨status, hturns⟩ := turns_not_current ex graph run hnode hactive hcurrent rest
      exact .inr ⟨_, ⟨_, List.mem_singleton_self _, hcurrent⟩, hturns⟩

theorem Behind.split (rest : List NodeId) (hnodes : ∀ v ∈ rest, v ∈ graph.nodes) :
    ∀ {done : List NodeId} {earlier : List BuildTurn} {run : BuildRun (σ × List Call)}
      {before : List BuildTurn} {turn : BuildTurn} {after : List BuildTurn},
      Behind ex graph start done earlier run → run.turns ex graph rest = before ++ turn :: after →
        ∃ more nodeId later run', rest = more ++ nodeId :: later ∧
          Behind ex graph start (done ++ more) (earlier ++ before) run' ∧
          run'.turns ex graph (nodeId :: later) = turn :: after := by
  induction rest with
  | nil =>
    intro done earlier run before turn after _ hturns
    simp [turns] at hturns
  | cons nodeId rest ih =>
    intro done earlier run before turn after h hturns
    cases before with
    | nil => exact ⟨[], nodeId, rest, run, rfl, by simpa using h, hturns⟩
    | cons first before =>
      rcases h.next (hnodes nodeId List.mem_cons_self) rest with
        ⟨next, run', h', hnext⟩ | ⟨last, _, hlast⟩
      · rw [hnext] at hturns
        obtain ⟨rfl, hrest⟩ := List.cons.inj hturns
        obtain ⟨more, nodeId', later, run'', hmore, h'', hturn⟩ :=
          ih (fun v hv => hnodes v (List.mem_cons_of_mem _ hv)) h' hrest
        refine ⟨nodeId :: more, nodeId', later, run'', by rw [hmore]; rfl, ?_, hturn⟩
        simpa using h''
      · rw [hlast] at hturns
        simp at hturns

theorem Behind.complete (rest : List NodeId) (hnodes : ∀ v ∈ rest, v ∈ graph.nodes) :
    ∀ {done : List NodeId} {earlier : List BuildTurn} {run : BuildRun (σ × List Call)},
      Behind ex graph start done earlier run →
      (∀ call ∈ (run.turns ex graph rest).flatMap BuildTurn.calls, call.Current) →
        ∃ before run', Behind ex graph start (done ++ rest) before run' := by
  induction rest with
  | nil => exact fun h _ => ⟨_, _, by simpa using h⟩
  | cons nodeId rest ih =>
    intro done earlier run h hcurrent
    rcases h.next (hnodes nodeId List.mem_cons_self) rest with
      ⟨next, run', h', hnext⟩ | ⟨last, ⟨call, hcall, hnot⟩, hlast⟩
    · rw [hnext, List.flatMap_cons] at hcurrent
      obtain ⟨before, run'', h''⟩ := ih (fun v hv => hnodes v (List.mem_cons_of_mem _ hv)) h'
        fun call hcall => hcurrent call (List.mem_append_right _ hcall)
      exact ⟨before, run'', by simpa using h''⟩
    · rw [hlast] at hcurrent
      exact absurd (hcurrent call (by simpa using hcall)) hnot

/-! ## Jobs and keys -/

/-- What holds of the jobs of a run: every node taken has one, jobs and keys belong together, and the
jobs are numbered in the order of their calls. -/
structure Assigned (graph : BuildGraph) (start : UInt64) (done : List NodeId) (before : List BuildTurn)
    (run : BuildRun (σ × List Call)) : Prop where
  nodes : before.map BuildTurn.node = done
  current : ∀ call ∈ before.flatMap BuildTurn.calls, call.Current
  jobs : ∀ turn ∈ before, ∃ node job, graph.nodes[turn.node]? = some node ∧ turn.job = some job ∧
    run.activeByKey[(actionKeyFor node [] []).hex]? = some job
  keys : ∀ (hex : Str) (job : JobId), run.activeByKey[hex]? = some job ↔
    ∃ call ∈ before.flatMap BuildTurn.calls, call.spec.actionKey.hex = hex ∧ call.spec.job = job
  numbered : (before.flatMap BuildTurn.calls).map (·.spec.job.value) =
    (List.range (before.flatMap BuildTurn.calls).length).map (start + UInt64.ofNat ·)
  next : run.nextJob = start + UInt64.ofNat (before.flatMap BuildTurn.calls).length
  few : (before.flatMap BuildTurn.calls).length ≤ done.length

theorem Assigned.attached {first : UInt64} {done : List NodeId} {before : List BuildTurn}
    {run : BuildRun (σ × List Call)} (h : Assigned graph first done before run) {nodeId : NodeId}
    {node : BuildNode} {job : JobId} (hnode : graph.nodes[nodeId]? = some node)
    (hactive : run.activeByKey[(actionKeyFor node [] []).hex]? = some job) :
    Assigned graph first (done ++ [nodeId]) (before ++ [⟨nodeId, some job, [], [queuedEvent]⟩])
      (run.emit queuedEvent) := by
  have hcalls : (before ++ [(⟨nodeId, some job, [], [queuedEvent]⟩ : BuildTurn)]).flatMap
      BuildTurn.calls = before.flatMap BuildTurn.calls := by simp
  constructor
  · rw [List.map_append, h.nodes]
    rfl
  · rw [hcalls]
    exact h.current
  · intro turn hturn
    rcases List.mem_append.mp hturn with hold | hlast
    · exact h.jobs turn hold
    · obtain rfl := List.mem_singleton.mp hlast
      exact ⟨node, job, hnode, rfl, hactive⟩
  · rw [hcalls]
    exact h.keys
  · rw [hcalls]
    exact h.numbered
  · rw [hcalls]
    exact h.next
  · rw [hcalls, List.length_append]
    exact Nat.le_succ_of_le h.few

theorem Assigned.ran {first : UInt64} {done : List NodeId} {before : List BuildTurn}
    {run : BuildRun (σ × List Call)} (h : Assigned graph first done before run) {nodeId : NodeId}
    {node : BuildNode} (hnode : graph.nodes[nodeId]? = some node)
    (hactive : run.activeByKey[(actionKeyFor node [] []).hex]? = none)
    (hcurrent : (run.nextCall ex nodeId node).Current) (events : List BuildEvent)
    {run' : BuildRun (σ × List Call)}
    (hkeys : run'.activeByKey = run.activeByKey.insert (actionKeyFor node [] []).hex ⟨run.nextJob⟩)
    (hnext : run'.nextJob = run.nextJob + 1) :
    Assigned graph first (done ++ [nodeId])
      (before ++ [⟨nodeId, some ⟨run.nextJob⟩, [run.nextCall ex nodeId node], events⟩]) run' := by
  have hcalls : (before ++ [(⟨nodeId, some ⟨run.nextJob⟩, [run.nextCall ex nodeId node], events⟩ :
      BuildTurn)]).flatMap BuildTurn.calls =
        before.flatMap BuildTurn.calls ++ [run.nextCall ex nodeId node] := by simp
  have hspec := spec_nextCall ex run nodeId node
  have hlength : (before.flatMap BuildTurn.calls ++ [run.nextCall ex nodeId node]).length =
      (before.flatMap BuildTurn.calls).length + 1 := by simp
  constructor
  · rw [List.map_append, h.nodes]
    rfl
  · rw [hcalls]
    exact List.forall_mem_append.mpr ⟨h.current, by simpa using hcurrent⟩
  · intro turn hturn
    rw [hkeys]
    rcases List.mem_append.mp hturn with hold | hlast
    · -- the key of an earlier node is another one, since it has a job
      obtain ⟨node', job', hnode', hjob', hactive'⟩ := h.jobs turn hold
      refine ⟨node', job', hnode', hjob', ?_⟩
      rw [ExtTreeMap.getElem?_insert_of_ne, hactive']
      intro hsame
      rw [hsame, hactive'] at hactive
      cases hactive
    · obtain rfl := List.mem_singleton.mp hlast
      exact ⟨node, ⟨run.nextJob⟩, hnode, rfl, ExtTreeMap.getElem?_insert_self⟩
  · intro hex job
    rw [hkeys, hcalls, ExtTreeMap.getElem?_insert]
    simp only [List.mem_append, List.mem_singleton, or_and_right, exists_or, exists_eq_left, hspec]
    rw [← h.keys]
    by_cases hsame : compare (actionKeyFor node [] []).hex hex = .eq
    · obtain rfl := Std.LawfulEqCmp.eq_of_compare hsame
      simp [hactive, nextSpec]
    · rw [if_neg hsame]
      have hother : (actionKeyFor node [] []).hex ≠ hex := by simpa using hsame
      simp [nextSpec, hother]
  · rw [hcalls, hlength, List.map_append, h.numbered, List.range_succ, List.map_append]
    simp only [List.map_cons, List.map_nil, hspec]
    rw [← h.next]
    rfl
  · rw [hnext, hcalls, hlength, h.next, UInt64.ofNat_add, UInt64.add_assoc]
    rfl
  · rw [hcalls, hlength, List.length_append]
    exact Nat.succ_le_succ h.few

theorem Behind.assigned {done : List NodeId} {before : List BuildTurn} {run : BuildRun (σ × List Call)}
    (hstart : start.activeByKey = ∅) (h : Behind ex graph start done before run) :
    Assigned graph start.nextJob done before run := by
  induction h with
  | start =>
    refine ⟨rfl, by simp, by simp, fun hex job => ?_, by simp, by simp, by simp⟩
    simp [hstart]
  | attached _ hnode hactive ih => exact ih.attached hnode hactive
  | @ran _ _ run _ nodeId node result hnode hactive hanswer hlease hattempt ih =>
    exact ih.ran hnode hactive ⟨result, hanswer, hlease, hattempt⟩ _
      (activeByKey_afterCall ex run nodeId node) (nextJob_afterCall ex run nodeId node)

theorem length_le_of_nodup {order : List NodeId} (h : order.Nodup) : order.length ≤ 2 ^ 64 := by
  -- there are `2 ^ 64` ids
  have hinjective : Function.Injective fun id : NodeId => id.value.toFin := by
    rintro ⟨v⟩ ⟨w⟩ hvalue
    exact congrArg Id.mk (UInt64.toFin_inj.mp hvalue)
  have hcard := (h.map hinjective).length_le_card
  rwa [List.length_map, Fintype.card_fin] at hcard

theorem Assigned.jobs_nodup {graph : BuildGraph} {first : UInt64} {done : List NodeId}
    {before : List BuildTurn} {run : BuildRun (σ × List Call)}
    (h : Assigned graph first done before run) (hfew : done.length ≤ 2 ^ 64) :
    ((before.flatMap BuildTurn.calls).map (·.spec.job.value)).Nodup := by
  rw [h.numbered]
  refine List.Nodup.map_on (fun i hi j hj hsame => ?_) List.nodup_range
  rw [List.mem_range] at hi hj
  have hlimit := h.few
  have hoffset := congrArg UInt64.toNat (UInt64.add_right_inj first |>.mp hsame)
  rwa [UInt64.toNat_ofNat', UInt64.toNat_ofNat', Nat.mod_eq_of_lt (by omega),
    Nat.mod_eq_of_lt (by omega)] at hoffset

theorem Assigned.job_eq_iff {graph : BuildGraph} {first : UInt64} {done : List NodeId}
    {before : List BuildTurn} {run : BuildRun (σ × List Call)}
    (h : Assigned graph first done before run) (hfew : done.length ≤ 2 ^ 64) {call : Call}
    (hcall : call ∈ before.flatMap BuildTurn.calls) {node : BuildNode} {job : JobId}
    (hactive : run.activeByKey[(actionKeyFor node [] []).hex]? = some job) :
    call.spec.job = job ↔ call.spec.actionKey = actionKeyFor node [] [] := by
  constructor
  · intro hjob
    obtain ⟨other, hother, hkey, hsame⟩ := (h.keys _ _).mp hactive
    have hvalue : other.spec.job.value = call.spec.job.value := by rw [hsame, hjob]
    obtain rfl := List.inj_on_of_nodup_map (h.jobs_nodup hfew) hother hcall hvalue
    exact hex_injective hkey
  · intro hkey
    have hown := (h.keys (actionKeyFor node [] []).hex call.spec.job).mpr
      ⟨call, hcall, by rw [hkey], rfl⟩
    rw [hactive] at hown
    exact (Option.some.inj hown).symm

theorem Assigned.artifactsFor_eq {graph : BuildGraph} {first : UInt64} {done : List NodeId}
    {before : List BuildTurn} {run : BuildRun (σ × List Call)}
    (h : Assigned graph first done before run) (hfew : done.length ≤ 2 ^ 64) {nodeId : NodeId}
    (hmem : nodeId ∈ done) :
    artifactsFor before nodeId = artifactsUnderKey graph (before.flatMap BuildTurn.calls) nodeId := by
  rw [← h.nodes] at hmem
  obtain ⟨turn', hturn', hnodeId'⟩ := List.mem_map.mp hmem
  obtain ⟨turn, hfind⟩ : ∃ turn, before.find? (·.node = nodeId) = some turn :=
    Option.isSome_iff_exists.mp (List.find?_isSome.mpr ⟨turn', hturn', by simpa using hnodeId'⟩)
  have hnodeId : turn.node = nodeId := by simpa using List.find?_some hfind
  obtain ⟨node, job, hnode, hjob, hactive⟩ := h.jobs turn (List.mem_of_find?_eq_some hfind)
  unfold artifactsFor artifactsUnderKey
  rw [hfind, ← hnodeId, hnode]
  simp only
  congr 1
  refine List.filter_congr fun call hcall => ?_
  rw [hjob, decide_eq_decide, Option.some_inj]
  exact h.job_eq_iff hfew hcall hactive

theorem Assigned.dependencyArtifacts_eq {graph : BuildGraph} {first : UInt64} {done : List NodeId}
    {before : List BuildTurn} {run : BuildRun (σ × List Call)}
    (h : Assigned graph first done before run) (hfew : done.length ≤ 2 ^ 64) {nodeId : NodeId}
    (hdeps : ∀ dep, graph.DependsOn nodeId dep → dep ∈ done) :
    dependencyArtifacts graph (artifactsFor before) nodeId =
      dependencyArtifacts graph (artifactsUnderKey graph (before.flatMap BuildTurn.calls)) nodeId := by
  unfold dependencyArtifacts
  refine List.flatMap_congr fun dep hdep => h.artifactsFor_eq hfew (hdeps dep ?_)
  exact (mem_dependencies_toList graph nodeId dep).mp hdep

theorem Assigned.key_eq {graph : BuildGraph} {first : UInt64} {done : List NodeId}
    {before : List BuildTurn} {run : BuildRun (σ × List Call)}
    (h : Assigned graph first done before run) (hfew : done.length ≤ 2 ^ 64) {node node' : BuildNode}
    {job : JobId} (hactive : run.activeByKey[(actionKeyFor node [] []).hex]? = some job)
    (hactive' : run.activeByKey[(actionKeyFor node' [] []).hex]? = some job) :
    actionKeyFor node [] [] = actionKeyFor node' [] [] := by
  obtain ⟨call, hcall, hkey, hjob⟩ := (h.keys _ _).mp hactive
  rw [← (h.job_eq_iff hfew hcall hactive').mp hjob]
  exact (hex_injective hkey).symm

end BuildRun

/-! ## The build -/

theorem PlansFor.deps_done {graph : BuildGraph} {targets done rest : List NodeId}
    {nodeId : NodeId} (h : PlansFor graph targets (done ++ nodeId :: rest)) {v : NodeId}
    (hv : v ∈ done ∨ v = nodeId) : ∀ dep, graph.DependsOn v dep → dep ∈ done := by
  intro dep hdep
  rcases hv with hv | rfl
  · obtain ⟨b, a, rfl⟩ := List.append_of_mem hv
    have hbefore := h.sorted b v (a ++ nodeId :: rest) (by simp) dep hdep
    exact List.mem_append_left _ hbefore
  · exact h.sorted done v rest rfl dep hdep

namespace WorkspaceCore

variable {σ : Type}

/-- Where the loop gets to a planned node behind another one with the same key material, the two have
the same action, and the same was answered for their dependencies. -/
def SameKeySameInputs (workspace : WorkspaceCore) (ex : Executor σ) (targets : List NodeId)
    (executor : σ) : Prop :=
  ∀ order, workspace.Reaches targets order → ∀ done nodeId rest, order = done ++ nodeId :: rest →
    let calls := answers ex executor
      (plannedJobs workspace.graph { executor := () } workspace.nextJob [] done)
    (∀ call ∈ calls, call.Current) → ∀ earlier ∈ done, ∀ node node',
      workspace.graph.nodes[earlier]? = some node → workspace.graph.nodes[nodeId]? = some node' →
        node.material = node'.material →
          node.action = node'.action ∧
            dependencyArtifacts workspace.graph (artifactsUnderKey workspace.graph calls) earlier =
              dependencyArtifacts workspace.graph (artifactsUnderKey workspace.graph calls) nodeId

/-- Nodes with the same action have the same dependencies; their strings are shorter than 2^32 bytes. -/
structure UniformDependencies (graph : BuildGraph) : Prop where
  short : ∀ v ∈ graph.nodes.toList, ActionTuple.Short ⟨v.2.action, [], []⟩
  uniform : ∀ v ∈ graph.nodes.toList, ∀ w ∈ graph.nodes.toList, v.2.action = w.2.action →
    (graph.snapshot.dependencies v.1).toList = (graph.snapshot.dependencies w.1).toList

section

variable {workspace : WorkspaceCore} {ex : Executor σ} {targets order : List NodeId} {executor : σ}

theorem UniformDependencies.sameInputs (h : UniformDependencies workspace.graph) :
    workspace.SameKeySameInputs ex targets executor := by
  intro order _ done nodeId rest _ calls _ earlier _ node node' hnode hnode' hmaterial
  have hmem := ExtTreeMap.mem_toList_iff_getElem?_eq_some.mpr hnode
  have hmem' := ExtTreeMap.mem_toList_iff_getElem?_eq_some.mpr hnode'
  have haction : node.action = node'.action :=
    BuildNode.action_eq_of_material (h.short _ hmem) (h.short _ hmem') hmaterial
  refine ⟨haction, ?_⟩
  unfold dependencyArtifacts
  rw [h.uniform _ hmem _ hmem' haction]

theorem behind_facts (hreaches : workspace.Reaches targets order) {done rest : List NodeId}
    {nodeId : NodeId} (hsplit : order = done ++ nodeId :: rest) {before : List BuildTurn}
    {run : BuildRun (σ × List Call)}
    (h : BuildRun.Behind ex workspace.graph (workspace.start (executor, [])) done before run) :
    BuildRun.Assigned workspace.graph workspace.nextJob done before run ∧ done.length ≤ 2 ^ 64 ∧
      before.flatMap BuildTurn.calls = answers ex executor
        (plannedJobs workspace.graph { executor := () } workspace.nextJob [] done) := by
  obtain ⟨hnodes, hplans⟩ := hreaches.plansFor
  have hdone : ∀ v ∈ done, v ∈ workspace.graph.nodes := fun v hv => hnodes v (by simp [hsplit, hv])
  refine ⟨h.assigned rfl, ?_, ?_⟩
  · have hall := BuildRun.length_le_of_nodup hplans.nodup
    rw [hsplit, List.length_append] at hall
    omega
  · have hturns := h.turns_eq []
    rw [List.append_nil, BuildRun.turns, List.append_nil] at hturns
    rw [← hturns]
    exact BuildRun.turns_calls done _ [] hdone (by simp [start])

theorem shares_of_same (hreaches : workspace.Reaches targets order)
    (hdistinct : NoCollision workspace.graph) (hsame : workspace.SameKeySameInputs ex targets executor) :
    SharesSameWork workspace.graph
      ((workspace.start (executor, ([] : List Call))).turns ex workspace.graph order) := by
  obtain ⟨hnodes, hplans⟩ := hreaches.plansFor
  intro before turn after hturns hevents earlier hearlier hjob
  obtain ⟨done, nodeId, later, run, hsplit, hbehind, hnext⟩ :=
    BuildRun.Behind.split order hnodes .start hturns
  rw [List.nil_append, List.nil_append] at hbehind
  obtain ⟨hassigned, hfew, hcalls⟩ := behind_facts hreaches hsplit hbehind
  obtain ⟨node', hnode'⟩ := BuildGraph.exists_node (hnodes nodeId (by simp [hsplit]))
  obtain ⟨node, job, hnode, hearlierJob, hactive⟩ := hassigned.jobs earlier hearlier
  have hdone : earlier.node ∈ done := hassigned.nodes ▸ List.mem_map_of_mem hearlier
  cases hactive' : run.activeByKey[(actionKeyFor node' [] []).hex]? with
  | none =>
    -- a node that gets a job of its own is not announced as queued
    exfalso
    by_cases hcurrent : (run.nextCall ex nodeId node').Current
    · obtain ⟨result, hanswer, hlease, hattempt⟩ := hcurrent
      rw [BuildRun.turns_current ex workspace.graph run hnode' hactive' hanswer hlease hattempt] at hnext
      obtain ⟨rfl, _⟩ := List.cons.inj hnext
      simp at hevents
    · obtain ⟨status, hlast⟩ :=
        BuildRun.turns_not_current ex workspace.graph run hnode' hactive' hcurrent later
      rw [hlast] at hnext
      obtain ⟨rfl, _⟩ := List.cons.inj hnext
      simp at hevents
  | some job' =>
    rw [BuildRun.turns_attached ex workspace.graph run hnode' hactive'] at hnext
    obtain ⟨rfl, _⟩ := List.cons.inj hnext
    dsimp only at hjob ⊢
    obtain rfl : job = job' := Option.some.inj (hearlierJob.symm.trans hjob)
    have hmaterial := hdistinct.material_eq hnode hnode' (hassigned.key_eq hfew hactive hactive')
    have hcurrent := hassigned.current
    rw [hcalls] at hcurrent
    obtain ⟨haction, hartifacts⟩ := hsame order hreaches done nodeId later hsplit hcurrent earlier.node
      hdone node node' hnode hnode' hmaterial
    have hdeps {v : NodeId} (hv : v ∈ done ∨ v = nodeId) := (hsplit ▸ hplans).deps_done hv
    refine ⟨by rw [hnode, hnode', Option.map_some, Option.map_some, haction], ?_⟩
    rw [hassigned.dependencyArtifacts_eq hfew (hdeps (.inl hdone)),
      hassigned.dependencyArtifacts_eq hfew (hdeps (.inr rfl)), hcalls]
    exact hartifacts

theorem sharesSameWork_nil (graph : BuildGraph) : SharesSameWork graph [] :=
  fun before turn after hsplit => by simp at hsplit

theorem same_of_shares (hreaches : workspace.Reaches targets order)
    (hshares : SharesSameWork workspace.graph
      ((workspace.start (executor, ([] : List Call))).turns ex workspace.graph order)) :
    workspace.SameKeySameInputs ex targets executor := by
  intro order' hreaches' done nodeId rest hsplit calls hcurrent earlier hearlier node node' hnode hnode'
    hmaterial
  obtain rfl : order = order' := Except.ok.inj (hreaches.planned.symm.trans hreaches'.planned)
  obtain ⟨hnodes, hplans⟩ := hreaches.plansFor
  have hdone : ∀ v ∈ done, v ∈ workspace.graph.nodes := fun v hv => hnodes v (by simp [hsplit, hv])
  have hcallsDone := @BuildRun.turns_calls _ ex workspace.graph done
    (workspace.start (executor, ([] : List Call))) [] hdone (by simp [start])
  obtain ⟨before, run, hbehind⟩ := BuildRun.Behind.complete done hdone
    (@BuildRun.Behind.start σ ex workspace.graph (workspace.start (executor, [])))
    (by rw [hcallsDone]; exact hcurrent)
  rw [List.nil_append] at hbehind
  obtain ⟨hassigned, hfew, hcalls⟩ := behind_facts hreaches hsplit hbehind
  have hturns := hbehind.turns_eq (nodeId :: rest)
  rw [← hsplit] at hturns
  have hkey : actionKeyFor node [] [] = actionKeyFor node' [] [] := congrArg (digestBytes "action") hmaterial
  -- the node is attached to the job of the earlier one
  obtain ⟨turn, hturn, hturnNode⟩ := List.mem_map.mp (hassigned.nodes.symm ▸ hearlier)
  obtain ⟨turnNode, job, hturnNode', hjob, hactive⟩ := hassigned.jobs turn hturn
  rw [hturnNode, hnode] at hturnNode'
  obtain rfl := Option.some.inj hturnNode'
  rw [hkey] at hactive
  rw [BuildRun.turns_attached ex workspace.graph run hnode' hactive] at hturns
  obtain ⟨haction, hartifacts⟩ := hshares before _ _ hturns rfl turn hturn hjob
  dsimp only at haction hartifacts
  rw [hturnNode] at haction hartifacts
  have hdeps {v : NodeId} (hv : v ∈ done ∨ v = nodeId) := (hsplit ▸ hplans).deps_done hv
  rw [hassigned.dependencyArtifacts_eq hfew (hdeps (.inl hearlier)),
    hassigned.dependencyArtifacts_eq hfew (hdeps (.inr rfl)), hcalls] at hartifacts
  refine ⟨?_, hartifacts⟩
  simpa [hnode, hnode'] using haction

end

/-- **When nodes share jobs only for the same work**: exactly when, wherever the loop gets, planned nodes
with one key material have the same action and the same was answered for their dependencies. -/
theorem build_shares_same_work_iff (ex : Executor σ) (workspace : WorkspaceCore)
    (targets : List NodeId) (executor : σ) (hdistinct : NoCollision workspace.graph) :
    SharesSameWork workspace.graph (workspace.buildTurns ex targets executor) ↔
      workspace.SameKeySameInputs ex targets executor := by
  by_cases hreaches : ∃ order, workspace.Reaches targets order
  · obtain ⟨order, hreaches⟩ := hreaches
    rw [buildTurns_of_reaches hreaches]
    exact ⟨same_of_shares hreaches, shares_of_same hreaches hdistinct⟩
  · rw [buildTurns_of_not_reaches hreaches]
    exact iff_of_true (sharesSameWork_nil _) fun order h => absurd ⟨order, h⟩ hreaches

/-- **Nodes with the same dependencies.** Where nodes with the same command and options depend on the same
nodes, every build shares jobs only for the same work, whatever the executor answers. -/
theorem build_shares_of_uniform {workspace : WorkspaceCore} (hdistinct : NoCollision workspace.graph)
    (huniform : UniformDependencies workspace.graph) (ex : Executor σ) (targets : List NodeId)
    (executor : σ) :
    SharesSameWork workspace.graph (workspace.buildTurns ex targets executor) := by
  by_cases hreaches : ∃ order, workspace.Reaches targets order
  · obtain ⟨order, hreaches⟩ := hreaches
    rw [buildTurns_of_reaches hreaches]
    exact shares_of_same hreaches hdistinct huniform.sameInputs
  · rw [buildTurns_of_not_reaches hreaches]
    exact sharesSameWork_nil _

/-- A second node with the command and the dependency of the first. -/
def twinWorkspace : WorkspaceCore :=
  { pairWorkspace with graph :=
    ((pairWorkspace.graph.putNode "app2" { command := "ld app" }).2.putEdge ⟨3⟩ ⟨1⟩ .declared).2 }

theorem twinWorkspace_uniform : UniformDependencies twinWorkspace.graph := by
  constructor
  · decide +kernel
  · decide +kernel

/-- Such nodes share a job for the same work. -/
theorem build_shares_same_work_iff_twins :
    SharesSameWork twinWorkspace.graph
      (twinWorkspace.buildTurns DeterministicMockExecutor.executor [⟨2⟩, ⟨3⟩] {}) := by
  exact (build_shares_same_work_iff _ _ _ _ (by decide +kernel)).mpr twinWorkspace_uniform.sameInputs

/-- Its builds share jobs only for the same work. -/
theorem build_shares_of_uniform_twins :
    SharesSameWork twinWorkspace.graph
      (twinWorkspace.buildTurns DeterministicMockExecutor.executor [⟨3⟩, ⟨2⟩, ⟨1⟩] {}) :=
  build_shares_of_uniform (by decide +kernel) twinWorkspace_uniform _ _ _

/-- A second node with the command of the first and a dependency of its own. -/
def forkWorkspace : WorkspaceCore :=
  { pairWorkspace with graph :=
    (((pairWorkspace.graph.putNode "lib2" { command := "cc lib2" }).2.putNode "app2"
      { command := "ld app" }).2.putEdge ⟨4⟩ ⟨3⟩ .declared).2 }

/-- It is attached to the job of the first, though different artifacts have been produced for their
dependencies. -/
theorem build_shares_different_work :
    let turns := forkWorkspace.buildTurns DeterministicMockExecutor.executor [⟨2⟩, ⟨4⟩] {}
    forkWorkspace.graph.cycleWitness = none ∧ NoCollision forkWorkspace.graph ∧
      turns.map (fun turn => (turn.node, turn.events.map BuildEvent.kind)) =
        [(⟨1⟩, [.running, .succeeded]), (⟨2⟩, [.running, .succeeded]), (⟨3⟩, [.running, .succeeded]),
          (⟨4⟩, [.queued])] ∧
      ¬ SharesSameWork forkWorkspace.graph turns := by
  intro turns
  refine ⟨by decide +kernel, by decide +kernel, by decide +kernel, fun hshares => ?_⟩
  have hlast : (turns.drop 3).map (fun turn => (turn.node, turn.job, turn.events)) =
      [(⟨4⟩, some ⟨2⟩, [queuedEvent])] := by decide +kernel
  have hearlier : ∃ turn ∈ turns.take 3, turn.node = ⟨2⟩ ∧ turn.job = some ⟨2⟩ := by decide +kernel
  have hdifferent : dependencyArtifacts forkWorkspace.graph (artifactsFor (turns.take 3)) ⟨2⟩ ≠
      dependencyArtifacts forkWorkspace.graph (artifactsFor (turns.take 3)) ⟨4⟩ := by decide +kernel
  obtain ⟨turn, after, hdrop, hturn, _⟩ := List.map_eq_cons_iff.mp hlast
  obtain ⟨hnode, hjob, hevents⟩ : turn.node = ⟨4⟩ ∧ turn.job = some ⟨2⟩ ∧ turn.events = [queuedEvent] := by
    simpa using hturn
  obtain ⟨earlier, hmem, hearlierNode, hearlierJob⟩ := hearlier
  have hsplit : turns = turns.take 3 ++ turn :: after := by rw [← hdrop, List.take_append_drop]
  have hsame := (hshares _ _ _ hsplit hevents earlier hmem (hearlierJob.trans hjob.symm)).2
  rw [hearlierNode, hnode] at hsame
  exact hdifferent hsame

end WorkspaceCore

end Forge
