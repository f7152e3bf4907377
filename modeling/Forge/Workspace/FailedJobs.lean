import Forge.Workspace.Build

/-!
# Failed jobs

The `success` field of an answer is not read in a build: an answer without it is announced and its node
counts as done. So a build keeps to jobs that succeeded exactly when the executor reports failures by
other means, as errors or as answers under another lease (`build_respects_failures_iff`).
-/

namespace Forge

open Std (ExtTreeMap)

/-! ## Definitions -/

/-- The jobs of a plan, one for each distinct action key, with their leases: what the executor is asked
as long as every answer is accepted. `seen` are the keys that have a job. -/
def plannedJobs (graph : BuildGraph) :
    ExecutorManager Unit → UInt64 → List Str → List NodeId → List (WorkerLease × JobSpec)
  | _, _, _, [] => []
  | manager, nextJob, seen, nodeId :: rest =>
    match graph.nodes[nodeId]? with
    | none => []
    | some node =>
      let key := actionKeyFor node [] []
      if key.hex ∈ seen then
        plannedJobs graph manager nextJob seen rest
      else
        let (lease, manager) := manager.lease ⟨nextJob⟩
        (lease, { job := ⟨nextJob⟩, node := nodeId, nodeGeneration := node.generation, actionKey := key }) ::
          plannedJobs graph manager (nextJob + 1) (key.hex :: seen) rest

/-- Asked for the jobs one after the other, the executor never gives a current answer without success. -/
def ReportsFailures {σ : Type} (ex : Executor σ) : σ → List (WorkerLease × JobSpec) → Prop
  | _, [] => True
  | executor, (lease, spec) :: jobs =>
    let (answer, executor) := ex.run executor lease spec
    (⟨lease, spec, answer⟩ : Call).Current →
      (⟨lease, spec, answer⟩ : Call).Successful ∧ ReportsFailures ex executor jobs

/-- The job of the node, as one of the turns left it, was run with success. -/
def Answered (turns : List BuildTurn) (node : NodeId) : Prop :=
  ∃ turn ∈ turns, turn.node = node ∧
    ∃ call ∈ turns.flatMap BuildTurn.calls, turn.job = some call.spec.job ∧ call.Successful

/-- A turn announces its node only behind a successful answer. -/
def BuildTurn.Announces (turn : BuildTurn) : Prop :=
  ∀ event ∈ turn.events, event.kind = .succeeded →
    ∃ call ∈ turn.calls, call.spec.node = turn.node ∧ call.Successful

instance (turn : BuildTurn) : Decidable turn.Announces :=
  inferInstanceAs (Decidable (∀ event ∈ turn.events, _))

/-- A build announces a node, and asks for one, only behind successful answers. -/
structure BuildsOnSuccess (graph : BuildGraph) (turns : List BuildTurn) : Prop where
  announced : ∀ turn ∈ turns, turn.Announces
  ordered : ∀ before turn after, turns = before ++ turn :: after → ∀ call ∈ turn.calls,
    ∀ dep, graph.DependsOn call.spec.node dep → Answered before dep

namespace BuildRun

variable {σ : Type} (ex : Executor σ) (graph : BuildGraph)

/-- The manager without its executor. -/
def leases (run : BuildRun σ) : ExecutorManager Unit := { run.manager with executor := () }

section

variable (run : BuildRun (σ × List Call)) (nodeId : NodeId) (node : BuildNode)

/-- The lease and the job of the next call. -/
def nextLease : WorkerLease := (run.manager.lease ⟨run.nextJob⟩).1

def nextSpec : JobSpec :=
  { job := ⟨run.nextJob⟩, node := nodeId, nodeGeneration := node.generation,
    actionKey := actionKeyFor node [] [] }

theorem nextCall_eq : run.nextCall ex nodeId node =
    ⟨run.nextLease, run.nextSpec nodeId node,
      (ex.run run.manager.executor.1 run.nextLease (run.nextSpec nodeId node)).1⟩ := by
  rw [nextCall, dispatch_eq]
  rfl

theorem spec_nextCall : (run.nextCall ex nodeId node).spec = run.nextSpec nodeId node := by
  rw [nextCall_eq]

theorem executor_afterCall : (run.afterCall ex nodeId node).manager.executor.1 =
    (ex.run run.manager.executor.1 run.nextLease (run.nextSpec nodeId node)).2 := by
  rw [afterCall, dispatch_eq]
  rfl

theorem leases_afterCall :
    (run.afterCall ex nodeId node).leases = (run.leases.lease ⟨run.nextJob⟩).2 := by
  rw [afterCall, dispatch_eq]
  rfl

theorem nextJob_afterCall : (run.afterCall ex nodeId node).nextJob = run.nextJob + 1 := by
  rw [afterCall, dispatch_eq]

variable {node} in
theorem plannedJobs_next (hnode : graph.nodes[nodeId]? = some node) {seen : List Str}
    (hmem : (actionKeyFor node [] []).hex ∉ seen) (rest : List NodeId) :
    plannedJobs graph run.leases run.nextJob seen (nodeId :: rest) =
      (run.nextLease, run.nextSpec nodeId node) ::
        plannedJobs graph (run.afterCall ex nodeId node).leases (run.afterCall ex nodeId node).nextJob
          ((actionKeyFor node [] []).hex :: seen) rest := by
  rw [plannedJobs, hnode, leases_afterCall, nextJob_afterCall]
  simp only [if_neg hmem]
  rfl

variable {node} in
theorem plannedJobs_attached (hnode : graph.nodes[nodeId]? = some node) {seen : List Str}
    (hmem : (actionKeyFor node [] []).hex ∈ seen) (rest : List NodeId) :
    plannedJobs graph run.leases run.nextJob seen (nodeId :: rest) =
      plannedJobs graph run.leases run.nextJob seen rest := by
  rw [plannedJobs, hnode]
  simp only [if_pos hmem]

theorem mem_seen_of_job {seen : List Str} (hseen : ∀ hex, hex ∈ seen ↔ hex ∈ run.activeByKey) {hex : Str}
    {job : JobId} (hactive : run.activeByKey[hex]? = some job) : hex ∈ seen :=
  (hseen hex).mpr (ExtTreeMap.mem_of_getElem?_eq_some hactive)

theorem not_mem_seen_of_no_job {seen : List Str} (hseen : ∀ hex, hex ∈ seen ↔ hex ∈ run.activeByKey)
    {hex : Str} (hactive : run.activeByKey[hex]? = none) : hex ∉ seen := by
  rw [hseen]
  exact ExtTreeMap.not_mem_iff.mpr hactive

theorem seen_afterCall {seen : List Str} (hseen : ∀ hex, hex ∈ seen ↔ hex ∈ run.activeByKey) :
    ∀ hex, hex ∈ (actionKeyFor node [] []).hex :: seen ↔
      hex ∈ (run.afterCall ex nodeId node).activeByKey := by
  intro hex
  rw [activeByKey_afterCall, ExtTreeMap.mem_insert, List.mem_cons, hseen, Std.compare_eq_iff_eq, eq_comm]

theorem reportsFailures_cons (jobs : List (WorkerLease × JobSpec)) :
    ReportsFailures ex run.manager.executor.1 ((run.nextLease, run.nextSpec nodeId node) :: jobs) ↔
      ((run.nextCall ex nodeId node).Current → (run.nextCall ex nodeId node).Successful ∧
        ReportsFailures ex (run.afterCall ex nodeId node).manager.executor.1 jobs) := by
  rw [nextCall_eq, executor_afterCall]
  rfl

end

theorem announces_attached (nodeId : NodeId) (job : JobId) :
    (⟨nodeId, some job, [], [queuedEvent]⟩ : BuildTurn).Announces := by
  simp [BuildTurn.Announces, queuedEvent]

theorem announces_failed (nodeId : NodeId) (job : Option JobId) (calls : List Call) (node : BuildNode)
    (status : Status) :
    (⟨nodeId, job, calls, [runningEvent node, failedEvent status]⟩ : BuildTurn).Announces := by
  simp [BuildTurn.Announces, runningEvent, failedEvent]

theorem announces_succeeded_iff {nodeId : NodeId} {job : Option JobId} {call : Call} {node : BuildNode}
    (hnode : call.spec.node = nodeId) :
    (⟨nodeId, job, [call], [runningEvent node, succeededEvent node]⟩ : BuildTurn).Announces ↔
      call.Successful := by
  simp [BuildTurn.Announces, runningEvent, succeededEvent, hnode]

/-- **Every turn announces successes only exactly when the executor reports its failures.** -/
theorem announces_iff (order : List NodeId) : ∀ (run : BuildRun (σ × List Call)) (seen : List Str),
    (∀ v ∈ order, v ∈ graph.nodes) → (∀ hex, hex ∈ seen ↔ hex ∈ run.activeByKey) →
      ((∀ turn ∈ run.turns ex graph order, turn.Announces) ↔
        ReportsFailures ex run.manager.executor.1
          (plannedJobs graph run.leases run.nextJob seen order)) := by
  induction order with
  | nil => intro run seen _ _; simp [turns, plannedJobs, ReportsFailures]
  | cons nodeId rest ih =>
    intro run seen hnodes hseen
    have hrest : ∀ v ∈ rest, v ∈ graph.nodes := fun v hv => hnodes v (List.mem_cons_of_mem _ hv)
    obtain ⟨node, hnode⟩ := BuildGraph.exists_node (hnodes nodeId List.mem_cons_self)
    cases hactive : run.activeByKey[(actionKeyFor node [] []).hex]? with
    | some job =>
      have hmem := mem_seen_of_job run hseen hactive
      rw [turns_attached ex graph run hnode hactive, List.forall_mem_cons,
        plannedJobs_attached graph run nodeId hnode hmem]
      simp only [announces_attached, true_and]
      exact ih (run.emit queuedEvent) seen hrest hseen
    | none =>
      have hmem := not_mem_seen_of_no_job run hseen hactive
      rw [plannedJobs_next ex graph run nodeId hnode hmem, reportsFailures_cons]
      by_cases hcurrent : (run.nextCall ex nodeId node).Current
      · obtain ⟨result, hanswer, hlease, hattempt⟩ := hcurrent
        have htail := ih (((run.afterCall ex nodeId node).published result.artifacts).emit
          (succeededEvent node)) ((actionKeyFor node [] []).hex :: seen) hrest
          (seen_afterCall ex run nodeId node hseen)
        rw [turns_current ex graph run hnode hactive hanswer hlease hattempt, List.forall_mem_cons,
          announces_succeeded_iff (by rw [nextCall_eq]; rfl), htail]
        exact ⟨fun h _ => h, fun h => h ⟨result, hanswer, hlease, hattempt⟩⟩
      · obtain ⟨status, hturns⟩ := turns_not_current ex graph run hnode hactive hcurrent rest
        rw [hturns, List.forall_mem_singleton]
        exact iff_of_true (announces_failed nodeId _ _ node status) fun h => absurd h hcurrent

/-! ## Dependencies come first -/

theorem answered_append {before : List BuildTurn} {v : NodeId} (h : Answered before v)
    (more : List BuildTurn) :
    Answered (before ++ more) v := by
  obtain ⟨turn, hturn, hnode, call, hcall, hjob⟩ := h
  refine ⟨turn, List.mem_append_left _ hturn, hnode, call, ?_, hjob⟩
  rw [List.flatMap_append]
  exact List.mem_append_left _ hcall

/-- Behind the turns `before` for the nodes `done`: every job that exists was run with success, and so
was that of every node. -/
structure JobsSucceeded (run : BuildRun (σ × List Call)) (before : List BuildTurn) (done : List NodeId) :
    Prop where
  jobs : ∀ (hex : Str) (job : JobId), run.activeByKey[hex]? = some job →
    ∃ call ∈ before.flatMap BuildTurn.calls, call.spec.job = job ∧ call.Successful
  answered : ∀ v ∈ done, Answered before v

variable {ex graph}

theorem JobsSucceeded.attached {run : BuildRun (σ × List Call)} {before : List BuildTurn}
    {done : List NodeId} (h : JobsSucceeded run before done) {nodeId : NodeId} {hex : Str} {job : JobId}
    (hactive : run.activeByKey[hex]? = some job) :
    JobsSucceeded (run.emit queuedEvent) (before ++ [⟨nodeId, some job, [], [queuedEvent]⟩])
      (done ++ [nodeId]) := by
  have hcalls : (before ++ [(⟨nodeId, some job, [], [queuedEvent]⟩ : BuildTurn)]).flatMap
      BuildTurn.calls = before.flatMap BuildTurn.calls := by simp
  refine ⟨fun hex' job' hactive' => ?_, fun v hv => ?_⟩
  · rw [hcalls]
    exact h.jobs hex' job' hactive'
  · rcases List.mem_append.mp hv with hv | hv
    · exact answered_append (h.answered v hv) _
    · obtain ⟨call, hcall, hjob, hsuccess⟩ := h.jobs hex job hactive
      refine ⟨_, List.mem_append_right _ List.mem_cons_self, (List.mem_singleton.mp hv).symm, call, ?_,
        congrArg some hjob.symm, hsuccess⟩
      rwa [hcalls]

theorem JobsSucceeded.succeeded {run : BuildRun (σ × List Call)} {before : List BuildTurn}
    {done : List NodeId} (h : JobsSucceeded run before done) (run' : BuildRun (σ × List Call))
    (nodeId : NodeId) (events : List BuildEvent) {hex : Str} {call : Call}
    (hkeys : run'.activeByKey = run.activeByKey.insert hex call.spec.job) (hsuccess : call.Successful) :
    JobsSucceeded run' (before ++ [⟨nodeId, some call.spec.job, [call], events⟩]) (done ++ [nodeId]) := by
  have hmem : call ∈ (before ++ [(⟨nodeId, some call.spec.job, [call], events⟩ : BuildTurn)]).flatMap
      BuildTurn.calls := by simp
  refine ⟨fun hex' job hactive => ?_, fun v hv => ?_⟩
  · rw [hkeys] at hactive
    obtain ⟨_, rfl⟩ | ⟨_, hkept⟩ := ExtTreeMap.getElem?_insert_cases hactive
    · exact ⟨call, hmem, rfl, hsuccess⟩
    · obtain ⟨earlier, hearlier, hjob⟩ := h.jobs hex' job hkept
      refine ⟨earlier, ?_, hjob⟩
      rw [List.flatMap_append]
      exact List.mem_append_left _ hearlier
  · rcases List.mem_append.mp hv with hv | hv
    · exact answered_append (h.answered v hv) _
    · exact ⟨_, List.mem_append_right _ List.mem_cons_self, (List.mem_singleton.mp hv).symm, call, hmem,
        rfl, hsuccess⟩

/-- **A dependency is behind a successful answer when its node is asked for**, if every turn announces
successes only. -/
theorem ordered_of_announces {plan : List NodeId} (hnodes : ∀ v ∈ plan, v ∈ graph.nodes)
    (hsorted : ∀ b v a, plan = b ++ v :: a → ∀ dep, graph.DependsOn v dep → dep ∈ b) (rest : List NodeId) :
    ∀ (run : BuildRun (σ × List Call)) (before : List BuildTurn) (done : List NodeId), plan = done ++ rest →
      JobsSucceeded run before done → (∀ turn ∈ run.turns ex graph rest, turn.Announces) →
      ∀ b turn a, run.turns ex graph rest = b ++ turn :: a → ∀ call ∈ turn.calls,
        ∀ dep, graph.DependsOn call.spec.node dep → Answered (before ++ b) dep := by
  induction rest with
  | nil =>
    intro run before done _ _ _ b turn a hsplit
    simp [turns] at hsplit
  | cons nodeId rest ih =>
    intro run before done hplan hinv hannounces b turn a hsplit call hcall dep hdep
    have hmem : nodeId ∈ graph.nodes := hnodes nodeId (by simp [hplan])
    obtain ⟨node, hnode⟩ := BuildGraph.exists_node hmem
    have hplan' : plan = (done ++ [nodeId]) ++ rest := by simp [hplan]
    -- the first turn asks for `nodeId` itself, whose dependencies are all done
    have hfirst (hcallNode : call.spec.node = nodeId) : Answered (before ++ []) dep := by
      rw [List.append_nil]
      exact hinv.answered dep (hsorted done nodeId rest hplan dep (hcallNode ▸ hdep))
    cases hactive : run.activeByKey[(actionKeyFor node [] []).hex]? with
    | some job =>
      rw [turns_attached ex graph run hnode hactive] at hsplit hannounces
      cases b with
      | nil =>
        obtain ⟨rfl, _⟩ := List.cons.inj hsplit
        cases hcall
      | cons first b =>
        obtain ⟨rfl, hlater⟩ := List.cons.inj hsplit
        have htail := ih (run.emit queuedEvent) _ _ hplan' (hinv.attached hactive)
          (List.forall_mem_cons.mp hannounces).2 b turn a hlater call hcall dep hdep
        rwa [List.append_assoc] at htail
    | none =>
      have hspec := spec_nextCall ex run nodeId node
      by_cases hcurrent : (run.nextCall ex nodeId node).Current
      · obtain ⟨result, hanswer, hlease, hattempt⟩ := hcurrent
        rw [turns_current ex graph run hnode hactive hanswer hlease hattempt] at hsplit hannounces
        obtain ⟨hannounce, hannounces⟩ := List.forall_mem_cons.mp hannounces
        rw [announces_succeeded_iff (by rw [hspec]; rfl)] at hannounce
        cases b with
        | nil =>
          obtain ⟨rfl, _⟩ := List.cons.inj hsplit
          obtain rfl := List.mem_singleton.mp hcall
          exact hfirst (by rw [hspec]; rfl)
        | cons first b =>
          obtain ⟨rfl, hlater⟩ := List.cons.inj hsplit
          have hjob : (run.nextCall ex nodeId node).spec.job = ⟨run.nextJob⟩ := by rw [hspec]; rfl
          have hnext := hinv.succeeded
            (((run.afterCall ex nodeId node).published result.artifacts).emit (succeededEvent node))
            nodeId [runningEvent node, succeededEvent node]
            ((activeByKey_afterCall ex run nodeId node).trans (by rw [hjob])) hannounce
          rw [hjob] at hnext
          have htail := ih _ _ _ hplan' hnext hannounces b turn a hlater call hcall dep hdep
          rwa [List.append_assoc] at htail
      · obtain ⟨status, hturns⟩ := turns_not_current ex graph run hnode hactive hcurrent rest
        rw [hturns] at hsplit
        cases b with
        | nil =>
          obtain ⟨rfl, _⟩ := List.cons.inj hsplit
          obtain rfl := List.mem_singleton.mp hcall
          exact hfirst (by rw [hspec]; rfl)
        | cons first b => simp at hsplit

end BuildRun

/-! ## The build -/

namespace WorkspaceCore

variable {σ : Type}

/-- Asked for the jobs of its plan, the executor reports its failures. -/
def ReportsFailures (workspace : WorkspaceCore) (ex : Executor σ) (targets : List NodeId) (executor : σ) :
    Prop :=
  ∀ order, workspace.Reaches targets order →
    Forge.ReportsFailures ex executor
      (plannedJobs workspace.graph { executor := () } workspace.nextJob [] order)

/-- **A build keeps to jobs that succeeded exactly when the executor reports its failures**, as errors
or as answers under another lease: nothing else is looked at. -/
theorem build_respects_failures_iff (ex : Executor σ) (workspace : WorkspaceCore) (targets : List NodeId)
    (executor : σ) :
    BuildsOnSuccess workspace.graph (workspace.buildTurns ex targets executor) ↔
      workspace.ReportsFailures ex targets executor := by
  by_cases hreaches : ∃ order, workspace.Reaches targets order
  · obtain ⟨order, hreaches⟩ := hreaches
    rw [buildTurns_of_reaches hreaches]
    obtain ⟨hnodes, hplans⟩ := hreaches.plansFor
    have hannounces := BuildRun.announces_iff ex workspace.graph order
      (workspace.start (executor, ([] : List Call))) [] hnodes (by simp [start])
    constructor
    · intro h order' hreaches'
      obtain rfl : order = order' := Except.ok.inj (hreaches.planned.symm.trans hreaches'.planned)
      exact hannounces.mp h.announced
    · intro h
      have hall := hannounces.mpr (h order hreaches)
      refine ⟨hall, fun before turn after hsplit => ?_⟩
      exact BuildRun.ordered_of_announces hnodes hplans.sorted order _ [] [] rfl
        ⟨by simp [start], by simp⟩ hall before turn after hsplit
  · rw [buildTurns_of_not_reaches hreaches]
    exact iff_of_true ⟨by simp, by simp⟩ fun order h => absurd ⟨order, h⟩ hreaches

def newWorkspace : WorkspaceCore := {}

/-- Two nodes with different commands, the second depending on the first. -/
def pairWorkspace : WorkspaceCore where
  graph := (((({} : BuildGraph).putNode "lib" { command := "cc lib" }).2.putNode "app"
    { command := "ld app" }).2.putEdge ⟨2⟩ ⟨1⟩ .declared).2

/-- The mock executor fails the first node; the build announces it all the same and goes on to run the
second. -/
theorem build_announces_failed_node :
    let mock := ({} : DeterministicMockExecutor).setFailure ⟨1⟩ "compiler error"
    let turns := pairWorkspace.buildTurns DeterministicMockExecutor.executor [⟨2⟩] mock
    pairWorkspace.graph.cycleWitness = none ∧
      turns.map (fun turn => (turn.node, turn.events.map BuildEvent.kind)) =
        [(⟨1⟩, [.running, .succeeded]), (⟨2⟩, [.running, .succeeded])] ∧
      (∀ turn ∈ turns, ∀ call ∈ turn.calls, call.spec.node = ⟨1⟩ → ¬ call.Successful) ∧
      ¬ BuildsOnSuccess pairWorkspace.graph turns := by
  intro mock turns
  have hsilent : ¬ ∀ turn ∈ turns, turn.Announces := by decide +kernel
  exact ⟨by decide +kernel, by decide +kernel, by decide +kernel, fun h => hsilent h.announced⟩

end WorkspaceCore

end Forge
