import Forge.Lib.Digraph
import Forge.Workspace.AppliedManifest
import Forge.Workspace.CompleteBuild

/-!
# Builds of a declared graph

A build in a workspace to which a manifest was applied, in the terms of the manifest: which of its names are
built and in which order, which of them share a job, and what is announced. The ids of the graph only rename
the declared nodes (`Declares.sameShape`), so the plan is an order of names. `build_declared` says this of
the mock executor, which answers every job with one artifact.
-/

namespace Forge

open Std (ExtTreeMap)
open Digraph (Acyclic ClosureOrder SameShape)

namespace GraphManifest

/-- A declared dependency. -/
def Needs (manifest : GraphManifest) (name other : Str) : Prop :=
  ∃ edge ∈ manifest.edges, edge.fromName = name ∧ edge.toName = other

/-- The action key of a declared node. -/
def keyOf (manifest : GraphManifest) (name : Str) : Option Digest256 :=
  (manifest.nodes.find? (·.name = name)).map fun put => ActionTuple.key { action := put.action }

/-- Only declared nodes are mentioned, and none needs itself. -/
structure Buildable (manifest : GraphManifest) (targets : List Str) : Prop where
  closed : manifest.Closed
  targets : ∀ target ∈ targets, target ∈ manifest.names
  acyclic : Acyclic manifest.Needs

/-- What is announced for a node of an order: its own job, or that of an earlier node with its key. -/
def announcements (manifest : GraphManifest) (order : List Str) (name : Str) : List Str :=
  if IsFirst manifest.keyOf order name then
    [Str.ofLiteral "running " ++ name, Str.ofLiteral "succeeded " ++ name]
  else [Str.ofLiteral "attached duplicate job"]

end GraphManifest

/-! ## Names for ids -/

theorem isFirst_map {α β κ : Type} [DecidableEq α] [DecidableEq β] {key : α → κ} {key' : β → κ} {f : α → β}
    {l : List α} (hkey : ∀ b ∈ l, key' (f b) = key b) (hnodup : l.Nodup) (hnodup' : (l.map f).Nodup) {a : α}
    (ha : a ∈ l) : IsFirst key' (l.map f) (f a) ↔ IsFirst key l a := by
  obtain ⟨before, after, hsplit⟩ := List.append_of_mem ha
  have hsplit' : l.map f = before.map f ++ f a :: after.map f := by rw [hsplit]; simp
  rw [isFirst_iff hsplit' hnodup', isFirst_iff hsplit hnodup, List.forall_mem_map, hkey a ha]
  refine forall₂_congr fun b hb => ?_
  rw [hkey b (by simp [hsplit, hb])]

/-- The name of a node. -/
def BuildGraph.nameOf (graph : BuildGraph) (id : NodeId) : Str := (graph.nodes[id]?.map BuildNode.name).getD []

/-- The id of a name. -/
def AppliedManifest.idOf (applied : AppliedManifest) (name : Str) : NodeId :=
  (applied.nodesByName[name]?).getD {}

namespace WorkspaceCore

variable {manifest : GraphManifest} {applied : AppliedManifest} {graph : BuildGraph}

theorem Declares.node (h : Declares manifest applied graph) {name : Str} (hname : name ∈ manifest.names) :
    ∃ put ∈ manifest.nodes, put.name = name ∧ ∃ node : BuildNode,
      applied.nodesByName[name]? = some (applied.idOf name) ∧ graph.nodes[applied.idOf name]? = some node ∧
        node.name = name ∧ node.action = put.action := by
  obtain ⟨put, hput, rfl⟩ := List.mem_map.mp hname
  obtain ⟨id, node, hid, hnode, hnodeName, haction⟩ := h.actions put hput
  have hidOf : applied.idOf put.name = id := by rw [AppliedManifest.idOf, hid, Option.getD_some]
  exact ⟨put, hput, rfl, node, by rw [hidOf, hid], by rw [hidOf, hnode], hnodeName, haction⟩

theorem Declares.nameOf_idOf (h : Declares manifest applied graph) {name : Str}
    (hname : name ∈ manifest.names) : graph.nameOf (applied.idOf name) = name := by
  obtain ⟨-, -, -, node, -, hnode, hnodeName, -⟩ := h.node hname
  rw [BuildGraph.nameOf, hnode, Option.map_some, Option.getD_some, hnodeName]

theorem Declares.lookup (h : Declares manifest applied graph) {name : Str} {id : NodeId}
    (hid : applied.nodesByName[name]? = some id) :
    name ∈ manifest.names ∧ applied.idOf name = id ∧ graph.nameOf id = name := by
  have hname := (h.names name).mp (ExtTreeMap.mem_of_getElem?_eq_some hid)
  have hidOf : applied.idOf name = id := by rw [AppliedManifest.idOf, hid, Option.getD_some]
  exact ⟨hname, hidOf, hidOf ▸ h.nameOf_idOf hname⟩

theorem Declares.named (h : Declares manifest applied graph) {id : NodeId} (hid : id ∈ graph.nodes) :
    graph.nameOf id ∈ manifest.names ∧ applied.idOf (graph.nameOf id) = id := by
  obtain ⟨name, -, hlookup⟩ := h.nodes.surjOn ⟨id, hid, rfl⟩
  obtain ⟨hname, hidOf, hnameOf⟩ := h.lookup hlookup
  rw [hnameOf]
  exact ⟨hname, hidOf⟩

theorem Declares.sameShape (h : Declares manifest applied graph) (hclosed : manifest.Closed) :
    SameShape graph.DependsOn manifest.Needs graph.nameOf applied.idOf {id | id ∈ graph.nodes}
      {name | name ∈ manifest.names} where
  map_rel v w := by
    rintro ⟨id, edge, hedge, hfrom, hto⟩
    obtain ⟨put, hput, hputFrom, hputTo, -⟩ := (h.edges v w edge.kind).mp ⟨id, edge, hedge, hfrom, hto, rfl⟩
    exact ⟨put, hput, (h.lookup hputFrom).2.2.symm, (h.lookup hputTo).2.2.symm⟩
  comap_rel name other := by
    rintro ⟨put, hput, rfl, rfl⟩
    obtain ⟨hfrom, hto⟩ := hclosed.edges put hput
    obtain ⟨-, -, -, -, hfromId, -⟩ := h.node hfrom
    obtain ⟨-, -, -, -, htoId, -⟩ := h.node hto
    obtain ⟨id, edge, hedge, hends, hends', -⟩ := (h.edges _ _ put.kind).mpr ⟨put, hput, hfromId, htoId, rfl⟩
    exact ⟨id, edge, hedge, hends, hends'⟩
  left_inv v hv := (h.named hv).2
  right_inv name hname := h.nameOf_idOf hname
  maps v hv := (h.named hv).1
  closed v w hdep := hdep.mem_nodes.2

theorem Declares.keyOf_nameOf (h : Declares manifest applied graph) (hnodup : manifest.names.Nodup)
    {id : NodeId} (hid : id ∈ graph.nodes) : manifest.keyOf (graph.nameOf id) = graph.keyOf id := by
  obtain ⟨hname, hidOf⟩ := h.named hid
  obtain ⟨put, hput, hputName, node, -, hnode, -, haction⟩ := h.node hname
  rw [hidOf] at hnode
  have hfind : manifest.nodes.find? (·.name = graph.nameOf id) = some put := by
    obtain ⟨found, hfound⟩ : ∃ found, manifest.nodes.find? (·.name = graph.nameOf id) = some found :=
      Option.isSome_iff_exists.mp (List.find?_isSome.mpr ⟨put, hput, by simpa using hputName⟩)
    have hsame : found.name = put.name := by
      rw [hputName]
      simpa using List.find?_some hfound
    rw [hfound, List.inj_on_of_nodup_map hnodup (List.mem_of_find?_eq_some hfound) hput hsame]
  rw [GraphManifest.keyOf, hfind, BuildGraph.keyOf_eq hnode, Option.map_some, actionKeyFor, haction]
  rfl

end WorkspaceCore

/-! ## Builds with the mock executor -/

namespace DeterministicMockExecutor

theorem answers_eq (jobs : List (WorkerLease × JobSpec)) :
    ∀ call ∈ answers executor {} jobs, call.Successful ∧ call.published.length = 1 := by
  induction jobs with
  | nil =>
    intro call hcall
    cases hcall
  | cons job jobs ih =>
    obtain ⟨lease, spec⟩ := job
    have hrun : ({} : DeterministicMockExecutor).run lease spec = .ok
        { lease := lease.id, attempt := lease.attempt, success := true,
          artifacts := [spec.actionKey.hex ++ [0] ++ List.replicate spec.declaredInputs.length 0x42] } := by
      rw [run, if_neg (by simp)]
      simp
    intro call hcall
    rw [answers] at hcall
    dsimp only [executor] at hcall
    rw [hrun, if_pos ⟨_, rfl, rfl, rfl⟩] at hcall
    rcases List.mem_cons.mp hcall with rfl | hcall
    · exact ⟨⟨_, rfl, rfl, rfl, rfl⟩, rfl⟩
    · exact ih call hcall

end DeterministicMockExecutor

namespace WorkspaceCore

theorem build_mock {workspace : WorkspaceCore} {targets order : List NodeId}
    (hreaches : workspace.Reaches targets order) :
    ∃ outcome, (workspace.build DeterministicMockExecutor.executor targets {}).1 = .value (.ok outcome) ∧
      outcome.events = order.flatMap (workspace.graph.nodeEvents order) ∧
      outcome.artifacts.length = (workspace.graph.jobNodes order).length := by
  obtain ⟨hnodes, hplans⟩ := hreaches.plansFor
  let mock : DeterministicMockExecutor := {}
  let turns := workspace.buildTurns DeterministicMockExecutor.executor targets mock
  have hturns : turns = (workspace.start (mock, ([] : List Call))).turns
      DeterministicMockExecutor.executor workspace.graph order := buildTurns_of_reaches hreaches _ mock
  have hanswers : ∀ call ∈ turns.flatMap BuildTurn.calls,
      call.Successful ∧ call.published.length = 1 := by
    rw [hturns, BuildRun.turns_calls order _ [] hnodes (by simp [start])]
    exact DeterministicMockExecutor.answers_eq _
  have hcurrent : ∀ call ∈ ((workspace.start (mock, ([] : List Call))).turns
      DeterministicMockExecutor.executor workspace.graph order).flatMap BuildTurn.calls, call.Current := by
    rw [← hturns]
    intro call hcall
    obtain ⟨⟨result, hanswer, hlease, hattempt, _⟩, _⟩ := hanswers call hcall
    exact ⟨result, hanswer, hlease, hattempt⟩
  obtain ⟨before, run, hbehind⟩ := BuildRun.Behind.complete order hnodes .start hcurrent
  rw [List.nil_append] at hbehind
  have hruns := (hbehind.ran_of_prefix hplans.nodup (BuildRun.ran_start workspace mock order)
    List.prefix_rfl).runsEachKeyOnce hplans.nodup
  have hbuild := build_of_behind hreaches hbehind
  have hmade : run.calls = turns.flatMap BuildTurn.calls := by
    rw [← (workspace.build_turns DeterministicMockExecutor.executor targets mock).2.1, hbuild]
    rfl
  refine ⟨run.outcome, by rw [workspace.build_forget, hbuild], hruns.events, ?_⟩
  have hones : (turns.flatMap BuildTurn.calls).map (fun call => call.published.length) =
      List.replicate (turns.flatMap BuildTurn.calls).length 1 :=
    List.map_eq_replicate_iff.mpr fun call hcall => (hanswers call hcall).2
  rw [hruns.artifacts, ← hruns.nodes, List.length_flatMap, List.length_map, hmade, hones, List.sum_replicate,
    smul_eq_mul, mul_one]

end WorkspaceCore

/-! ## Builds of a declared graph -/

namespace WorkspaceCore

section Declared

variable {manifest : GraphManifest} {applied : AppliedManifest}

theorem Declares.messages {graph : BuildGraph} (h : Declares manifest applied graph)
    (hnodup : manifest.names.Nodup) {order : List NodeId} (hnodes : ∀ v ∈ order, v ∈ graph.nodes)
    (horder : order.Nodup) (hnames : (order.map graph.nameOf).Nodup) :
    (order.flatMap (graph.nodeEvents order)).map BuildEvent.message =
        (order.map graph.nameOf).flatMap (manifest.announcements (order.map graph.nameOf)) ∧
      (graph.jobNodes order).map graph.nameOf =
        (order.map graph.nameOf).filter (IsFirst manifest.keyOf (order.map graph.nameOf)) := by
  have hfirst {v : NodeId} (hv : v ∈ order) :
      IsFirst manifest.keyOf (order.map graph.nameOf) (graph.nameOf v) ↔ IsFirst graph.keyOf order v :=
    isFirst_map (fun w hw => h.keyOf_nameOf hnodup (hnodes w hw)) horder hnames hv
  constructor
  · rw [List.map_flatMap, List.flatMap_map]
    refine List.flatMap_congr fun v hv => ?_
    obtain ⟨node, hnode⟩ := BuildGraph.exists_node (hnodes v hv)
    have hname : node.name = graph.nameOf v := by rw [BuildGraph.nameOf, hnode]; rfl
    simp only [BuildGraph.nodeEvents, hnode, GraphManifest.announcements, hfirst hv]
    split_ifs
    · simp [runningEvent, succeededEvent, hname]
    · rfl
  · rw [BuildGraph.jobNodes, List.filter_map]
    refine congrArg _ (List.filter_congr fun v hv => ?_)
    exact decide_eq_decide.mpr (hfirst hv).symm

variable {workspace : WorkspaceCore} {names : List Str} {targets : List NodeId}

theorem Declares.targets_named (h : Declares manifest applied workspace.graph)
    (htargets : names.map (applied.nodesByName[·]?) = targets.map some) :
    (∀ t ∈ targets, t ∈ workspace.graph.nodes) ∧ targets.map workspace.graph.nameOf = names := by
  induction names generalizing targets with
  | nil =>
    obtain rfl : targets = [] := by simpa using htargets.symm
    exact ⟨by simp, rfl⟩
  | cons name names ih =>
    cases targets with
    | nil => cases htargets
    | cons target targets =>
      rw [List.map_cons, List.map_cons, List.cons.injEq] at htargets
      obtain ⟨hdeclared, hidOf, hnameOf⟩ := h.lookup htargets.1
      obtain ⟨-, -, -, node, -, hnode, -⟩ := h.node hdeclared
      obtain ⟨hnodes, hrest⟩ := ih htargets.2
      refine ⟨List.forall_mem_cons.mpr ⟨?_, hnodes⟩, by rw [List.map_cons, hnameOf, hrest]⟩
      exact hidOf ▸ ExtTreeMap.mem_of_getElem?_eq_some hnode

/-- **A build of declared targets**, with the mock executor, where no declared node needs itself: it goes
through what the targets need in an order of the declared dependencies. -/
theorem Declares.build_acyclic (h : Declares manifest applied workspace.graph) (hclosed : manifest.Closed)
    (hnodup : manifest.names.Nodup) (hacyclic : Acyclic manifest.Needs)
    (hopen : (workspace.eventHub.openStream workspace.nextRequest.toUInt32 (1024 * 1024)).1 = .ok ())
    (htargets : names.map (applied.nodesByName[·]?) = targets.map some) :
    ∃ outcome order,
      (workspace.build DeterministicMockExecutor.executor targets {}).1 = .value (.ok outcome) ∧
      ClosureOrder manifest.Needs names order ∧
      outcome.events.map BuildEvent.message = order.flatMap (manifest.announcements order) ∧
      outcome.artifacts.length = (order.filter (IsFirst manifest.keyOf order)).length := by
  have hshape := h.sameShape hclosed
  obtain ⟨hnodes, hnames⟩ := h.targets_named htargets
  obtain ⟨order, hreaches⟩ := Reaches.intro (hshape.acyclic_iff.mpr hacyclic) hnodes hopen
  obtain ⟨horderNodes, hplans⟩ := hreaches.plansFor
  have hclosure := hshape.closureOrder
    (fun name other ⟨put, hput, _, hto⟩ => hto ▸ (hclosed.edges put hput).2) hnodes
    ⟨hplans.nodup, hplans.mem_iff, hplans.sorted⟩
  obtain ⟨outcome, hbuild, hevents, hartifacts⟩ := build_mock hreaches
  obtain ⟨hmessages, hjobs⟩ := h.messages hnodup horderNodes hplans.nodup hclosure.nodup
  refine ⟨outcome, order.map workspace.graph.nameOf, hbuild, hnames ▸ hclosure, ?_, ?_⟩
  · rw [hevents, hmessages]
  · rw [hartifacts, ← hjobs, List.length_map]

theorem Declares.build_cyclic (h : Declares manifest applied workspace.graph) (hclosed : manifest.Closed)
    (hcyclic : ¬ Acyclic manifest.Needs) (targets : List NodeId) :
    ∃ status, (workspace.build DeterministicMockExecutor.executor targets {}).1 =
      .value (.error status) := by
  rcases workspace.graph.cycleWitness_cases with ⟨hnone, _⟩ | ⟨witness, hwitness, _⟩
  · exact absurd ((h.sameShape hclosed).acyclic_iff.mp (BuildGraph.acyclic_of_cycleWitness_none hnone)) hcyclic
  · refine ⟨Status.error .cycle "workspace" "graph contains prohibited cycle", ?_⟩
    simp only [build, prepare, hwitness]

end Declared

end WorkspaceCore

end Forge
