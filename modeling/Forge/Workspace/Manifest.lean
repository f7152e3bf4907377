import Forge.Workspace.Build

/-!
# Applying a manifest

`apply_manifest` of `manifest.cpp`: it puts the nodes of a manifest into the graph of a workspace, then its
edges, and looks up its targets, and it returns at the first error. What has been put before stays. A
manifest fails exactly if it is not closed: a node has no name, or an edge or a target mentions a name that
is no node's. So its failure leaves the graph as it was only where no node has been put
(`failed_manifest_untouched_iff`); behind any other the generation has moved on.
-/

namespace Forge

open Std (ExtTreeMap)

structure ManifestNode where
  name : Str
  action : ActionSpec
deriving DecidableEq

structure ManifestEdge where
  fromName : Str
  toName : Str
  kind : EdgeKind := .declared
deriving DecidableEq, Repr

structure GraphManifest where
  nodes : List ManifestNode := []
  edges : List ManifestEdge := []
  targets : List Str := []
deriving DecidableEq

structure AppliedManifest where
  nodesByName : ExtTreeMap Str NodeId := ∅
  targets : List NodeId := []
deriving DecidableEq

namespace WorkspaceCore

/-! ## Definitions -/

def putNode (workspace : WorkspaceCore) (name : Str) (action : ActionSpec) :
    Result NodeId × WorkspaceCore :=
  let (id, graph) := workspace.graph.putNode name action
  (id, { workspace with graph })

def putEdge (workspace : WorkspaceCore) (fromNode toNode : NodeId) (kind : EdgeKind) :
    Result EdgeId × WorkspaceCore :=
  let (id, graph) := workspace.graph.putEdge fromNode toNode kind
  (id, { workspace with graph })

def manifestConflict (message : Str) : Status := Status.error .graphConflict "manifest" message

/-- The loop over the nodes; `emplace` keeps the first id of a name. -/
def applyNodes (workspace : WorkspaceCore) (applied : AppliedManifest) :
    List ManifestNode → Result AppliedManifest × WorkspaceCore
  | [] => (.ok applied, workspace)
  | node :: rest =>
    match workspace.putNode node.name node.action with
    | (.error status, workspace) => (.error status, workspace)
    | (.ok id, workspace) =>
      workspace.applyNodes { applied with nodesByName := applied.nodesByName.insertIfNew node.name id } rest

/-- The loop over the edges. -/
def applyEdges (workspace : WorkspaceCore) (applied : AppliedManifest) :
    List ManifestEdge → Result Unit × WorkspaceCore
  | [] => (.ok (), workspace)
  | edge :: rest =>
    match applied.nodesByName[edge.fromName]?, applied.nodesByName[edge.toName]? with
    | some fromNode, some toNode =>
      match workspace.putEdge fromNode toNode edge.kind with
      | (.error status, workspace) => (.error status, workspace)
      | (.ok _, workspace) => workspace.applyEdges applied rest
    | _, _ => (.error (manifestConflict "edge references unknown node name"), workspace)

/-- The loop over the targets. -/
def applyTargets (applied : AppliedManifest) : List Str → Result AppliedManifest
  | [] => .ok applied
  | target :: rest =>
    match applied.nodesByName[target]? with
    | none => .error (manifestConflict "target references unknown node name")
    | some id => applyTargets { applied with targets := applied.targets ++ [id] } rest

/-- Without targets the last node is one. -/
def defaultTarget (manifest : GraphManifest) (applied : AppliedManifest) : Return AppliedManifest :=
  match manifest.nodes.getLast? with
  | none => .value (.ok applied)
  | some node =>
    if applied.targets = [] then
      match applied.nodesByName[node.name]? with
      -- `at` throws
      | none => .threw
      | some id => .value (.ok { applied with targets := [id] })
    else .value (.ok applied)

def applyManifest (workspace : WorkspaceCore) (manifest : GraphManifest) :
    Return AppliedManifest × WorkspaceCore :=
  match workspace.applyNodes {} manifest.nodes with
  | (.error status, workspace) => (.value (.error status), workspace)
  | (.ok applied, workspace) =>
    match workspace.applyEdges applied manifest.edges with
    | (.error status, workspace) => (.value (.error status), workspace)
    | (.ok (), workspace) =>
      match applyTargets applied manifest.targets with
      | .error status => (.value (.error status), workspace)
      | .ok applied => (defaultTarget manifest applied, workspace)

/-- Behind an error the graph is what it was. -/
def Untouched (workspace : WorkspaceCore) (manifest : GraphManifest) : Prop :=
  ∀ status, (workspace.applyManifest manifest).1 = .value (.error status) →
    (workspace.applyManifest manifest).2.graph = workspace.graph

end WorkspaceCore

namespace GraphManifest

def names (manifest : GraphManifest) : List Str := manifest.nodes.map ManifestNode.name

/-- Every node has a name, and edges and targets mention no others. -/
structure Closed (manifest : GraphManifest) : Prop where
  named : ∀ node ∈ manifest.nodes, node.name ≠ []
  edges : ∀ edge ∈ manifest.edges, edge.fromName ∈ manifest.names ∧ edge.toName ∈ manifest.names
  targets : ∀ target ∈ manifest.targets, target ∈ manifest.names

/-- No node is put: there is none, or the first one has no name. -/
def PutsNothing (manifest : GraphManifest) : Prop := ∀ node ∈ manifest.nodes.head?, node.name = []

theorem putsNothing_of_length_eq_zero {manifest : GraphManifest} (h : manifest.nodes.length = 0) :
    manifest.PutsNothing := by
  simp [PutsNothing, List.length_eq_zero_iff.mp h]

end GraphManifest

namespace WorkspaceCore

/-! ## Single mutations -/

/-- The generation has been published `count` times, and no node is gone. -/
structure Later (count : Nat) (workspace workspace' : WorkspaceCore) : Prop where
  generation : workspace'.graph.generation.value =
    workspace.graph.generation.value + UInt64.ofNat count
  nodes : ∀ v ∈ workspace.graph.nodes, v ∈ workspace'.graph.nodes

theorem Later.refl (workspace : WorkspaceCore) : Later 0 workspace workspace :=
  ⟨(UInt64.add_zero _).symm, fun _ h => h⟩

theorem Later.trans {first second : Nat} {workspace workspace' workspace'' : WorkspaceCore}
    (h : Later first workspace workspace') (h' : Later second workspace' workspace'') :
    Later (first + second) workspace workspace'' where
  generation := by rw [h'.generation, h.generation, UInt64.ofNat_add, UInt64.add_assoc]
  nodes v hv := h'.nodes v (h.nodes v hv)

theorem Later.graph_ne {count : Nat} {workspace workspace' : WorkspaceCore}
    (h : Later count workspace workspace') (hpos : 0 < count) (hlt : count < 2 ^ 64) :
    workspace'.graph ≠ workspace.graph := by
  -- a counter of 64 bits does not come back to where it was within one manifest
  intro hsame
  have hgeneration := h.generation
  rw [hsame] at hgeneration
  have hzero : UInt64.ofNat count = 0 := by
    rw [← UInt64.add_right_inj workspace.graph.generation.value, UInt64.add_zero]
    exact hgeneration.symm
  have hcount := congrArg UInt64.toNat hzero
  rw [UInt64.toNat_ofNat_of_lt' hlt] at hcount
  have : count = 0 := hcount
  omega

theorem putNode_ok (workspace : WorkspaceCore) {name : Str} (hname : name ≠ []) (action : ActionSpec) :
    ∃ id workspace', workspace.putNode name action = (.ok id, workspace') ∧
      id ∈ workspace'.graph.nodes ∧ Later 1 workspace workspace' := by
  simp only [putNode, BuildGraph.putNode, if_neg hname]
  cases workspace.graph.nodeNamed name with
  | none => exact ⟨_, _, rfl, by simp, rfl, fun v hv => by simp [hv]⟩
  | some entry => exact ⟨_, _, rfl, by simp, rfl, fun v hv => by simp [hv]⟩

theorem putNode_unnamed (workspace : WorkspaceCore) (action : ActionSpec) :
    ∃ status, workspace.putNode [] action = (.error status, workspace) := ⟨_, rfl⟩

theorem putEdge_ok (workspace : WorkspaceCore) {fromNode toNode : NodeId}
    (hends : fromNode ∈ workspace.graph.nodes ∧ toNode ∈ workspace.graph.nodes) (kind : EdgeKind) :
    ∃ id workspace' count, workspace.putEdge fromNode toNode kind = (.ok id, workspace') ∧
      count ≤ 1 ∧ Later count workspace workspace' := by
  simp only [putEdge, BuildGraph.putEdge, dif_pos hends]
  cases workspace.graph.edgeLike fromNode toNode kind with
  | none => exact ⟨_, _, 1, rfl, Nat.le_refl 1, rfl, fun v hv => by simp [hv]⟩
  | some entry => exact ⟨_, _, 0, rfl, Nat.zero_le 1, Later.refl workspace⟩

/-! ## The loops -/

/-- The map of an applied manifest has these names, and for each a node of the graph. -/
structure Resolves (workspace : WorkspaceCore) (applied : AppliedManifest) (names : List Str) : Prop where
  mem_iff : ∀ name, name ∈ applied.nodesByName ↔ name ∈ names
  live : ∀ (name : Str) (id : NodeId), applied.nodesByName[name]? = some id → id ∈ workspace.graph.nodes

variable {workspace workspace' : WorkspaceCore} {applied : AppliedManifest} {names : List Str}

theorem Resolves.get (h : Resolves workspace applied names) {name : Str} (hname : name ∈ names) :
    ∃ id ∈ workspace.graph.nodes, applied.nodesByName[name]? = some id := by
  obtain ⟨id, hid⟩ := ExtTreeMap.exists_of_mem ((h.mem_iff name).mpr hname)
  exact ⟨id, h.live name id hid, hid⟩

theorem Resolves.get_none (h : Resolves workspace applied names) {name : Str} (hname : name ∉ names) :
    applied.nodesByName[name]? = none :=
  ExtTreeMap.getElem?_eq_none fun hmem => hname ((h.mem_iff name).mp hmem)

theorem Resolves.later (h : Resolves workspace applied names) {count : Nat}
    (hlater : Later count workspace workspace') : Resolves workspace' applied names :=
  ⟨h.mem_iff, fun name id hid => hlater.nodes id (h.live name id hid)⟩

theorem Resolves.insert (h : Resolves workspace applied names) (name : Str) {id : NodeId}
    (hid : id ∈ workspace.graph.nodes) :
    Resolves workspace { applied with nodesByName := applied.nodesByName.insertIfNew name id }
      (names ++ [name]) := by
  refine ⟨fun other => ?_, fun other found hfound => ?_⟩
  · rw [ExtTreeMap.mem_insertIfNew, h.mem_iff, Std.compare_eq_iff_eq, List.mem_append,
      List.mem_singleton, or_comm, eq_comm]
  · dsimp only at hfound
    rw [ExtTreeMap.getElem?_insertIfNew] at hfound
    split_ifs at hfound with hnew
    · rw [← Option.some.inj hfound]
      exact hid
    · exact h.live other found hfound

theorem applyNodes_named (before rest : List ManifestNode) :
    ∀ {workspace : WorkspaceCore} {applied : AppliedManifest} {names : List Str},
      Resolves workspace applied names → (∀ node ∈ before, node.name ≠ []) →
        ∃ workspace' applied', workspace.applyNodes applied (before ++ rest) =
            workspace'.applyNodes applied' rest ∧
          Later before.length workspace workspace' ∧
          Resolves workspace' applied' (names ++ before.map ManifestNode.name) := by
  induction before with
  | nil =>
    intro workspace applied names h _
    exact ⟨workspace, applied, rfl, .refl workspace, by simpa using h⟩
  | cons node before ih =>
    intro workspace applied names h hnamed
    obtain ⟨id, workspace₁, hput, hid, hlater⟩ :=
      workspace.putNode_ok (hnamed node List.mem_cons_self) node.action
    obtain ⟨workspace', applied', hrest, hlater', hresolves⟩ :=
      ih ((h.later hlater).insert node.name hid) fun other hother =>
        hnamed other (List.mem_cons_of_mem _ hother)
    refine ⟨workspace', applied', ?_, ?_, by simpa using hresolves⟩
    · rw [List.cons_append, applyNodes, hput]
      exact hrest
    · rw [List.length_cons, Nat.add_comm]
      exact hlater.trans hlater'

theorem applyEdges_known (before rest : List ManifestEdge) :
    ∀ {workspace : WorkspaceCore}, Resolves workspace applied names →
      (∀ edge ∈ before, edge.fromName ∈ names ∧ edge.toName ∈ names) →
        ∃ workspace' count, workspace.applyEdges applied (before ++ rest) =
            workspace'.applyEdges applied rest ∧
          count ≤ before.length ∧ Later count workspace workspace' := by
  induction before with
  | nil => exact fun {workspace} _ _ => ⟨workspace, 0, rfl, Nat.le_refl 0, .refl workspace⟩
  | cons edge before ih =>
    intro workspace h hknown
    obtain ⟨hfrom, hto⟩ := hknown edge List.mem_cons_self
    obtain ⟨fromNode, hfromNode, hgetFrom⟩ := h.get hfrom
    obtain ⟨toNode, htoNode, hgetTo⟩ := h.get hto
    obtain ⟨id, workspace₁, count, hput, hcount, hlater⟩ :=
      workspace.putEdge_ok ⟨hfromNode, htoNode⟩ edge.kind
    obtain ⟨workspace', count', hrest, hcount', hlater'⟩ :=
      ih (h.later hlater) fun other hother => hknown other (List.mem_cons_of_mem _ hother)
    refine ⟨workspace', count + count', ?_, ?_, hlater.trans hlater'⟩
    · rw [List.cons_append, applyEdges, hgetFrom, hgetTo]
      dsimp only
      rw [hput]
      exact hrest
    · rw [List.length_cons]
      omega

theorem applyEdges_unknown (h : Resolves workspace applied names) {edge : ManifestEdge}
    (hunknown : ¬ (edge.fromName ∈ names ∧ edge.toName ∈ names)) (rest : List ManifestEdge) :
    ∃ status, workspace.applyEdges applied (edge :: rest) = (.error status, workspace) := by
  rw [applyEdges]
  by_cases hfrom : edge.fromName ∈ names
  · rw [h.get_none fun hto => hunknown ⟨hfrom, hto⟩]
    cases applied.nodesByName[edge.fromName]? with
    | none => exact ⟨_, rfl⟩
    | some fromNode => exact ⟨_, rfl⟩
  · rw [h.get_none hfrom]
    exact ⟨_, rfl⟩

theorem applyTargets_known (before rest : List Str) :
    ∀ {applied : AppliedManifest}, Resolves workspace applied names → (∀ target ∈ before, target ∈ names) →
      ∃ applied', applyTargets applied (before ++ rest) = applyTargets applied' rest ∧
        Resolves workspace applied' names := by
  induction before with
  | nil => exact fun {applied} h _ => ⟨applied, rfl, h⟩
  | cons target before ih =>
    intro applied h hknown
    obtain ⟨id, _, hget⟩ := h.get (hknown target List.mem_cons_self)
    obtain ⟨applied', hrest, hresolves⟩ :=
      ih (show Resolves workspace { applied with targets := applied.targets ++ [id] } names from
        ⟨h.mem_iff, h.live⟩) fun other hother => hknown other (List.mem_cons_of_mem _ hother)
    refine ⟨applied', ?_, hresolves⟩
    rw [List.cons_append, applyTargets, hget]
    exact hrest

theorem defaultTarget_ok (manifest : GraphManifest) (h : Resolves workspace applied manifest.names) :
    ∃ applied', defaultTarget manifest applied = .value (.ok applied') := by
  rw [defaultTarget]
  cases hlast : manifest.nodes.getLast? with
  | none => exact ⟨_, rfl⟩
  | some node =>
    have hname : node.name ∈ manifest.names := List.mem_map_of_mem (List.mem_of_getLast? hlast)
    obtain ⟨id, _, hget⟩ := h.get hname
    dsimp only
    split_ifs
    · rw [hget]
      exact ⟨_, rfl⟩
    · exact ⟨_, rfl⟩

/-! ## Whole manifests -/

theorem resolves_empty (workspace : WorkspaceCore) : Resolves workspace {} [] :=
  ⟨by simp, by simp⟩

theorem applyNodes_all (workspace : WorkspaceCore) {manifest : GraphManifest}
    (hnamed : ∀ node ∈ manifest.nodes, node.name ≠ []) :
    ∃ workspace' applied, workspace.applyNodes {} manifest.nodes = (.ok applied, workspace') ∧
      Later manifest.nodes.length workspace workspace' ∧ Resolves workspace' applied manifest.names := by
  obtain ⟨workspace', applied, hnodes, hlater, hresolves⟩ :=
    applyNodes_named manifest.nodes [] workspace.resolves_empty hnamed
  rw [List.append_nil, applyNodes] at hnodes
  exact ⟨workspace', applied, hnodes, hlater, by simpa [GraphManifest.names] using hresolves⟩

theorem applyNodes_members (workspace : WorkspaceCore) (applied : AppliedManifest) (rest : List ManifestNode) :
    (workspace.applyNodes applied rest).2 =
      { workspace with graph := (workspace.applyNodes applied rest).2.graph } := by
  induction rest generalizing workspace applied with
  | nil => rfl
  | cons node rest ih =>
    rw [applyNodes, putNode]
    rcases workspace.graph.putNode node.name node.action with ⟨status | id, graph⟩
    · rfl
    · exact ih _ _

theorem applyEdges_members (workspace : WorkspaceCore) (applied : AppliedManifest) (rest : List ManifestEdge) :
    (workspace.applyEdges applied rest).2 =
      { workspace with graph := (workspace.applyEdges applied rest).2.graph } := by
  induction rest generalizing workspace with
  | nil => rfl
  | cons edge rest ih =>
    rw [applyEdges]
    cases applied.nodesByName[edge.fromName]? with
    | none => rfl
    | some fromNode =>
      cases applied.nodesByName[edge.toName]? with
      | none => rfl
      | some toNode =>
        dsimp only
        rw [putEdge]
        rcases workspace.graph.putEdge fromNode toNode edge.kind with ⟨status | id, graph⟩
        · rfl
        · exact ih _

theorem applyManifest_members (workspace : WorkspaceCore) (manifest : GraphManifest) :
    (workspace.applyManifest manifest).2 =
      { workspace with graph := (workspace.applyManifest manifest).2.graph } := by
  have hnodes := workspace.applyNodes_members {} manifest.nodes
  rw [applyManifest]
  rcases hputs : workspace.applyNodes {} manifest.nodes with ⟨status | applied, workspace₁⟩
  · rwa [hputs] at hnodes
  · rw [hputs] at hnodes
    have hedges := (workspace₁.applyEdges_members applied manifest.edges).trans
      (congrArg (fun first : WorkspaceCore =>
        { first with graph := (workspace₁.applyEdges applied manifest.edges).2.graph }) hnodes)
    dsimp only
    rcases hputs' : workspace₁.applyEdges applied manifest.edges with ⟨status | _, workspace₂⟩
    · rwa [hputs'] at hedges
    · rw [hputs'] at hedges
      dsimp only
      cases applyTargets applied manifest.targets with
      | error status => exact hedges
      | ok applied => exact hedges

theorem exists_first {α : Type} {p : α → Prop} [DecidablePred p] {l : List α} (h : ¬ ∀ x ∈ l, p x) :
    ∃ before x after, l = before ++ x :: after ∧ (∀ y ∈ before, p y) ∧ ¬ p x := by
  cases hfind : l.find? (¬ p ·) with
  | none => exact absurd (by simpa using hfind) h
  | some x =>
    obtain ⟨hx, before, after, hsplit, hbefore⟩ := List.find?_eq_some_iff_append.mp hfind
    exact ⟨before, x, after, hsplit, by simpa using hbefore, by simpa using hx⟩

/-- The call fails, `count` generations later, and later indeed if it has put a node. -/
def FailsAfter (count : Nat) (workspace : WorkspaceCore) (manifest : GraphManifest) : Prop :=
  (∃ status, (workspace.applyManifest manifest).1 = .value (.error status)) ∧
    count ≤ manifest.nodes.length + manifest.edges.length ∧
    (count = 0 → manifest.PutsNothing) ∧ Later count workspace (workspace.applyManifest manifest).2

theorem FailsAfter.intro {manifest : GraphManifest} {count : Nat} {status : Status}
    (happly : workspace.applyManifest manifest = (.value (.error status), workspace'))
    (hlater : Later count workspace workspace')
    (hcount : count ≤ manifest.nodes.length + manifest.edges.length)
    (hzero : count = 0 → manifest.PutsNothing) : FailsAfter count workspace manifest :=
  ⟨⟨status, by rw [happly]⟩, hcount, hzero, by rw [happly]; exact hlater⟩

theorem applyManifest_unnamed (workspace : WorkspaceCore) {manifest : GraphManifest}
    (hnamed : ¬ ∀ node ∈ manifest.nodes, node.name ≠ []) :
    ∃ count, FailsAfter count workspace manifest := by
  obtain ⟨before, node, after, hsplit, hbefore, hname⟩ := exists_first hnamed
  obtain ⟨workspace', applied, hnodes, hlater, _⟩ :=
    applyNodes_named before (node :: after) workspace.resolves_empty hbefore
  rw [not_not] at hname
  obtain ⟨status, hput⟩ := workspace'.putNode_unnamed node.action
  have happly : workspace.applyManifest manifest = (.value (.error status), workspace') := by
    rw [applyManifest, hsplit, hnodes, applyNodes, hname, hput]
  refine ⟨before.length, .intro happly hlater ?_ fun hzero => ?_⟩
  · rw [hsplit, List.length_append]
    omega
  · rw [List.length_eq_zero_iff] at hzero
    rw [GraphManifest.PutsNothing, hsplit, hzero]
    simpa using hname

theorem applyManifest_unknown_edge {manifest : GraphManifest}
    (hnamed : ∀ node ∈ manifest.nodes, node.name ≠ [])
    (hedges : ¬ ∀ edge ∈ manifest.edges, edge.fromName ∈ manifest.names ∧ edge.toName ∈ manifest.names) :
    ∃ count, FailsAfter count workspace manifest := by
  obtain ⟨workspace₁, applied, hnodes, hlater, hresolves⟩ := workspace.applyNodes_all hnamed
  obtain ⟨before, edge, after, hsplit, hbefore, hunknown⟩ := exists_first hedges
  obtain ⟨workspace', count, hput, hcount, hlater'⟩ :=
    applyEdges_known before (edge :: after) hresolves hbefore
  obtain ⟨status, hfail⟩ := applyEdges_unknown (hresolves.later hlater') hunknown after
  have happly : workspace.applyManifest manifest = (.value (.error status), workspace') := by
    rw [applyManifest, hnodes]
    dsimp only
    rw [hsplit, hput, hfail]
  refine ⟨manifest.nodes.length + count, .intro happly (hlater.trans hlater') ?_ fun hzero => ?_⟩
  · rw [hsplit, List.length_append]
    omega
  · exact GraphManifest.putsNothing_of_length_eq_zero (by omega)

theorem applyManifest_targets (workspace : WorkspaceCore) {manifest : GraphManifest}
    (hnamed : ∀ node ∈ manifest.nodes, node.name ≠ [])
    (hedges : ∀ edge ∈ manifest.edges, edge.fromName ∈ manifest.names ∧ edge.toName ∈ manifest.names) :
    ∃ workspace' applied count, workspace.applyManifest manifest =
        (match applyTargets applied manifest.targets with
          | .error status => (.value (.error status), workspace')
          | .ok applied => (defaultTarget manifest applied, workspace')) ∧
      Resolves workspace' applied manifest.names ∧ count ≤ manifest.edges.length ∧
      Later (manifest.nodes.length + count) workspace workspace' := by
  obtain ⟨workspace₁, applied, hnodes, hlater, hresolves⟩ := workspace.applyNodes_all hnamed
  obtain ⟨workspace', count, hput, hcount, hlater'⟩ :=
    applyEdges_known manifest.edges [] hresolves hedges
  rw [List.append_nil] at hput
  refine ⟨workspace', applied, count, ?_, hresolves.later hlater', hcount, hlater.trans hlater'⟩
  rw [applyManifest, hnodes]
  dsimp only
  rw [hput, applyEdges]

theorem applyManifest_closed (workspace : WorkspaceCore) {manifest : GraphManifest} (h : manifest.Closed) :
    ∃ applied, (workspace.applyManifest manifest).1 = .value (.ok applied) := by
  obtain ⟨workspace', applied, count, happly, hresolves, _⟩ :=
    applyManifest_targets workspace h.named h.edges
  obtain ⟨applied', htargets, hresolves'⟩ := applyTargets_known manifest.targets [] hresolves h.targets
  obtain ⟨applied'', hdefault⟩ := defaultTarget_ok manifest hresolves'
  rw [List.append_nil, applyTargets] at htargets
  rw [htargets] at happly
  dsimp only at happly
  exact ⟨applied'', by rw [happly, hdefault]⟩

theorem applyManifest_unknown_target {manifest : GraphManifest}
    (hnamed : ∀ node ∈ manifest.nodes, node.name ≠ [])
    (hedges : ∀ edge ∈ manifest.edges, edge.fromName ∈ manifest.names ∧ edge.toName ∈ manifest.names)
    (htargets : ¬ ∀ target ∈ manifest.targets, target ∈ manifest.names) :
    ∃ count, FailsAfter count workspace manifest := by
  obtain ⟨workspace', applied, count, happly, hresolves, hcount, hlater⟩ :=
    applyManifest_targets workspace hnamed hedges
  obtain ⟨before, target, after, hsplit, hbefore, hunknown⟩ := exists_first htargets
  obtain ⟨applied', hlooked, hresolves'⟩ :=
    applyTargets_known before (target :: after) hresolves hbefore
  rw [hsplit, hlooked, applyTargets, hresolves'.get_none hunknown] at happly
  exact ⟨manifest.nodes.length + count, .intro happly hlater (by omega) fun hzero =>
    GraphManifest.putsNothing_of_length_eq_zero (by omega)⟩

theorem applyManifest_not_closed (workspace : WorkspaceCore) {manifest : GraphManifest}
    (h : ¬ manifest.Closed) : ∃ count, FailsAfter count workspace manifest := by
  by_cases hnamed : ∀ node ∈ manifest.nodes, node.name ≠ []
  · by_cases hedges :
        ∀ edge ∈ manifest.edges, edge.fromName ∈ manifest.names ∧ edge.toName ∈ manifest.names
    · exact applyManifest_unknown_target hnamed hedges fun htargets => h ⟨hnamed, hedges, htargets⟩
    · exact applyManifest_unknown_edge hnamed hedges
  · exact applyManifest_unnamed workspace hnamed

theorem applyManifest_putsNothing (workspace : WorkspaceCore) {manifest : GraphManifest}
    (h : manifest.PutsNothing) : (workspace.applyManifest manifest).2 = workspace := by
  rw [applyManifest]
  cases hnodes : manifest.nodes with
  | cons node rest =>
    have hname : node.name = [] := h node (by simp [hnodes])
    obtain ⟨status, hput⟩ := workspace.putNode_unnamed node.action
    rw [applyNodes, hname, hput]
  | nil =>
    rw [applyNodes]
    dsimp only
    -- without nodes no name is known
    cases manifest.edges with
    | cons edge rest =>
      obtain ⟨status, hfail⟩ := applyEdges_unknown workspace.resolves_empty (by simp) rest
      rw [hfail]
    | nil =>
      rw [applyEdges]
      dsimp only
      cases applyTargets {} manifest.targets with
      | error status => rfl
      | ok applied => rfl

/-- **When a failed manifest leaves the graph alone**: exactly if it cannot fail, or puts nothing. -/
theorem failed_manifest_untouched_iff (workspace : WorkspaceCore) (manifest : GraphManifest)
    (hnodes : manifest.nodes.length < 2 ^ 63) (hedges : manifest.edges.length < 2 ^ 63) :
    Untouched workspace manifest ↔ manifest.Closed ∨ manifest.PutsNothing := by
  constructor
  · intro huntouched
    by_contra hnot
    obtain ⟨hopen, hputs⟩ := not_or.mp hnot
    obtain ⟨count, ⟨status, hfail⟩, hcount, hzero, hlater⟩ := applyManifest_not_closed workspace hopen
    exact hlater.graph_ne (Nat.pos_of_ne_zero fun h => hputs (hzero h)) (by omega) (huntouched status hfail)
  · intro h status hfail
    by_cases hclosed : manifest.Closed
    · obtain ⟨applied, hok⟩ := applyManifest_closed workspace hclosed
      rw [hok] at hfail
      simp at hfail
    · rw [applyManifest_putsNothing workspace (h.resolve_left hclosed)]

/-- An edge to a node the manifest does not have. -/
def danglingManifest : GraphManifest :=
  { nodes := [⟨"app", { command := "ld app" }⟩], edges := [⟨"app", "lib", .declared⟩] }

/-- The same edge fails where nothing has been put before it, and is put where its node is there. -/
theorem failed_manifest_untouched_iff_dangling :
    Untouched {} { danglingManifest with nodes := [] } ∧
      Untouched {} { danglingManifest with nodes := danglingManifest.nodes ++ [⟨"lib", {}⟩] } :=
  ⟨(failed_manifest_untouched_iff {} { danglingManifest with nodes := [] } (by decide) (by decide)).mpr
      (.inr (by simp [GraphManifest.PutsNothing])),
    (failed_manifest_untouched_iff {} { danglingManifest with nodes := danglingManifest.nodes ++ [⟨"lib", {}⟩] }
      (by decide) (by decide)).mpr (.inl ⟨by decide +kernel, by decide +kernel, by decide +kernel⟩)⟩

/-- Behind its own node the edge fails as well, but the node stays, under a new generation. -/
theorem failed_manifest_leaves_node :
    let (result, after) := ({} : WorkspaceCore).applyManifest danglingManifest
    result = .value (.error (manifestConflict "edge references unknown node name")) ∧
      after.graph.nodes.toList.map (·.2.name) = ["app"] ∧ after.graph.nextNode = 2 ∧
      after.graph.generation = ⟨2⟩ ∧ ¬ Untouched {} danglingManifest := by
  have hresult : (({} : WorkspaceCore).applyManifest danglingManifest).1 =
      .value (.error (manifestConflict "edge references unknown node name")) := by decide +kernel
  have hgeneration : (({} : WorkspaceCore).applyManifest danglingManifest).2.graph.generation = ⟨2⟩ := by
    decide +kernel
  refine ⟨hresult, by decide +kernel, by decide +kernel, hgeneration, fun huntouched => ?_⟩
  rw [huntouched _ hresult] at hgeneration
  simp at hgeneration

end WorkspaceCore

end Forge
