import Forge.Graph.GraphRuns
import Forge.Workspace.ManifestParser

/-!
# The graph of an applied manifest

The names of a manifest that has been read are different and not empty, so each of its nodes is put under an
id of its own (`applyNodes_hasNodes`). The edges go between these ids, and one that is there already is not
put again (`applyEdges_hasEdges`). `apply_parsed` says this of a new workspace: the graph is the declared one.
-/

namespace Forge

open Std (ExtTreeMap)

namespace BuildGraph

/-! ## Single mutations -/

variable {graph graph' : BuildGraph}

def HasEdge (graph : BuildGraph) (fromNode toNode : NodeId) (kind : EdgeKind) : Prop :=
  ∃ (id : EdgeId) (edge : DependencyEdge), graph.edges[id]? = some edge ∧ edge.fromNode = fromNode ∧
    edge.toNode = toNode ∧ edge.kind = kind

/-- The same nodes under the same ids, apart from their states. -/
def SameNodes (graph graph' : BuildGraph) : Prop :=
  ∀ id : NodeId, (graph'.nodes[id]?).map (fun node => (node.name, node.action)) =
    (graph.nodes[id]?).map fun node => (node.name, node.action)

theorem putNode_new {name : Str} (hname : name ≠ [])
    (hnew : ∀ (id : NodeId) (node : BuildNode), graph.nodes[id]? = some node → node.name ≠ name)
    (action : ActionSpec) :
    ∃ graph', graph.putNode name action = (.ok ⟨graph.nextNode⟩, graph') ∧ graph'.edges = graph.edges ∧
      ∃ node : BuildNode, graph'.nodes = graph.nodes.insert ⟨graph.nextNode⟩ node ∧ node.name = name ∧
        node.action = action := by
  have hnone : graph.nodeNamed name = none := List.find?_eq_none.mpr fun ⟨id, node⟩ hentry => by
    simpa using hnew id node (ExtTreeMap.mem_toList_iff_getElem?_eq_some.mp hentry)
  rw [putNode, if_neg hname, hnone]
  exact ⟨_, rfl, rfl, _, rfl, rfl, rfl⟩

theorem edgeLike_some {fromNode toNode : NodeId} {kind : EdgeKind} {entry : EdgeId × DependencyEdge}
    (h : graph.edgeLike fromNode toNode kind = some entry) : graph.HasEdge fromNode toNode kind := by
  have hentry := ExtTreeMap.mem_toList_iff_getElem?_eq_some.mp (List.mem_of_find?_eq_some h)
  exact ⟨entry.1, entry.2, hentry, by simpa using List.find?_some h⟩

theorem putEdge_hasEdge {calls : Nat} (hok : GraphOk calls graph) {fromNode toNode : NodeId}
    (hends : fromNode ∈ graph.nodes ∧ toNode ∈ graph.nodes) (kind : EdgeKind) :
    ∃ id graph', graph.putEdge fromNode toNode kind = (.ok id, graph') ∧ graph.SameNodes graph' ∧
      ∀ fromNode' toNode' kind', graph'.HasEdge fromNode' toNode' kind' ↔
        graph.HasEdge fromNode' toNode' kind' ∨ fromNode = fromNode' ∧ toNode = toNode' ∧ kind = kind' := by
  rw [putEdge, dif_pos hends]
  cases hfound : graph.edgeLike fromNode toNode kind with
  | some entry =>
    refine ⟨entry.1, graph, rfl, fun id => rfl, fun fromNode' toNode' kind' => ?_⟩
    refine (or_iff_left_of_imp ?_).symm
    rintro ⟨rfl, rfl, rfl⟩
    exact edgeLike_some hfound
  | none =>
    refine ⟨_, _, rfl, fun id => ?_, fun fromNode' toNode' kind' => ?_⟩
    · dsimp only
      rw [ExtTreeMap.getElem?_insert]
      split_ifs with hsame
      · rw [← Std.LawfulEqCmp.eq_of_compare hsame, ExtTreeMap.getElem?_eq_some_getElem hends.1]
        rfl
      · rfl
    · constructor
      · rintro ⟨id, edge, hedge, hfrom, hto, hkind⟩
        obtain ⟨rfl, rfl⟩ | ⟨_, hold⟩ := ExtTreeMap.getElem?_insert_cases hedge
        · exact .inr ⟨hfrom, hto, hkind⟩
        · exact .inl ⟨id, edge, hold, hfrom, hto, hkind⟩
      · rintro (⟨id, edge, hedge, hends'⟩ | ⟨rfl, rfl, rfl⟩)
        · exact ⟨id, edge, (ExtTreeMap.getElem?_insert_of_ne (hok.edges.next_ne hedge)).trans hedge, hends'⟩
        · exact ⟨_, _, ExtTreeMap.getElem?_insert_self, rfl, rfl, rfl⟩

end BuildGraph

namespace WorkspaceCore

/-! ## The loops -/

/-- The nodes that were put, each under its own id, are those of the graph. -/
structure HasNodes (puts : List ManifestNode) (applied : AppliedManifest) (graph : BuildGraph) : Prop where
  declared : ∀ put ∈ puts, ∃ (id : NodeId) (node : BuildNode), applied.nodesByName[put.name]? = some id ∧
    graph.nodes[id]? = some node ∧ node.name = put.name ∧ node.action = put.action
  named : ∀ (name : Str) (id : NodeId), applied.nodesByName[name]? = some id →
    name ∈ puts.map ManifestNode.name ∧ ∃ node, graph.nodes[id]? = some node ∧ node.name = name
  covered : ∀ (id : NodeId) (node : BuildNode), graph.nodes[id]? = some node →
    applied.nodesByName[node.name]? = some id

/-- The edges that were put are those of the graph. -/
def HasEdges (puts : List ManifestEdge) (applied : AppliedManifest) (graph : BuildGraph) : Prop :=
  ∀ fromNode toNode kind, graph.HasEdge fromNode toNode kind ↔ ∃ put ∈ puts,
    applied.nodesByName[put.fromName]? = some fromNode ∧ applied.nodesByName[put.toName]? = some toNode ∧
      put.kind = kind

variable {puts : List ManifestNode} {applied : AppliedManifest} {graph graph' : BuildGraph}

theorem HasNodes.get (h : HasNodes puts applied graph) {name : Str}
    (hname : name ∈ puts.map ManifestNode.name) :
    ∃ id ∈ graph.nodes, applied.nodesByName[name]? = some id := by
  obtain ⟨put, hput, rfl⟩ := List.mem_map.mp hname
  obtain ⟨id, node, hget, hnode, -⟩ := h.declared put hput
  exact ⟨id, ExtTreeMap.mem_of_getElem?_eq_some hnode, hget⟩

theorem HasNodes.injective (h : HasNodes puts applied graph) {name name' : Str} {id : NodeId}
    (hname : applied.nodesByName[name]? = some id) (hname' : applied.nodesByName[name']? = some id) :
    name = name' := by
  obtain ⟨node, hnode, rfl⟩ := (h.named name id hname).2
  obtain ⟨node', hnode', rfl⟩ := (h.named name' id hname').2
  rw [Option.some.inj (hnode.symm.trans hnode')]

theorem HasNodes.sameNodes (h : HasNodes puts applied graph) (hsame : graph.SameNodes graph') :
    HasNodes puts applied graph' := by
  have hforth {id : NodeId} {node : BuildNode} (hnode : graph.nodes[id]? = some node) :
      ∃ node', graph'.nodes[id]? = some node' ∧ node'.name = node.name ∧ node'.action = node.action := by
    have hpair := hsame id
    rw [hnode, Option.map_some, Option.map_eq_some_iff] at hpair
    simpa using hpair
  have hback {id : NodeId} {node' : BuildNode} (hnode' : graph'.nodes[id]? = some node') :
      ∃ node, graph.nodes[id]? = some node ∧ node.name = node'.name := by
    have hpair := (hsame id).symm
    rw [hnode', Option.map_some, Option.map_eq_some_iff] at hpair
    obtain ⟨node, hnode, hpair⟩ := hpair
    exact ⟨node, hnode, congrArg Prod.fst hpair⟩
  refine ⟨fun put hput => ?_, fun name id hname => ?_, fun id node' hnode' => ?_⟩
  · obtain ⟨id, node, hget, hnode, hname, haction⟩ := h.declared put hput
    obtain ⟨node', hnode', hname', haction'⟩ := hforth hnode
    exact ⟨id, node', hget, hnode', hname'.trans hname, haction'.trans haction⟩
  · obtain ⟨hmem, node, hnode, hnodeName⟩ := h.named name id hname
    obtain ⟨node', hnode', hname', -⟩ := hforth hnode
    exact ⟨hmem, node', hnode', hname'.trans hnodeName⟩
  · obtain ⟨node, hnode, hname⟩ := hback hnode'
    rw [← hname]
    exact h.covered id node hnode

theorem HasNodes.put {calls : Nat} (h : HasNodes puts applied graph) (hok : GraphOk calls graph)
    {put : ManifestNode} (hname : put.name ≠ []) (hnew : put.name ∉ puts.map ManifestNode.name) :
    ∃ id graph', graph.putNode put.name put.action = (.ok id, graph') ∧ graph'.edges = graph.edges ∧
      HasNodes (puts ++ [put]) { applied with nodesByName := applied.nodesByName.insertIfNew put.name id }
        graph' := by
  obtain ⟨graph', hput, hedges, node, hnodes, hnodeName, haction⟩ := BuildGraph.putNode_new hname
    (fun id node hnode hsame => hnew (hsame ▸ (h.named node.name id (h.covered id node hnode)).1)) put.action
  have hunknown : put.name ∉ applied.nodesByName := fun hmem => by
    obtain ⟨id, hid⟩ := ExtTreeMap.exists_of_mem hmem
    exact hnew (h.named put.name id hid).1
  have hold {id : NodeId} {other : BuildNode} (hother : graph.nodes[id]? = some other) :
      graph'.nodes[id]? = some other := by
    rw [hnodes, ExtTreeMap.getElem?_insert_of_ne (hok.nodes.next_ne hother), hother]
  have hself : graph'.nodes[(⟨graph.nextNode⟩ : NodeId)]? = some node := by
    rw [hnodes, ExtTreeMap.getElem?_insert_self]
  refine ⟨⟨graph.nextNode⟩, graph', hput, hedges, fun other hother => ?_, fun name id hid => ?_,
    fun id other hother => ?_⟩
  · dsimp only
    rw [ExtTreeMap.getElem?_insertIfNew_of_not_mem hunknown]
    rcases List.mem_append.mp hother with hother | hother
    · have hne : put.name ≠ other.name := fun hsame => hnew (hsame ▸ List.mem_map_of_mem hother)
      obtain ⟨id, node', hid, hnode', hkept⟩ := h.declared other hother
      rw [if_neg hne]
      exact ⟨id, node', hid, hold hnode', hkept⟩
    · rw [List.mem_singleton.mp hother, if_pos rfl]
      exact ⟨_, node, rfl, hself, hnodeName, haction⟩
  · dsimp only at hid
    rw [ExtTreeMap.getElem?_insertIfNew_of_not_mem hunknown] at hid
    split_ifs at hid with hsame
    · obtain rfl := Option.some.inj hid
      exact ⟨by simp [hsame], node, hself, hnodeName.trans hsame⟩
    · obtain ⟨hmem, node', hnode', hname'⟩ := h.named name id hid
      exact ⟨by simpa using .inl (by simpa using hmem), node', hold hnode', hname'⟩
  · dsimp only
    rw [ExtTreeMap.getElem?_insertIfNew_of_not_mem hunknown]
    rw [hnodes] at hother
    obtain ⟨rfl, rfl⟩ | ⟨_, hkept⟩ := ExtTreeMap.getElem?_insert_cases hother
    · rw [if_pos hnodeName.symm]
    · have hne : put.name ≠ other.name := fun hsame =>
        hnew (hsame ▸ (h.named other.name id (h.covered id other hkept)).1)
      rw [if_neg hne]
      exact h.covered id other hkept

theorem applyNodes_hasNodes (rest : List ManifestNode) :
    ∀ {workspace : WorkspaceCore} {applied : AppliedManifest} {puts : List ManifestNode} {calls : Nat},
      GraphOk calls workspace.graph → HasNodes puts applied workspace.graph → workspace.graph.edges = ∅ →
        (∀ node ∈ rest, node.name ≠ []) → ((puts ++ rest).map ManifestNode.name).Nodup →
          calls + rest.length + 1 < 2 ^ 64 →
            ∃ workspace' applied', workspace.applyNodes applied rest = (.ok applied', workspace') ∧
              GraphOk (calls + rest.length) workspace'.graph ∧
              HasNodes (puts ++ rest) applied' workspace'.graph ∧ workspace'.graph.edges = ∅ ∧
              applied'.targets = applied.targets := by
  induction rest with
  | nil =>
    intro workspace applied puts calls hok hnodes hedges _ _ _
    exact ⟨workspace, applied, rfl, hok, by rwa [List.append_nil], hedges, rfl⟩
  | cons node rest ih =>
    intro workspace applied puts calls hok hnodes hedges hnamed hnodup hcalls
    rw [List.length_cons] at hcalls
    obtain ⟨hname, hrest⟩ := List.forall_mem_cons.mp hnamed
    have hnew : node.name ∉ puts.map ManifestNode.name := by
      rw [List.map_append, List.nodup_append] at hnodup
      exact fun hmem => hnodup.2.2 _ hmem _ List.mem_cons_self rfl
    obtain ⟨id, graph', hput, hedges', hnodes'⟩ := hnodes.put hok hname hnew
    have hok' := ((workspace.graph.change (.putNode node.name node.action)).ok hok (by omega)).1
    rw [BuildGraph.after, hput] at hok'
    obtain ⟨workspace', applied', happly, hlast, hall, hnone, htargets⟩ :=
      @ih { workspace with graph := graph' } _ _ _ hok' hnodes' (hedges'.trans hedges) hrest
        (by rwa [List.append_assoc]) (by omega)
    refine ⟨workspace', applied', ?_, ?_, by rwa [List.append_assoc] at hall, hnone, htargets⟩
    · rw [applyNodes, putNode, hput]
      exact happly
    · rw [List.length_cons, Nat.add_comm rest.length, ← Nat.add_assoc]
      exact hlast

theorem applyEdges_hasEdges (rest : List ManifestEdge) :
    ∀ {workspace : WorkspaceCore} {before : List ManifestEdge} {calls : Nat},
      GraphOk calls workspace.graph → HasNodes puts applied workspace.graph →
        HasEdges before applied workspace.graph →
          (∀ edge ∈ rest, edge.fromName ∈ puts.map ManifestNode.name ∧
            edge.toName ∈ puts.map ManifestNode.name) →
          calls + rest.length + 1 < 2 ^ 64 →
            ∃ workspace', workspace.applyEdges applied rest = (.ok (), workspace') ∧
              GraphOk (calls + rest.length) workspace'.graph ∧ HasNodes puts applied workspace'.graph ∧
              HasEdges (before ++ rest) applied workspace'.graph := by
  induction rest with
  | nil =>
    intro workspace before calls hok hnodes hedges _ _
    exact ⟨workspace, rfl, hok, hnodes, by rwa [List.append_nil]⟩
  | cons edge rest ih =>
    intro workspace before calls hok hnodes hedges hknown hcalls
    rw [List.length_cons] at hcalls
    obtain ⟨⟨hfrom, hto⟩, hrest⟩ := List.forall_mem_cons.mp hknown
    obtain ⟨fromNode, hfromNode, hgetFrom⟩ := hnodes.get hfrom
    obtain ⟨toNode, htoNode, hgetTo⟩ := hnodes.get hto
    obtain ⟨id, graph', hput, hsame, hiff⟩ :=
      BuildGraph.putEdge_hasEdge hok ⟨hfromNode, htoNode⟩ edge.kind
    have hok' := ((workspace.graph.change (.putEdge fromNode toNode edge.kind)).ok hok (by omega)).1
    rw [BuildGraph.after, hput] at hok'
    have hedges' : HasEdges (before ++ [edge]) applied graph' := by
      intro fromNode' toNode' kind'
      rw [hiff, hedges fromNode' toNode' kind']
      simp only [List.mem_append, List.mem_singleton, or_and_right, exists_or, exists_eq_left, hgetFrom, hgetTo,
        Option.some.injEq]
    obtain ⟨workspace', happly, hlast, hall, hput'⟩ :=
      @ih { workspace with graph := graph' } _ _ hok' (hnodes.sameNodes hsame) hedges' hrest (by omega)
    refine ⟨workspace', ?_, ?_, hall, by rwa [List.append_assoc] at hput'⟩
    · rw [applyEdges, hgetFrom, hgetTo]
      dsimp only
      rw [putEdge, hput]
      exact happly
    · rw [List.length_cons, Nat.add_comm rest.length, ← Nat.add_assoc]
      exact hlast

theorem applyTargets_eq (rest : List Str) :
    ∀ {applied : AppliedManifest}, (∀ target ∈ rest, target ∈ applied.nodesByName) →
      ∃ ids, applyTargets applied rest = .ok { applied with targets := applied.targets ++ ids } ∧
        rest.map (applied.nodesByName[·]?) = ids.map some := by
  induction rest with
  | nil => exact fun {applied} _ => ⟨[], by rw [List.append_nil]; rfl, rfl⟩
  | cons target rest ih =>
    intro applied hknown
    obtain ⟨htarget, hrest⟩ := List.forall_mem_cons.mp hknown
    obtain ⟨id, hid⟩ := ExtTreeMap.exists_of_mem htarget
    obtain ⟨ids, happly, hids⟩ := @ih { applied with targets := applied.targets ++ [id] } hrest
    refine ⟨id :: ids, ?_, ?_⟩
    · rw [applyTargets, hid]
      simpa using happly
    · rw [List.map_cons, List.map_cons, hid, ← hids]

/-! ## Whole manifests -/

/-- The targets of a manifest: those declared, or else its last node. -/
def targetNames (manifest : GraphManifest) : List Str :=
  if manifest.targets = [] then (manifest.nodes.getLast?.map ManifestNode.name).toList else manifest.targets

/-- **The declared graph.** -/
structure Declares (manifest : GraphManifest) (applied : AppliedManifest) (graph : BuildGraph) : Prop where
  names : ∀ name, name ∈ applied.nodesByName ↔ name ∈ manifest.names
  nodes : Set.BijOn (fun name => applied.nodesByName[name]?) {name | name ∈ manifest.names}
    (some '' {id | id ∈ graph.nodes})
  actions : ∀ put ∈ manifest.nodes, ∃ (id : NodeId) (node : BuildNode),
    applied.nodesByName[put.name]? = some id ∧ graph.nodes[id]? = some node ∧ node.name = put.name ∧
      node.action = put.action
  edges : ∀ fromNode toNode kind, graph.HasEdge fromNode toNode kind ↔ ∃ put ∈ manifest.edges,
    applied.nodesByName[put.fromName]? = some fromNode ∧ applied.nodesByName[put.toName]? = some toNode ∧
      put.kind = kind
  merged : ∀ (id id' : EdgeId) (edge edge' : DependencyEdge), graph.edges[id]? = some edge →
    graph.edges[id']? = some edge' → edge.fromNode = edge'.fromNode → edge.toNode = edge'.toNode →
      edge.kind = edge'.kind → id = id'
  targets : (targetNames manifest).map (applied.nodesByName[·]?) = applied.targets.map some

theorem HasNodes.declares {manifest : GraphManifest} {calls : Nat} (h : HasNodes manifest.nodes applied graph)
    (hok : GraphOk calls graph) (hedges : HasEdges manifest.edges applied graph)
    (htargets : (targetNames manifest).map (applied.nodesByName[·]?) = applied.targets.map some) :
    Declares manifest applied graph := by
  refine ⟨fun name => ⟨fun hmem => ?_, fun hmem => ?_⟩,
    ⟨fun name hname => ?_, fun name hname name' _ hsame => ?_, ?_⟩, h.declared, hedges, hok.edges.distinct,
    htargets⟩
  · obtain ⟨id, hid⟩ := ExtTreeMap.exists_of_mem hmem
    exact (h.named name id hid).1
  · obtain ⟨id, -, hid⟩ := h.get hmem
    exact ExtTreeMap.mem_of_getElem?_eq_some hid
  · obtain ⟨id, hid, hget⟩ := h.get hname
    exact ⟨id, hid, hget.symm⟩
  · obtain ⟨id, -, hget⟩ := h.get hname
    exact h.injective hget (hsame.symm.trans hget)
  · rintro _ ⟨id, hid, rfl⟩
    obtain ⟨node, hnode⟩ := BuildGraph.exists_node hid
    have hget := h.covered id node hnode
    exact ⟨node.name, (h.named _ id hget).1, hget⟩

theorem hasNodes_empty : HasNodes [] {} {} := by
  refine ⟨by simp, fun name id hid => ?_, fun id node hnode => ?_⟩
  · simp at hid
  · simp at hnode

theorem hasEdges_empty (applied : AppliedManifest) (hedges : graph.edges = ∅) : HasEdges [] applied graph := by
  intro fromNode toNode kind
  simp [BuildGraph.HasEdge, hedges]

theorem defaultTarget_eq {manifest : GraphManifest} (hnodes : manifest.nodes ≠ [])
    (hknown : ∀ name ∈ manifest.names, name ∈ applied.nodesByName)
    (htargets : manifest.targets.map (applied.nodesByName[·]?) = applied.targets.map some) :
    ∃ ids, defaultTarget manifest applied = .value (.ok { applied with targets := ids }) ∧
      (targetNames manifest).map (applied.nodesByName[·]?) = ids.map some := by
  have hsame : applied.targets = [] ↔ manifest.targets = [] := by
    rw [← List.length_eq_zero_iff, ← List.length_eq_zero_iff]
    have hlength := congrArg List.length htargets
    rw [List.length_map, List.length_map] at hlength
    rw [hlength]
  rw [defaultTarget, targetNames, List.getLast?_eq_some_getLast hnodes]
  dsimp only
  by_cases hnone : manifest.targets = []
  · obtain ⟨id, hid⟩ := ExtTreeMap.exists_of_mem
      (hknown _ (List.mem_map_of_mem (List.getLast_mem hnodes)))
    rw [if_pos (hsame.mpr hnone), if_pos hnone, hid]
    exact ⟨[id], rfl, by simp [hid]⟩
  · rw [if_neg fun h => hnone (hsame.mp h), if_neg hnone]
    exact ⟨applied.targets, rfl, htargets⟩

theorem applyManifest_declares {manifest : GraphManifest} (hclosed : manifest.Closed)
    (hnodup : manifest.names.Nodup) (hne : manifest.nodes ≠ [])
    (hnodes : manifest.nodes.length < 2 ^ 63) (hedges : manifest.edges.length < 2 ^ 63) :
    ∃ applied workspace', ({} : WorkspaceCore).applyManifest manifest = (.value (.ok applied), workspace') ∧
      Declares manifest applied workspace'.graph := by
  obtain ⟨workspace₁, applied₁, hputNodes, hok₁, hhasNodes₁, hnone₁, htargets₁⟩ :=
    @applyNodes_hasNodes manifest.nodes {} {} [] 0 BuildGraph.graphOk_empty hasNodes_empty rfl hclosed.named
      hnodup (by omega)
  obtain ⟨workspace₂, hputEdges, hok₂, hhasNodes₂, hhasEdges₂⟩ :=
    @applyEdges_hasEdges manifest.nodes applied₁ manifest.edges workspace₁ [] _ hok₁ hhasNodes₁
      (hasEdges_empty applied₁ hnone₁) hclosed.edges (by omega)
  have hknown : ∀ name ∈ manifest.names, name ∈ applied₁.nodesByName := fun name hname => by
    obtain ⟨id, -, hid⟩ := hhasNodes₂.get hname
    exact ExtTreeMap.mem_of_getElem?_eq_some hid
  obtain ⟨ids, hlooked, hids⟩ := applyTargets_eq manifest.targets fun target htarget =>
    hknown target (hclosed.targets target htarget)
  rw [htargets₁, List.nil_append] at hlooked
  obtain ⟨ids', hdefault, hids'⟩ := @defaultTarget_eq { applied₁ with targets := ids } manifest hne hknown hids
  refine ⟨{ applied₁ with targets := ids' }, workspace₂, ?_, ?_⟩
  · rw [applyManifest, hputNodes]
    dsimp only
    rw [hputEdges]
    dsimp only
    rw [hlooked]
    dsimp only
    rw [hdefault]
  · exact HasNodes.declares ⟨hhasNodes₂.declared, hhasNodes₂.named, hhasNodes₂.covered⟩ hok₂ hhasEdges₂ hids'

/-- **Applying what was read builds the declared graph**, and fails only for a name that is no node's. -/
theorem apply_parsed {text : Str} {manifest : GraphManifest} (h : parseManifest text = .ok manifest)
    (hnodes : manifest.nodes.length < 2 ^ 63) (hedges : manifest.edges.length < 2 ^ 63) :
    let after := ({} : WorkspaceCore).applyManifest manifest
    ((∃ applied, after.1 = .value (.ok applied)) ↔
      (∀ edge ∈ manifest.edges, edge.fromName ∈ manifest.names ∧ edge.toName ∈ manifest.names) ∧
        ∀ target ∈ manifest.targets, target ∈ manifest.names) ∧
      ∀ applied, after.1 = .value (.ok applied) → Declares manifest applied after.2.graph := by
  intro after
  obtain ⟨-, -, -, hnodup, hne⟩ := parseManifest_eq_ok_iff.mp h
  have hsuccess {applied : AppliedManifest} (happlied : after.1 = .value (.ok applied)) : manifest.Closed := by
    by_contra hopen
    obtain ⟨count, ⟨status, hfail⟩, -⟩ := applyManifest_not_closed {} hopen
    rw [show after.1 = .value (.error status) from hfail] at happlied
    cases happlied
  refine ⟨⟨fun ⟨applied, happlied⟩ => ?_, fun ⟨hends, htargets⟩ => ?_⟩, fun applied happlied => ?_⟩
  · exact ⟨(hsuccess happlied).edges, (hsuccess happlied).targets⟩
  · exact applyManifest_closed {} ⟨fun put hput => name_ne_nil_of_parse h hput, hends, htargets⟩
  · obtain ⟨applied', workspace', happly, hdeclares⟩ :=
      applyManifest_declares (hsuccess happlied) hnodup hne hnodes hedges
    rw [show after = _ from happly] at happlied ⊢
    cases happlied
    exact hdeclares

/-- An edge that stands twice, in front of a node of it. -/
def twiceManifest : GraphManifest where
  nodes := [⟨"core", { command := "c" }⟩, ⟨"app", { command := "a" }⟩]
  edges := [⟨"app", "core", .declared⟩, ⟨"app", "core", .declared⟩]

theorem apply_parsed_twice :
    let after := ({} : WorkspaceCore).applyManifest twiceManifest
    ∃ applied, after.1 = .value (.ok applied) ∧ Declares twiceManifest applied after.2.graph := by
  intro after
  obtain ⟨hiff, hdeclares⟩ := @apply_parsed "edge app core\nnode core c\nedge app core declared\nnode app a"
    twiceManifest (by decide +kernel) (by decide) (by decide)
  obtain ⟨applied, happlied⟩ := hiff.mpr ⟨by decide +kernel, by decide +kernel⟩
  exact ⟨applied, happlied, hdeclares applied happlied⟩

end WorkspaceCore

end Forge
