import Forge.Graph.BuildGraph

/-!
# Runs of the build graph

A call of `put_node`, `put_edge` or `remove_discovered_from` does one of five things to the graph
(`Change`). As long as the counters do not wrap, each of them keeps the maps well formed (`NodesOk`,
`EdgesOk`) and continues what was there: nodes keep their names, and an id below the counter stands for
the edge it was given to or for none. `invariants_run` says this of all runs.
-/

namespace Forge

open Std (ExtTreeMap)

inductive GraphCall
  | putNode (name : Str) (action : ActionSpec)
  | putEdge (fromNode toNode : NodeId) (kind : EdgeKind)
  | removeDiscoveredFrom (fromNode : NodeId)
deriving DecidableEq

/-- What holds of the nodes under a counter and a generation. -/
structure NodesOk (nextNode : UInt64) (generation : Generation) (nodes : NodeMap) : Prop where
  key : ∀ (id : NodeId) (node : BuildNode), nodes[id]? = some node → node.id = id
  issued : ∀ (id : NodeId) (node : BuildNode), nodes[id]? = some node →
    id.value.toNat < nextNode.toNat
  named : ∀ (id : NodeId) (node : BuildNode), nodes[id]? = some node → node.name ≠ []
  distinct : ∀ (id id' : NodeId) (node node' : BuildNode), nodes[id]? = some node →
    nodes[id']? = some node' → node.name = node'.name → id = id'
  generation : ∀ (id : NodeId) (node : BuildNode), nodes[id]? = some node →
    node.generation.value.toNat ≤ generation.value.toNat

/-- What holds of the edges under a counter and a generation. -/
structure EdgesOk (nextEdge : UInt64) (generation : Generation) (edges : EdgeMap) : Prop where
  key : ∀ (id : EdgeId) (edge : DependencyEdge), edges[id]? = some edge → edge.id = id
  issued : ∀ (id : EdgeId) (edge : DependencyEdge), edges[id]? = some edge →
    id.value.toNat < nextEdge.toNat
  distinct : ∀ (id id' : EdgeId) (edge edge' : DependencyEdge), edges[id]? = some edge →
    edges[id']? = some edge' → edge.fromNode = edge'.fromNode → edge.toNode = edge'.toNode →
      edge.kind = edge'.kind → id = id'
  generation : ∀ (id : EdgeId) (edge : DependencyEdge), edges[id]? = some edge →
    edge.generation.value.toNat ≤ generation.value.toNat

namespace BuildGraph

theorem endpoints_empty : EndpointsIn ∅ ∅ := by simp [EndpointsIn]

def empty : BuildGraph := { nextNode := 1, nextEdge := 1, nodes := ∅, edges := ∅, endpoints := endpoints_empty }

def after (graph : BuildGraph) : GraphCall → BuildGraph
  | .putNode name action => (graph.putNode name action).2
  | .putEdge fromNode toNode kind => (graph.putEdge fromNode toNode kind).2
  | .removeDiscoveredFrom fromNode => graph.removeDiscoveredFrom fromNode

def run (calls : List GraphCall) : BuildGraph := calls.foldl after empty

/-- The call succeeds, and is no `put_edge` that finds the edge there already. -/
def mutates (graph : BuildGraph) : GraphCall → Bool
  | .putNode name action => (graph.putNode name action).1.isOk
  | .putEdge fromNode toNode kind =>
    (graph.putEdge fromNode toNode kind).1.isOk && (graph.edgeLike fromNode toNode kind).isNone
  | .removeDiscoveredFrom _ => true

/-! ## One call -/

/-- What one call can do to the graph; `mutated` says whether it publishes a generation. -/
inductive Change (graph : BuildGraph) : (mutated : Bool) → BuildGraph → Prop
  | nothing : Change graph false graph
  | updates {id : NodeId} {node : BuildNode} (updated : BuildNode)
      (hends : EndpointsIn (graph.nodes.insert id updated) graph.edges)
      (hnode : graph.nodes[id]? = some node) (hid : updated.id = node.id)
      (hname : updated.name = node.name) (hgeneration : updated.generation = graph.generation.next) :
      Change graph true
        { graph with
          nodes := graph.nodes.insert id updated
          generation := graph.generation.next
          endpoints := hends }
  | addsNode (node : BuildNode)
      (hends : EndpointsIn (graph.nodes.insert ⟨graph.nextNode⟩ node) graph.edges)
      (hid : node.id = ⟨graph.nextNode⟩) (hnamed : node.name ≠ [])
      (hnew : ∀ (id : NodeId) (other : BuildNode), graph.nodes[id]? = some other → other.name ≠ node.name)
      (hgeneration : node.generation = graph.generation.next) :
      Change graph true
        { graph with
          nextNode := graph.nextNode + 1
          nodes := graph.nodes.insert ⟨graph.nextNode⟩ node
          generation := graph.generation.next
          endpoints := hends }
  | addsEdge (edge : DependencyEdge) (source : BuildNode) (updated : BuildNode)
      (hends : EndpointsIn (graph.nodes.insert edge.fromNode updated)
        (graph.edges.insert ⟨graph.nextEdge⟩ edge))
      (hid : edge.id = ⟨graph.nextEdge⟩)
      (hnew : ∀ (id : EdgeId) (other : DependencyEdge), graph.edges[id]? = some other →
        ¬ (other.fromNode = edge.fromNode ∧ other.toNode = edge.toNode ∧ other.kind = edge.kind))
      (hgeneration : edge.generation = graph.generation.next)
      (hsource : graph.nodes[edge.fromNode]? = some source)
      (hupdated : updated = { source with state := .dirty }) :
      Change graph true
        { graph with
          nextEdge := graph.nextEdge + 1
          edges := graph.edges.insert ⟨graph.nextEdge⟩ edge
          nodes := graph.nodes.insert edge.fromNode updated
          generation := graph.generation.next
          endpoints := hends }
  | removes (keep : EdgeId → DependencyEdge → Bool)
      (hends : EndpointsIn graph.nodes (graph.edges.filter keep)) :
      Change graph true
        { graph with
          edges := graph.edges.filter keep
          generation := graph.generation.next
          endpoints := hends }

theorem nodeNamed_some {graph : BuildGraph} {name : Str} {id : NodeId} {node : BuildNode}
    (h : graph.nodeNamed name = some (id, node)) : graph.nodes[id]? = some node ∧ node.name = name := by
  refine ⟨?_, by simpa using List.find?_some h⟩
  exact ExtTreeMap.mem_toList_iff_getElem?_eq_some.mp (List.mem_of_find?_eq_some h)

theorem nodeNamed_none {graph : BuildGraph} {name : Str} (h : graph.nodeNamed name = none) (id : NodeId)
    (node : BuildNode) (hnode : graph.nodes[id]? = some node) : node.name ≠ name := by
  have hentry := ExtTreeMap.mem_toList_iff_getElem?_eq_some.mpr hnode
  simpa using List.find?_eq_none.mp h (id, node) hentry

theorem edgeLike_none {graph : BuildGraph} {fromNode toNode : NodeId} {kind : EdgeKind}
    (h : graph.edgeLike fromNode toNode kind = none) (id : EdgeId) (edge : DependencyEdge)
    (hedge : graph.edges[id]? = some edge) :
    ¬ (edge.fromNode = fromNode ∧ edge.toNode = toNode ∧ edge.kind = kind) := by
  have hentry := ExtTreeMap.mem_toList_iff_getElem?_eq_some.mpr hedge
  simpa using List.find?_eq_none.mp h (id, edge) hentry

theorem change_putNode (graph : BuildGraph) (name : Str) (action : ActionSpec) :
    Change graph (graph.mutates (.putNode name action)) (graph.after (.putNode name action)) := by
  simp only [mutates, after]
  unfold putNode
  by_cases hempty : name = []
  · simp only [if_pos hempty]
    exact .nothing
  · simp only [if_neg hempty]
    cases hfound : graph.nodeNamed name with
    | some entry =>
      obtain ⟨id, node⟩ := entry
      exact .updates _ _ (nodeNamed_some hfound).1 rfl rfl rfl
    | none => exact .addsNode _ _ rfl hempty (nodeNamed_none hfound) rfl

theorem change_putEdge (graph : BuildGraph) (fromNode toNode : NodeId) (kind : EdgeKind) :
    Change graph (graph.mutates (.putEdge fromNode toNode kind))
      (graph.after (.putEdge fromNode toNode kind)) := by
  simp only [mutates, after]
  unfold putEdge
  by_cases hends : fromNode ∈ graph.nodes ∧ toNode ∈ graph.nodes
  · simp only [dif_pos hends]
    cases hfound : graph.edgeLike fromNode toNode kind with
    | some entry => exact .nothing
    | none =>
      have hfrom := hends.1
      obtain ⟨source, hsource⟩ := exists_node hfrom
      have hget : graph.nodes[fromNode] = source :=
        Option.some.inj ((ExtTreeMap.getElem?_eq_some_getElem hfrom).symm.trans hsource)
      exact .addsEdge ⟨⟨graph.nextEdge⟩, graph.generation.next, fromNode, toNode, kind⟩ source _ _ rfl
        (edgeLike_none hfound) rfl hsource (by rw [hget])
  · simp only [dif_neg hends]
    exact .nothing

/-- **What a call does.** -/
theorem change (graph : BuildGraph) (call : GraphCall) :
    Change graph (graph.mutates call) (graph.after call) := by
  cases call with
  | putNode name action => exact change_putNode graph name action
  | putEdge fromNode toNode kind => exact change_putEdge graph fromNode toNode kind
  | removeDiscoveredFrom fromNode => exact .removes _ _

end BuildGraph

/-! ## The maps stay well formed -/

section

variable {next : UInt64} {generation generation' : Generation}

theorem NodesOk.next_ne {nodes : NodeMap} (h : NodesOk next generation nodes) {id : NodeId} {node : BuildNode}
    (hnode : nodes[id]? = some node) : (⟨next⟩ : NodeId) ≠ id := by
  rintro rfl
  exact Nat.lt_irrefl _ (h.issued _ node hnode)

theorem EdgesOk.next_ne {edges : EdgeMap} (h : EdgesOk next generation edges) {id : EdgeId}
    {edge : DependencyEdge} (hedge : edges[id]? = some edge) : (⟨next⟩ : EdgeId) ≠ id := by
  rintro rfl
  exact Nat.lt_irrefl _ (h.issued _ edge hedge)

theorem NodesOk.replace {nodes : NodeMap} (h : NodesOk next generation nodes) {id : NodeId}
    {node updated : BuildNode} (hnode : nodes[id]? = some node) (hid : updated.id = node.id)
    (hname : updated.name = node.name) (hle : generation.value.toNat ≤ generation'.value.toNat)
    (hgeneration : updated.generation.value.toNat ≤ generation'.value.toNat) :
    NodesOk next generation' (nodes.insert id updated) := by
  -- every node behind the step has the id and the name of the one before it
  have hbefore {id' : NodeId} {node' : BuildNode} (hnode' : (nodes.insert id updated)[id']? = some node') :
      ∃ old, nodes[id']? = some old ∧ node'.id = old.id ∧ node'.name = old.name ∧
        node'.generation.value.toNat ≤ generation'.value.toNat := by
    obtain ⟨rfl, rfl⟩ | ⟨_, hkept⟩ := ExtTreeMap.getElem?_insert_cases hnode'
    · exact ⟨node, hnode, hid, hname, hgeneration⟩
    · exact ⟨node', hkept, rfl, rfl, (h.generation id' node' hkept).trans hle⟩
  refine ⟨fun id' node' h' => ?_, fun id' node' h' => ?_, fun id' node' h' => ?_,
    fun a b node' other' ha hb hsame => ?_, fun id' node' h' => ?_⟩
  · obtain ⟨old, hold, hkey, _⟩ := hbefore h'
    rw [hkey, h.key id' old hold]
  · obtain ⟨old, hold, _⟩ := hbefore h'
    exact h.issued id' old hold
  · obtain ⟨old, hold, _, hkept, _⟩ := hbefore h'
    rw [hkept]
    exact h.named id' old hold
  · obtain ⟨old, hold, _, hkept, _⟩ := hbefore ha
    obtain ⟨old', hold', _, hkept', _⟩ := hbefore hb
    exact h.distinct a b old old' hold hold' (by rw [← hkept, ← hkept', hsame])
  · obtain ⟨_, _, _, _, hbound⟩ := hbefore h'
    exact hbound

theorem NodesOk.add {nodes : NodeMap} (h : NodesOk next generation nodes) {node : BuildNode}
    (hid : node.id = ⟨next⟩) (hnamed : node.name ≠ [])
    (hnew : ∀ (id : NodeId) (other : BuildNode), nodes[id]? = some other → other.name ≠ node.name)
    (hnext : (next + 1).toNat = next.toNat + 1) (hle : generation.value.toNat ≤ generation'.value.toNat)
    (hgeneration : node.generation.value.toNat ≤ generation'.value.toNat) :
    NodesOk (next + 1) generation' (nodes.insert ⟨next⟩ node) := by
  refine ⟨fun id' node' h' => ?_, fun id' node' h' => ?_, fun id' node' h' => ?_,
    fun a b node' other' ha hb hsame => ?_, fun id' node' h' => ?_⟩
  · obtain ⟨rfl, rfl⟩ | ⟨_, hold⟩ := ExtTreeMap.getElem?_insert_cases h'
    · exact hid
    · exact h.key id' node' hold
  · obtain ⟨rfl, rfl⟩ | ⟨_, hold⟩ := ExtTreeMap.getElem?_insert_cases h'
    · rw [hnext]
      exact Nat.lt_succ_self _
    · have hissued := h.issued id' node' hold
      omega
  · obtain ⟨rfl, rfl⟩ | ⟨_, hold⟩ := ExtTreeMap.getElem?_insert_cases h'
    · exact hnamed
    · exact h.named id' node' hold
  · obtain ⟨rfl, rfl⟩ | ⟨_, hold⟩ := ExtTreeMap.getElem?_insert_cases ha
    · obtain ⟨rfl, rfl⟩ | ⟨_, hold'⟩ := ExtTreeMap.getElem?_insert_cases hb
      · rfl
      · exact absurd hsame.symm (hnew b other' hold')
    · obtain ⟨rfl, rfl⟩ | ⟨_, hold'⟩ := ExtTreeMap.getElem?_insert_cases hb
      · exact absurd hsame (hnew a node' hold)
      · exact h.distinct a b node' other' hold hold' hsame
  · obtain ⟨rfl, rfl⟩ | ⟨_, hold⟩ := ExtTreeMap.getElem?_insert_cases h'
    · exact hgeneration
    · exact (h.generation id' node' hold).trans hle

theorem NodesOk.mono {nodes : NodeMap} (h : NodesOk next generation nodes)
    (hle : generation.value.toNat ≤ generation'.value.toNat) : NodesOk next generation' nodes :=
  ⟨h.key, h.issued, h.named, h.distinct, fun id node hnode => (h.generation id node hnode).trans hle⟩

theorem EdgesOk.add {edges : EdgeMap} (h : EdgesOk next generation edges) {edge : DependencyEdge}
    (hid : edge.id = ⟨next⟩)
    (hnew : ∀ (id : EdgeId) (other : DependencyEdge), edges[id]? = some other →
      ¬ (other.fromNode = edge.fromNode ∧ other.toNode = edge.toNode ∧ other.kind = edge.kind))
    (hnext : (next + 1).toNat = next.toNat + 1) (hle : generation.value.toNat ≤ generation'.value.toNat)
    (hgeneration : edge.generation.value.toNat ≤ generation'.value.toNat) :
    EdgesOk (next + 1) generation' (edges.insert ⟨next⟩ edge) := by
  refine ⟨fun id' edge' h' => ?_, fun id' edge' h' => ?_,
    fun a b edge' other' ha hb hfrom hto hkind => ?_, fun id' edge' h' => ?_⟩
  · obtain ⟨rfl, rfl⟩ | ⟨_, hold⟩ := ExtTreeMap.getElem?_insert_cases h'
    · exact hid
    · exact h.key id' edge' hold
  · obtain ⟨rfl, rfl⟩ | ⟨_, hold⟩ := ExtTreeMap.getElem?_insert_cases h'
    · rw [hnext]
      exact Nat.lt_succ_self _
    · have hissued := h.issued id' edge' hold
      omega
  · obtain ⟨rfl, rfl⟩ | ⟨_, hold⟩ := ExtTreeMap.getElem?_insert_cases ha
    · obtain ⟨rfl, rfl⟩ | ⟨_, hold'⟩ := ExtTreeMap.getElem?_insert_cases hb
      · rfl
      · exact absurd ⟨hfrom.symm, hto.symm, hkind.symm⟩ (hnew b other' hold')
    · obtain ⟨rfl, rfl⟩ | ⟨_, hold'⟩ := ExtTreeMap.getElem?_insert_cases hb
      · exact absurd ⟨hfrom, hto, hkind⟩ (hnew a edge' hold)
      · exact h.distinct a b edge' other' hold hold' hfrom hto hkind
  · obtain ⟨rfl, rfl⟩ | ⟨_, hold⟩ := ExtTreeMap.getElem?_insert_cases h'
    · exact hgeneration
    · exact (h.generation id' edge' hold).trans hle

theorem EdgesOk.subset {edges edges' : EdgeMap} (h : EdgesOk next generation edges)
    (hsubset : ∀ (id : EdgeId) (edge : DependencyEdge), edges'[id]? = some edge → edges[id]? = some edge)
    (hle : generation.value.toNat ≤ generation'.value.toNat) : EdgesOk next generation' edges' :=
  ⟨fun id edge hedge => h.key id edge (hsubset id edge hedge),
    fun id edge hedge => h.issued id edge (hsubset id edge hedge),
    fun a b edge other ha hb => h.distinct a b edge other (hsubset a edge ha) (hsubset b other hb),
    fun id edge hedge => (h.generation id edge (hsubset id edge hedge)).trans hle⟩

end

/-! ## One step of a run -/

/-- What a later state of a graph keeps. An edge id below the counter is not given again. -/
structure Continues (graph graph' : BuildGraph) : Prop where
  names : ∀ (id : NodeId) (node : BuildNode), graph.nodes[id]? = some node →
    ∃ node', graph'.nodes[id]? = some node' ∧ node'.name = node.name
  edges : ∀ (id : EdgeId) (edge : DependencyEdge), graph'.edges[id]? = some edge →
    id.value.toNat < graph.nextEdge.toNat → graph.edges[id]? = some edge
  nextEdge : graph.nextEdge.toNat ≤ graph'.nextEdge.toNat
  generation : graph.generation.value.toNat ≤ graph'.generation.value.toNat

theorem Continues.refl (graph : BuildGraph) : Continues graph graph :=
  ⟨fun _ node hnode => ⟨node, hnode, rfl⟩, fun _ _ hedge _ => hedge, Nat.le_refl _, Nat.le_refl _⟩

theorem Continues.trans {graph graph' graph'' : BuildGraph} (h : Continues graph graph')
    (h' : Continues graph' graph'') : Continues graph graph'' := by
  refine ⟨fun id node hnode => ?_, fun id edge hedge hid => ?_, h.nextEdge.trans h'.nextEdge,
    h.generation.trans h'.generation⟩
  · obtain ⟨node', hnode', hname⟩ := h.names id node hnode
    obtain ⟨node'', hnode'', hname'⟩ := h'.names id node' hnode'
    exact ⟨node'', hnode'', hname'.trans hname⟩
  · exact h.edges id edge (h'.edges id edge hedge (hid.trans_le h.nextEdge)) hid

/-- The graph behind at most `calls` calls. -/
structure GraphOk (calls : Nat) (graph : BuildGraph) : Prop where
  nodes : NodesOk graph.nextNode graph.generation graph.nodes
  edges : EdgesOk graph.nextEdge graph.generation graph.edges
  nextNode : graph.nextNode.toNat ≤ calls + 1
  nextEdge : graph.nextEdge.toNat ≤ calls + 1
  generation : graph.generation.value.toNat ≤ calls + 1

theorem toNat_add_one {n : UInt64} (h : n.toNat + 1 < 2 ^ 64) : (n + 1).toNat = n.toNat + 1 := by
  rw [UInt64.toNat_add, UInt64.toNat_one, Nat.mod_eq_of_lt h]

theorem continues_insert_node {graph : BuildGraph} {id : NodeId} {node updated : BuildNode}
    (hnode : graph.nodes[id]? = some node) (hname : updated.name = node.name) (other : NodeId)
    (before : BuildNode) (hbefore : graph.nodes[other]? = some before) :
    ∃ node', (graph.nodes.insert id updated)[other]? = some node' ∧ node'.name = before.name := by
  by_cases hsame : id = other
  · subst hsame
    obtain rfl := Option.some.inj (hnode.symm.trans hbefore)
    exact ⟨updated, ExtTreeMap.getElem?_insert_self, hname⟩
  · exact ⟨before, (ExtTreeMap.getElem?_insert_of_ne hsame).trans hbefore, rfl⟩

/-- **A call keeps the graph well formed** and continues it, as long as the counters do not wrap. -/
theorem BuildGraph.Change.ok {graph graph' : BuildGraph} {mutated : Bool} (h : Change graph mutated graph')
    {calls : Nat} (hok : GraphOk calls graph) (hcalls : calls + 2 < 2 ^ 64) :
    GraphOk (calls + 1) graph' ∧ Continues graph graph' ∧
      graph'.generation.value.toNat = graph.generation.value.toNat + mutated.toNat := by
  obtain ⟨hnodes, hedges, hnextNode, hnextEdge, hgeneration⟩ := hok
  have hbump : (graph.generation.next).value.toNat = graph.generation.value.toNat + 1 :=
    toNat_add_one (by omega)
  have hle : graph.generation.value.toNat ≤ (graph.generation.next).value.toNat := by omega
  have hnode := toNat_add_one (show graph.nextNode.toNat + 1 < 2 ^ 64 by omega)
  have hedge := toNat_add_one (show graph.nextEdge.toNat + 1 < 2 ^ 64 by omega)
  have hnames (id : NodeId) (node : BuildNode) (h : graph.nodes[id]? = some node) :
      ∃ node', graph.nodes[id]? = some node' ∧ node'.name = node.name := ⟨node, h, rfl⟩
  cases h with
  | nothing =>
    exact ⟨⟨hnodes, hedges, by omega, by omega, by omega⟩, .refl graph, rfl⟩
  | updates updated _ hlive hid hname hnew =>
    refine ⟨⟨hnodes.replace hlive hid hname hle (by rw [hnew]), hedges.subset (fun _ _ h => h) hle,
      ?_, ?_, ?_⟩, ⟨continues_insert_node hlive hname, fun _ _ h _ => h, Nat.le_refl _, hle⟩, hbump⟩
    all_goals dsimp only; omega
  | addsNode node _ hid hnamed hfresh hnew =>
    refine ⟨⟨hnodes.add hid hnamed hfresh hnode hle (by rw [hnew]), hedges.subset (fun _ _ h => h) hle,
      ?_, ?_, ?_⟩, ⟨fun id before hbefore => ?_, fun _ _ h _ => h, Nat.le_refl _, hle⟩, hbump⟩
    · dsimp only; omega
    · dsimp only; omega
    · dsimp only; omega
    · exact ⟨before, (ExtTreeMap.getElem?_insert_of_ne (hnodes.next_ne hbefore)).trans hbefore, rfl⟩
  | addsEdge edge source updated _ hid hfresh hnew hsource hupdated =>
    have hkept : updated.id = source.id ∧ updated.name = source.name ∧
        updated.generation = source.generation := by
      rw [hupdated]
      exact ⟨rfl, rfl, rfl⟩
    refine ⟨⟨hnodes.replace hsource hkept.1 hkept.2.1 hle ?_,
      hedges.add hid hfresh hedge hle (by rw [hnew]), ?_, ?_, ?_⟩,
      ⟨continues_insert_node hsource hkept.2.1, fun id other hother hissued => ?_, ?_, hle⟩, hbump⟩
    · rw [hkept.2.2]
      exact (hnodes.generation _ _ hsource).trans hle
    · dsimp only; omega
    · dsimp only; omega
    · dsimp only; omega
    · obtain ⟨rfl, _⟩ | ⟨_, hkept⟩ := ExtTreeMap.getElem?_insert_cases hother
      · exact absurd hissued (Nat.lt_irrefl _)
      · exact hkept
    · dsimp only; omega
  | removes keep =>
    have hsubset (id : EdgeId) (edge : DependencyEdge) (h : (graph.edges.filter keep)[id]? = some edge) :
        graph.edges[id]? = some edge := ExtTreeMap.getElem?_of_filter h
    refine ⟨⟨hnodes.mono hle, hedges.subset hsubset hle, ?_, ?_, ?_⟩,
      ⟨hnames, fun id edge h _ => hsubset id edge h, Nat.le_refl _, hle⟩, hbump⟩
    all_goals dsimp only; omega

namespace BuildGraph

/-! ## Runs -/

theorem graphOk_empty : GraphOk 0 empty := by
  refine ⟨⟨?_, ?_, ?_, ?_, ?_⟩, ⟨?_, ?_, ?_, ?_⟩, Nat.le_refl 1, Nat.le_refl 1, Nat.le_refl 1⟩
  all_goals simp [empty]

theorem run_snoc (before : List GraphCall) (call : GraphCall) :
    run (before ++ [call]) = (run before).after call := by
  unfold run
  rw [List.foldl_append]
  rfl

theorem graphOk_run (calls : List GraphCall) (hlength : calls.length < 2 ^ 64 - 1) :
    GraphOk calls.length (run calls) := by
  induction calls using List.reverseRecOn with
  | nil => exact graphOk_empty
  | append_singleton before call ih =>
    rw [List.length_append, List.length_singleton] at hlength ⊢
    rw [run_snoc]
    exact ((change (run before) call).ok (ih (by omega)) (by omega)).1

theorem continues_run {earlier calls : List GraphCall} (hearlier : earlier <+: calls)
    (hlength : calls.length < 2 ^ 64 - 1) : Continues (run earlier) (run calls) := by
  obtain ⟨later, rfl⟩ := hearlier
  induction later using List.reverseRecOn with
  | nil =>
    rw [List.append_nil]
    exact .refl (run earlier)
  | append_singleton later call ih =>
    rw [← List.append_assoc, List.length_append, List.length_singleton] at hlength
    have hbefore := graphOk_run (earlier ++ later) (by omega)
    rw [← List.append_assoc, run_snoc]
    exact (ih (by omega)).trans ((change _ call).ok hbefore (by omega)).2.1

theorem putNode_ok {graph : BuildGraph} {name : Str} {action : ActionSpec} {id : NodeId}
    (h : (graph.putNode name action).1 = .ok id) :
    ∃ node, (graph.putNode name action).2.nodes[id]? = some node ∧ node.name = name := by
  unfold putNode at h ⊢
  by_cases hempty : name = []
  · rw [if_pos hempty] at h
    cases h
  · rw [if_neg hempty] at h ⊢
    cases hfound : graph.nodeNamed name with
    | some entry =>
      obtain ⟨found, node⟩ := entry
      rw [hfound] at h
      obtain rfl := Except.ok.inj h
      exact ⟨_, ExtTreeMap.getElem?_insert_self, (nodeNamed_some hfound).2⟩
    | none =>
      rw [hfound] at h
      obtain rfl := Except.ok.inj h
      exact ⟨_, ExtTreeMap.getElem?_insert_self, rfl⟩

/-- What the last call of a run does: it moves the generation by one if it mutates the graph, gives no id
that was in use before, and returns the node of the name. -/
structure LastCall (before : List GraphCall) (call : GraphCall) : Prop where
  generation : (run (before ++ [call])).generation.value.toNat =
    (run before).generation.value.toNat + ((run before).mutates call).toNat
  newNode : ∀ id : NodeId, id ∉ (run before).nodes → id ∈ (run (before ++ [call])).nodes →
    ∀ earlier, earlier <+: before → id ∉ (run earlier).nodes
  newEdge : ∀ id : EdgeId, id ∉ (run before).edges → id ∈ (run (before ++ [call])).edges →
    ∀ earlier, earlier <+: before → id ∉ (run earlier).edges
  named : ∀ name action id, call = .putNode name action → ((run before).putNode name action).1 = .ok id →
    ∃ node, (run (before ++ [call])).nodes[id]? = some node ∧ node.name = name

theorem lastCall (before : List GraphCall) (call : GraphCall) (hlength : before.length + 1 < 2 ^ 64 - 1) :
    LastCall before call := by
  have hbefore := graphOk_run before (by omega)
  obtain ⟨_, hcontinues, hgeneration⟩ := (change (run before) call).ok hbefore (by omega)
  refine ⟨by rw [run_snoc, hgeneration], fun id hnew _ earlier hearlier hmem => ?_,
    fun id hnew hlast earlier hearlier hmem => ?_, fun name action id hcall hid => ?_⟩
  · obtain ⟨node, hnode⟩ := exists_node hmem
    obtain ⟨node', hnode', _⟩ := (continues_run hearlier (by omega)).names id node hnode
    exact hnew (ExtTreeMap.mem_of_getElem?_eq_some hnode')
  · -- the id was issued before, so the last call did not give it
    have hearlierOk := graphOk_run earlier (hearlier.length_le.trans_lt (by omega))
    obtain ⟨edge, hedge⟩ := ExtTreeMap.exists_of_mem hmem
    have hissued := (hearlierOk.edges.issued id edge hedge).trans_le
      (continues_run hearlier (by omega)).nextEdge
    rw [run_snoc] at hlast
    obtain ⟨edge', hedge'⟩ := ExtTreeMap.exists_of_mem hlast
    have hstill := hcontinues.edges id edge' hedge' hissued
    exact hnew (ExtTreeMap.mem_of_getElem?_eq_some hstill)
  · rw [run_snoc, hcall]
    exact putNode_ok hid

/-- **A graph stays well formed** over every run of fewer than `2 ^ 64 - 1` calls, and its names and ids
keep their meaning. -/
theorem invariants_run (calls : List GraphCall) (hlength : calls.length < 2 ^ 64 - 1) :
    let graph := run calls
    NodesOk graph.nextNode graph.generation graph.nodes ∧
    EdgesOk graph.nextEdge graph.generation graph.edges ∧
    EndpointsIn graph.nodes graph.edges ∧
    (∀ earlier, earlier <+: calls → Continues (run earlier) graph) ∧
    (∀ before call, before ++ [call] <+: calls → LastCall before call) := by
  intro graph
  have hok := graphOk_run calls hlength
  refine ⟨hok.nodes, hok.edges, graph.endpoints, fun earlier hearlier => continues_run hearlier hlength,
    fun before call hprefix => lastCall before call ?_⟩
  have hle := hprefix.length_le
  rw [List.length_append, List.length_singleton] at hle
  omega

/-- An edge that was discovered and removed does not come back under its old id. -/
theorem invariants_run_rediscovered :
    let before : List GraphCall := [.putNode "lib" {}, .putNode "app" {}, .putEdge ⟨2⟩ ⟨1⟩ .discovered,
      .removeDiscoveredFrom ⟨2⟩]
    let call : GraphCall := .putEdge ⟨2⟩ ⟨1⟩ .discovered
    (run (before ++ [call])).edges[(⟨2⟩ : EdgeId)]?.isSome ∧ LastCall before call := by
  intro before call
  exact ⟨by decide +kernel,
    (invariants_run (before ++ [call]) (by decide)).2.2.2.2 before call (List.prefix_refl _)⟩

end BuildGraph

end Forge
