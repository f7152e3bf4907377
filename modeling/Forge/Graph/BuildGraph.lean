import Forge.Base.Checked
import Forge.Base.Ids
import Forge.Lib.TreeMap

/-!
# The build graph

`BuildGraph` and `GraphSnapshot` of `build_graph.cpp` and `snapshot.cpp`. The maps are ordered by id,
and iteration follows that order. The members of the class are private, so the endpoints of every
edge are nodes; the model carries this as a field. Ids and generations wrap like the `uint64_t` they
are.
-/

namespace Forge

open Std (ExtTreeMap ExtTreeSet)

inductive EdgeKind
  | declared | discovered
deriving DecidableEq, Repr

inductive NodeState
  | clean | dirty | building | failed
deriving DecidableEq, Repr

structure ActionSpec where
  command : Str := []
  options : ExtTreeMap Str Str := ∅
deriving DecidableEq

structure BuildNode where
  id : NodeId
  generation : Generation
  name : Str
  action : ActionSpec
  state : NodeState := .dirty
  lastActionKey : Digest256 := {}
deriving DecidableEq

structure DependencyEdge where
  id : EdgeId
  generation : Generation
  fromNode : NodeId
  toNode : NodeId
  kind : EdgeKind := .declared
deriving DecidableEq, Repr

abbrev NodeMap := ExtTreeMap NodeId BuildNode
abbrev EdgeMap := ExtTreeMap EdgeId DependencyEdge

/-- Both ends of every edge are nodes. -/
def EndpointsIn (nodes : NodeMap) (edges : EdgeMap) : Prop :=
  ∀ (id : EdgeId) (edge : DependencyEdge), edges[id]? = some edge →
    edge.fromNode ∈ nodes ∧ edge.toNode ∈ nodes

theorem EndpointsIn.insert_node {nodes : NodeMap} {edges : EdgeMap} (h : EndpointsIn nodes edges)
    (id : NodeId) (node : BuildNode) : EndpointsIn (nodes.insert id node) edges := by
  intro edgeId edge hedge
  obtain ⟨hfrom, hto⟩ := h edgeId edge hedge
  simp [hfrom, hto]

theorem EndpointsIn.insert_edge {nodes : NodeMap} {edges : EdgeMap} (h : EndpointsIn nodes edges)
    (id : EdgeId) {edge : DependencyEdge} (hedge : edge.fromNode ∈ nodes ∧ edge.toNode ∈ nodes) :
    EndpointsIn nodes (edges.insert id edge) := by
  intro otherId other hother
  obtain ⟨_, rfl⟩ | ⟨_, hkept⟩ := ExtTreeMap.getElem?_insert_cases hother
  · exact hedge
  · exact h otherId other hkept

theorem EndpointsIn.filter {nodes : NodeMap} {edges : EdgeMap} (h : EndpointsIn nodes edges)
    (keep : EdgeId → DependencyEdge → Bool) : EndpointsIn nodes (edges.filter keep) := by
  intro id edge hedge
  exact h id edge (ExtTreeMap.getElem?_of_filter hedge)

structure BuildGraph where
  nextNode : UInt64 := 1
  nextEdge : UInt64 := 1
  generation : Generation := {}
  nodes : NodeMap := ∅
  edges : EdgeMap := ∅
  endpoints : EndpointsIn nodes edges := by simp [EndpointsIn]

structure GraphSnapshot where
  generation : Generation := {}
  nodes : NodeMap := ∅
  edges : EdgeMap := ∅
deriving DecidableEq

namespace BuildGraph

/-! ## Mutations -/

def graphConflict (message : Str) : Status := Status.error .graphConflict "graph" message

/-- The first node with the given name, in id order. -/
def nodeNamed (graph : BuildGraph) (name : Str) : Option (NodeId × BuildNode) :=
  graph.nodes.toList.find? fun entry => entry.2.name = name

/-- `put_node`; it fails exactly on the empty name. -/
def putNode (graph : BuildGraph) (name : Str) (action : ActionSpec) : Result NodeId × BuildGraph :=
  if name = [] then (.error (graphConflict "node name is empty"), graph)
  else
    match graph.nodeNamed name with
    | some (id, node) =>
      let updated := { node with action, generation := graph.generation.next, state := .dirty }
      (.ok id,
        { graph with
          nodes := graph.nodes.insert id updated
          generation := graph.generation.next
          endpoints := graph.endpoints.insert_node id updated })
    | none =>
      let id : NodeId := ⟨graph.nextNode⟩
      let node : BuildNode := { id, generation := graph.generation.next, name, action }
      (.ok id,
        { graph with
          nextNode := graph.nextNode + 1
          nodes := graph.nodes.insert id node
          generation := graph.generation.next
          endpoints := graph.endpoints.insert_node id node })

/-- The first edge with the given ends and kind, in id order. -/
def edgeLike (graph : BuildGraph) (fromNode toNode : NodeId) (kind : EdgeKind) :
    Option (EdgeId × DependencyEdge) :=
  graph.edges.toList.find? fun entry =>
    entry.2.fromNode = fromNode ∧ entry.2.toNode = toNode ∧ entry.2.kind = kind

def putEdge (graph : BuildGraph) (fromNode toNode : NodeId) (kind : EdgeKind) : Result EdgeId × BuildGraph :=
  if hends : fromNode ∈ graph.nodes ∧ toNode ∈ graph.nodes then
    have hfrom := hends.1
    match graph.edgeLike fromNode toNode kind with
    | some (id, _) => (.ok id, graph)
    | none =>
      let id : EdgeId := ⟨graph.nextEdge⟩
      let edge : DependencyEdge := { id, generation := graph.generation.next, fromNode, toNode, kind }
      let source := graph.nodes[fromNode]
      (.ok id,
        { graph with
          nextEdge := graph.nextEdge + 1
          edges := graph.edges.insert id edge
          nodes := graph.nodes.insert fromNode { source with state := .dirty }
          generation := graph.generation.next
          endpoints := (graph.endpoints.insert_edge id hends).insert_node _ _ })
  else (.error (graphConflict "edge references unknown node"), graph)

/-- `remove_discovered_from`; it cannot fail. -/
def removeDiscoveredFrom (graph : BuildGraph) (fromNode : NodeId) : BuildGraph :=
  { graph with
    edges := graph.edges.filter fun _ edge => !(edge.fromNode = fromNode ∧ edge.kind = .discovered)
    generation := graph.generation.next
    endpoints := graph.endpoints.filter _ }

def snapshot (graph : BuildGraph) : GraphSnapshot := ⟨graph.generation, graph.nodes, graph.edges⟩

/-! ## Dependencies -/

/-- There is an edge from `v` to `w`, declared or discovered. -/
def DependsOn (graph : BuildGraph) (v w : NodeId) : Prop :=
  ∃ (id : EdgeId) (edge : DependencyEdge),
    graph.edges[id]? = some edge ∧ edge.fromNode = v ∧ edge.toNode = w

theorem exists_node {graph : BuildGraph} {v : NodeId} (h : v ∈ graph.nodes) :
    ∃ node, graph.nodes[v]? = some node := ExtTreeMap.exists_of_mem h

theorem DependsOn.mem_nodes {graph : BuildGraph} {v w : NodeId} (h : graph.DependsOn v w) :
    v ∈ graph.nodes ∧ w ∈ graph.nodes := by
  obtain ⟨id, edge, hedge, rfl, rfl⟩ := h
  exact graph.endpoints id edge hedge

theorem dependsOn_iff_mem_toList (graph : BuildGraph) (v w : NodeId) :
    graph.DependsOn v w ↔ ∃ entry ∈ graph.edges.toList, entry.2.fromNode = v ∧ entry.2.toNode = w := by
  constructor
  · rintro ⟨id, edge, hedge, hends⟩
    exact ⟨(id, edge), ExtTreeMap.mem_toList_iff_getElem?_eq_some.mpr hedge, hends⟩
  · rintro ⟨⟨id, edge⟩, hmem, hends⟩
    exact ⟨id, edge, ExtTreeMap.mem_toList_iff_getElem?_eq_some.mp hmem, hends⟩

end BuildGraph

namespace GraphSnapshot

def dependencies (snapshot : GraphSnapshot) (node : NodeId) : ExtTreeSet NodeId :=
  snapshot.edges.toList.foldl
    (fun deps entry => if entry.2.fromNode = node then deps.insert entry.2.toNode else deps) ∅

def reverseDependencies (snapshot : GraphSnapshot) (node : NodeId) : ExtTreeSet NodeId :=
  snapshot.edges.toList.foldl
    (fun deps entry => if entry.2.toNode = node then deps.insert entry.2.fromNode else deps) ∅

theorem mem_foldl_insert (here there : DependencyEdge → NodeId) (node v : NodeId)
    (entries : List (EdgeId × DependencyEdge)) (deps : ExtTreeSet NodeId) :
    v ∈ entries.foldl (fun deps entry => if here entry.2 = node then deps.insert (there entry.2) else deps)
        deps ↔ v ∈ deps ∨ ∃ entry ∈ entries, here entry.2 = node ∧ there entry.2 = v := by
  induction entries generalizing deps with
  | nil => simp
  | cons entry entries ih =>
    rw [List.foldl_cons, ih]
    split_ifs with hhere
    · simp only [ExtTreeSet.mem_insert, Std.compare_eq_iff_eq, List.mem_cons, exists_eq_or_imp, hhere,
        true_and]
      tauto
    · simp [hhere]

theorem mem_dependencies (graph : BuildGraph) (node dep : NodeId) :
    dep ∈ graph.snapshot.dependencies node ↔ graph.DependsOn node dep := by
  rw [BuildGraph.dependsOn_iff_mem_toList, dependencies,
    mem_foldl_insert DependencyEdge.fromNode DependencyEdge.toNode]
  simp [BuildGraph.snapshot]

theorem mem_reverseDependencies (graph : BuildGraph) (node v : NodeId) :
    v ∈ graph.snapshot.reverseDependencies node ↔ graph.DependsOn v node := by
  rw [BuildGraph.dependsOn_iff_mem_toList, reverseDependencies,
    mem_foldl_insert DependencyEdge.toNode DependencyEdge.fromNode]
  simp [BuildGraph.snapshot, and_comm]

end GraphSnapshot

end Forge
