import Forge.Cli.Commands

/-!
# The counts of a graph

`forge graph apply FILE` prints the generation of the graph that a manifest declares and counts its nodes,
its edges and its targets. An edge that stands several times in the manifest is put once, and only what is
put publishes a generation (`putEdge_adds`), so all four numbers can be read off the manifest
(`graph_prints`).
-/

namespace Forge

open Std (ExtTreeMap)
open WorkspaceCore (newWorkspace)

/-! ## Generations and edges -/

namespace BuildGraph

/-- As many generations have been published as edges are added. -/
def Adds (count : Nat) (graph graph' : BuildGraph) : Prop :=
  graph'.generation.value = graph.generation.value + UInt64.ofNat count ∧
    graph'.edges.size = graph.edges.size + count

theorem Adds.trans {first second : Nat} {graph graph' graph'' : BuildGraph} (h : Adds first graph graph')
    (h' : Adds second graph' graph'') : Adds (first + second) graph graph'' :=
  ⟨by rw [h'.1, h.1, UInt64.ofNat_add, UInt64.add_assoc], by rw [h'.2, h.2, Nat.add_assoc]⟩

theorem putEdge_adds {calls : Nat} {graph : BuildGraph} (hok : GraphOk calls graph) (fromNode toNode : NodeId)
    (kind : EdgeKind) : ∃ count, Adds count graph (graph.putEdge fromNode toNode kind).2 := by
  rw [putEdge]
  split_ifs with hends
  · cases graph.edgeLike fromNode toNode kind with
    | some entry => exact ⟨0, by simp [Adds]⟩
    | none =>
      have hnew : (⟨graph.nextEdge⟩ : EdgeId) ∉ graph.edges := fun hmem => by
        obtain ⟨edge, hedge⟩ := ExtTreeMap.exists_of_mem hmem
        exact hok.edges.next_ne hedge rfl
      refine ⟨1, rfl, ?_⟩
      dsimp only
      rw [ExtTreeMap.size_insert, ExtTreeMap.mem_iff_contains.not.mp hnew |> if_neg]
  · exact ⟨0, by simp [Adds]⟩

end BuildGraph

namespace WorkspaceCore

theorem applyEdges_adds {applied : AppliedManifest} (rest : List ManifestEdge) :
    ∀ {workspace workspace' : WorkspaceCore} {result : Result Unit} {calls : Nat},
      GraphOk calls workspace.graph → calls + rest.length + 1 < 2 ^ 64 →
        workspace.applyEdges applied rest = (result, workspace') →
          ∃ count, workspace.graph.Adds count workspace'.graph := by
  induction rest with
  | nil =>
    intro workspace workspace' result calls _ _ happly
    obtain ⟨-, rfl⟩ := Prod.mk.inj happly
    exact ⟨0, by simp [BuildGraph.Adds]⟩
  | cons edge rest ih =>
    intro workspace workspace' result calls hok hcalls happly
    rw [List.length_cons] at hcalls
    have hsame : ∃ count, workspace.graph.Adds count workspace.graph := ⟨0, by simp [BuildGraph.Adds]⟩
    rw [applyEdges] at happly
    cases hfrom : applied.nodesByName[edge.fromName]? with
    | none =>
      simp only [hfrom] at happly
      rwa [← (Prod.mk.inj happly).2]
    | some fromNode =>
      cases hto : applied.nodesByName[edge.toName]? with
      | none =>
        simp only [hfrom, hto] at happly
        rwa [← (Prod.mk.inj happly).2]
      | some toNode =>
        obtain ⟨count, hcount⟩ := BuildGraph.putEdge_adds hok fromNode toNode edge.kind
        have hok' := ((workspace.graph.change (.putEdge fromNode toNode edge.kind)).ok hok (by omega)).1
        rw [BuildGraph.after] at hok'
        simp only [hfrom, hto, putEdge] at happly
        rcases hput : workspace.graph.putEdge fromNode toNode edge.kind with ⟨status | id, graph⟩
        · rw [hput] at happly hcount
          rw [← (Prod.mk.inj happly).2]
          exact ⟨count, hcount⟩
        · rw [hput] at happly hcount hok'
          obtain ⟨later, hlater⟩ := @ih { workspace with graph } _ _ _ hok' (by omega) happly
          exact ⟨count + later, hcount.trans hlater⟩

end WorkspaceCore

/-! ## Counts of a declared graph -/

/-- The ends of an edge and its kind. -/
def DependencyEdge.ends (edge : DependencyEdge) : NodeId × NodeId × EdgeKind :=
  (edge.fromNode, edge.toNode, edge.kind)

/-- Those of a declared edge. -/
def AppliedManifest.endsOf (applied : AppliedManifest) (put : ManifestEdge) : NodeId × NodeId × EdgeKind :=
  (applied.idOf put.fromName, applied.idOf put.toName, put.kind)

namespace WorkspaceCore

variable {manifest : GraphManifest} {applied : AppliedManifest} {graph : BuildGraph}

theorem Declares.size_nodesByName (h : Declares manifest applied graph) (hnodup : manifest.names.Nodup) :
    applied.nodesByName.size = manifest.nodes.length := by
  rw [ExtTreeMap.size_eq_length hnodup h.names, GraphManifest.names, List.length_map]

theorem Declares.idOf_inj (h : Declares manifest applied graph) {name name' : Str}
    (hname : name ∈ manifest.names) (hname' : name' ∈ manifest.names)
    (hsame : applied.idOf name = applied.idOf name') : name = name' := by
  rw [← h.nameOf_idOf hname, hsame, h.nameOf_idOf hname']

theorem Declares.lookup_idOf (h : Declares manifest applied graph) {name : Str}
    (hname : name ∈ manifest.names) : applied.nodesByName[name]? = some (applied.idOf name) := by
  obtain ⟨-, -, -, -, hlookup, -⟩ := h.node hname
  exact hlookup

theorem Declares.size_edges (h : Declares manifest applied graph) (hclosed : manifest.Closed) :
    graph.edges.size = manifest.edges.dedup.length := by
  have hputs : (graph.edges.toList.map fun entry => entry.2.ends).Nodup := by
    refine ExtTreeMap.nodup_toList.map_on fun entry hentry other hother hsame => ?_
    rw [ExtTreeMap.mem_toList_iff_getElem?_eq_some] at hentry hother
    obtain ⟨hfrom, hto, hkind⟩ := by simpa [DependencyEdge.ends] using hsame
    have hid := h.merged entry.1 other.1 entry.2 other.2 hentry hother hfrom hto hkind
    rw [hid] at hentry
    exact Prod.ext hid (Option.some.inj (hentry.symm.trans hother))
  have hdeclared : (manifest.edges.dedup.map applied.endsOf).Nodup := by
    refine manifest.edges.nodup_dedup.map_on fun put hput other hother hsame => ?_
    obtain ⟨hfrom, hto⟩ := hclosed.edges put (List.mem_dedup.mp hput)
    obtain ⟨hfrom', hto'⟩ := hclosed.edges other (List.mem_dedup.mp hother)
    obtain ⟨hsameFrom, hsameTo, hkind⟩ := by simpa [AppliedManifest.endsOf] using hsame
    cases put
    cases other
    simp only [ManifestEdge.mk.injEq]
    exact ⟨h.idOf_inj hfrom hfrom' hsameFrom, h.idOf_inj hto hto' hsameTo, hkind⟩
  have hmem : ∀ ends, ends ∈ (graph.edges.toList.map fun entry => entry.2.ends) ↔
      ends ∈ manifest.edges.dedup.map applied.endsOf := by
    rintro ⟨fromNode, toNode, kind⟩
    have hgraph : (fromNode, toNode, kind) ∈ (graph.edges.toList.map fun entry => entry.2.ends) ↔
        graph.HasEdge fromNode toNode kind := by
      simp [DependencyEdge.ends, BuildGraph.HasEdge, ExtTreeMap.mem_toList_iff_getElem?_eq_some]
    rw [hgraph, h.edges]
    simp only [List.mem_map, List.mem_dedup, AppliedManifest.endsOf, Prod.mk.injEq]
    refine exists_congr fun put => and_congr_right fun hput => ?_
    obtain ⟨hfrom, hto⟩ := hclosed.edges put hput
    rw [h.lookup_idOf hfrom, h.lookup_idOf hto, Option.some.injEq, Option.some.injEq]
  have hperm := (List.perm_ext_iff_of_nodup hputs hdeclared).mpr hmem
  have hlength := hperm.length_eq
  rwa [List.length_map, List.length_map, ExtTreeMap.length_toList] at hlength

theorem applyManifest_counts (hclosed : manifest.Closed) (hnodup : manifest.names.Nodup)
    (hne : manifest.nodes ≠ []) (hnodes : manifest.nodes.length < 2 ^ 63)
    (hedges : manifest.edges.length < 2 ^ 63) :
    ∃ applied workspace', ({} : WorkspaceCore).applyManifest manifest = (.value (.ok applied), workspace') ∧
      workspace'.graph.generation.value.toNat = 1 + manifest.nodes.length + manifest.edges.dedup.length ∧
      applied.nodesByName.size = manifest.nodes.length ∧
      workspace'.graph.edges.size = manifest.edges.dedup.length ∧
      applied.targets.length = (targetNames manifest).length := by
  obtain ⟨applied, workspace', happly, h⟩ := applyManifest_declares hclosed hnodup hne hnodes hedges
  refine ⟨applied, workspace', happly, ?_, h.size_nodesByName hnodup, h.size_edges hclosed, ?_⟩
  · obtain ⟨workspace₁, applied₁, hputs, hok, -, hnone, -⟩ :=
      @applyNodes_hasNodes manifest.nodes {} {} [] 0 BuildGraph.graphOk_empty hasNodes_empty rfl hclosed.named
        hnodup (by omega)
    obtain ⟨first, applied', hputs', hlater, -⟩ := ({} : WorkspaceCore).applyNodes_all hclosed.named
    obtain ⟨-, rfl⟩ := Prod.mk.inj (hputs.symm.trans hputs')
    rcases hadds : workspace₁.applyEdges applied₁ manifest.edges with ⟨result, workspace₂⟩
    obtain ⟨count, hgeneration, hcount⟩ := applyEdges_adds manifest.edges hok (by omega) hadds
    have hlast : workspace₂ = workspace' := by
      rw [applyManifest, hputs] at happly
      dsimp only at happly
      rw [hadds] at happly
      cases result with
      | error status => exact (Prod.mk.inj happly).2
      | ok _ =>
        dsimp only at happly
        split at happly <;> exact (Prod.mk.inj happly).2
    obtain rfl : count = manifest.edges.dedup.length := by
      rw [← h.size_edges hclosed, ← hlast, hcount, hnone]
      simp
    have hless : manifest.edges.dedup.length ≤ manifest.edges.length :=
      (List.dedup_sublist manifest.edges).length_le
    rw [← hlast, hgeneration, hlater.generation, UInt64.toNat_add, UInt64.toNat_add, UInt64.toNat_ofNat',
      UInt64.toNat_ofNat']
    show ((1 + manifest.nodes.length % 2 ^ 64) % 2 ^ 64 + manifest.edges.dedup.length % 2 ^ 64) % 2 ^ 64 = _
    omega
  · have hlength := congrArg List.length h.targets
    rw [List.length_map, List.length_map] at hlength
    exact hlength.symm

end WorkspaceCore

namespace Cli

/-- What is printed for the graph of a manifest. -/
def graphLine (manifest : GraphManifest) : Str :=
  let edges := manifest.edges.dedup.length
  line (Str.ofLiteral "generation=" ++ decimal (1 + manifest.nodes.length + edges) ++
    Str.ofLiteral " nodes=" ++ decimal manifest.nodes.length ++ Str.ofLiteral " edges=" ++ decimal edges ++
    Str.ofLiteral " targets=" ++ decimal (WorkspaceCore.targetNames manifest).length)

/-- **What `forge graph apply` prints** for a manifest that mentions only declared names: the numbers of its
nodes, of its different edges and of its targets, and the generation, which starts at 1 and goes up with each
node and edge. For any other manifest it fails. -/
theorem graph_prints {host : Host} {path text : Str} {manifest : GraphManifest}
    (hfile : host.file path = some text) (hparse : parseManifest text = .ok manifest)
    (hsize : text.length + 1 < 2 ^ 63) (program : Str) (rest : List Str) :
    let exit := main host (program :: "graph" :: "apply" :: path :: rest)
    (manifest.Closed → exit = some { out := graphLine manifest }) ∧ (¬ manifest.Closed → Fails 3 exit) := by
  intro exit
  have hexit : exit = graphApply host path := rfl
  simp only [hexit, graphApply, hfile, hparse]
  obtain ⟨-, -, -, hnodup, hne⟩ := parseManifest_eq_ok_iff.mp hparse
  obtain ⟨hnodes, hedges⟩ := length_records_le hparse
  constructor
  · intro hclosed
    obtain ⟨applied, workspace, happly, hgeneration, hnames, hcount, htargets⟩ :=
      WorkspaceCore.applyManifest_counts hclosed hnodup hne (by omega) (by omega)
    simp only [newWorkspace, happly, hgeneration, hnames, hcount, htargets]
    rfl
  · intro hopen
    obtain ⟨_, ⟨status, hfail⟩, -⟩ := WorkspaceCore.applyManifest_not_closed newWorkspace hopen
    refine ⟨status.message, ?_⟩
    rcases happly : newWorkspace.applyManifest manifest with ⟨result, workspace⟩
    rw [happly] at hfail
    rw [show result = _ from hfail]

/-- An edge that stands twice. -/
def twiceHost : Host :=
  { twinsHost with file := fun _ => some "node core c\nnode app a\nedge app core\nedge app core declared" }

theorem graph_prints_twice :
    main twiceHost ["forge", "graph", "apply", "forge.txt"] =
      some { out := "generation=4 nodes=2 edges=1 targets=1\n" } := by
  have hprints := (@graph_prints twiceHost "forge.txt" _
    { nodes := [⟨"core", { command := "c" }⟩, ⟨"app", { command := "a" }⟩]
      edges := [⟨"app", "core", .declared⟩, ⟨"app", "core", .declared⟩] }
    rfl (by decide) (by decide) "forge" []).1
    ⟨by decide, by decide, by decide⟩
  exact hprints.trans (by decide)

end Cli

end Forge
