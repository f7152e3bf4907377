import Forge.Graph.BuildGraph
import Forge.Lib.Digraph

/-!
# Reverse closure

`BuildGraph::reverse_closure` of `build_graph.cpp`: everything that depends on one of the seeds, found with
a worklist. The loop is bounded by `fuel`, `none` standing for a loop that runs out of it. A turn can make
the list longer, but what it puts there it has reached for the first time, so the length of the list and the
number of nodes not reached yet decrease together (`closeLoop_spec`).
-/

namespace Forge

open Std (ExtTreeMap ExtTreeSet)
open Digraph Relation

/-- The variables `reached` and `work` of `reverse_closure`. -/
structure Closing where
  reached : ExtTreeSet NodeId
  work : List NodeId
deriving DecidableEq

namespace BuildGraph

/-- The body of the loop over the edges. -/
def closeEdge (node : NodeId) (c : Closing) (edge : DependencyEdge) : Closing :=
  if edge.toNode = node ∧ edge.fromNode ∉ c.reached then
    ⟨c.reached.insert edge.fromNode, c.work ++ [edge.fromNode]⟩
  else c

/-- `while (!work.empty())`. -/
def closeLoop (graph : BuildGraph) : Nat → Closing → Option (ExtTreeSet NodeId)
  | 0, _ => none
  | fuel + 1, c =>
    match c.work.getLast? with
    | none => some c.reached
    | some node =>
      graph.closeLoop fuel (graph.edges.toList.foldl (fun c entry => closeEdge node c entry.2)
        { c with work := c.work.dropLast })

def reverseClosure (graph : BuildGraph) (seeds : ExtTreeSet NodeId) :
    Option (Result (ExtTreeSet NodeId)) :=
  (graph.closeLoop (seeds.size + graph.nodes.size + 1) ⟨seeds, seeds.toList⟩).map Except.ok

/-! ## One turn -/

/-- The nodes that have not been reached. -/
def unreached (graph : BuildGraph) (c : Closing) : Nat :=
  (graph.nodes.keys.toFinset.filter fun v => v ∉ c.reached).card

/-- What a part of the loop over the edges does: it reaches nodes with an edge to `node`, each of which it
puts on the list. -/
structure Closes (graph : BuildGraph) (node : NodeId) (c c' : Closing) : Prop where
  grows : ∀ v ∈ c.reached, v ∈ c'.reached
  new : ∀ v ∈ c'.reached, v ∈ c.reached ∨ graph.DependsOn v node
  work : ∀ v, v ∈ c'.work ↔ v ∈ c.work ∨ v ∈ c'.reached ∧ v ∉ c.reached
  measure : c'.work.length + graph.unreached c' = c.work.length + graph.unreached c

theorem Closes.refl (graph : BuildGraph) (node : NodeId) (c : Closing) : graph.Closes node c c :=
  ⟨fun _ hv => hv, fun _ hv => .inl hv, fun v => by simp, rfl⟩

theorem Closes.trans {graph : BuildGraph} {node : NodeId} {c₁ c₂ c₃ : Closing}
    (h₁ : graph.Closes node c₁ c₂) (h₂ : graph.Closes node c₂ c₃) : graph.Closes node c₁ c₃ := by
  refine ⟨fun v hv => h₂.grows v (h₁.grows v hv), fun v hv => ?_, fun v => ?_, h₂.measure.trans h₁.measure⟩
  · rcases h₂.new v hv with hmid | hedge
    · exact h₁.new v hmid
    · exact .inr hedge
  · rw [h₂.work, h₁.work]
    have hgrow₁ := h₁.grows v
    have hgrow₂ := h₂.grows v
    tauto

theorem unreached_insert {graph : BuildGraph} {c : Closing} {v : NodeId} (hmem : v ∈ graph.nodes)
    (hnew : v ∉ c.reached) (work : List NodeId) :
    graph.unreached ⟨c.reached.insert v, work⟩ + 1 = graph.unreached c := by
  have hfilter : (graph.nodes.keys.toFinset.filter fun w => w ∉ c.reached.insert v) =
      (graph.nodes.keys.toFinset.filter fun w => w ∉ c.reached).erase v := by
    ext w
    simp only [Finset.mem_filter, Finset.mem_erase, ExtTreeSet.mem_insert, not_or,
      Std.compare_eq_iff_eq]
    constructor
    · exact fun ⟨hw, hne, hout⟩ => ⟨fun heq => hne heq.symm, hw, hout⟩
    · exact fun ⟨hne, hw, hout⟩ => ⟨hw, fun heq => hne heq.symm, hout⟩
  rw [unreached, hfilter]
  exact Finset.card_erase_add_one (Finset.mem_filter.mpr ⟨by simpa using hmem, hnew⟩)

theorem closes_edge {graph : BuildGraph} (node : NodeId) (c : Closing) {entry : EdgeId × DependencyEdge}
    (hentry : entry ∈ graph.edges.toList) :
    graph.Closes node c (closeEdge node c entry.2) ∧
      (entry.2.toNode = node → entry.2.fromNode ∈ (closeEdge node c entry.2).reached) := by
  unfold closeEdge
  split_ifs with hedge
  · obtain ⟨hto, hnew⟩ := hedge
    have hdepends : graph.DependsOn entry.2.fromNode node :=
      (dependsOn_iff_mem_toList graph _ _).mpr ⟨entry, hentry, rfl, hto⟩
    refine ⟨⟨fun v hv => by simp [hv], fun v hv => ?_, fun v => ?_, ?_⟩, fun _ => by simp⟩
    · rcases ExtTreeSet.mem_insert.mp hv with heq | hv
      · rw [← Std.compare_eq_iff_eq.mp heq]
        exact .inr hdepends
      · exact .inl hv
    · simp only [List.mem_append, List.mem_singleton, ExtTreeSet.mem_insert, Std.compare_eq_iff_eq]
      constructor
      · rintro (hv | rfl)
        · exact .inl hv
        · exact .inr ⟨.inl rfl, hnew⟩
      · rintro (hv | ⟨rfl | hv, hout⟩)
        · exact .inl hv
        · exact .inr rfl
        · exact absurd hv hout
    · have hcount := unreached_insert hdepends.mem_nodes.1 hnew (c.work ++ [entry.2.fromNode])
      rw [List.length_append, List.length_singleton]
      omega
  · refine ⟨.refl graph node c, fun hto => ?_⟩
    by_contra hout
    exact hedge ⟨hto, hout⟩

theorem closes_edges {graph : BuildGraph} (node : NodeId) {entries : List (EdgeId × DependencyEdge)}
    (hentries : ∀ entry ∈ entries, entry ∈ graph.edges.toList) :
    ∀ c : Closing, graph.Closes node c (entries.foldl (fun c entry => closeEdge node c entry.2) c) ∧
      ∀ entry ∈ entries, entry.2.toNode = node →
        entry.2.fromNode ∈ (entries.foldl (fun c entry => closeEdge node c entry.2) c).reached := by
  induction entries with
  | nil => exact fun c => ⟨.refl graph node c, by simp⟩
  | cons entry entries ih =>
    intro c
    obtain ⟨hhead, hreached⟩ := closes_edge node c (hentries entry (by simp))
    obtain ⟨htail, hall⟩ := ih (fun other hother => hentries other (by simp [hother]))
      (closeEdge node c entry.2)
    refine ⟨hhead.trans htail, fun other hother hto => ?_⟩
    rcases List.mem_cons.mp hother with rfl | hother
    · exact htail.grows _ (hreached hto)
    · exact hall other hother hto

/-! ## The loop -/

/-- The worklist of the loop: the relation of the search goes from a node to those that depend on it. -/
abbrev Searching (graph : BuildGraph) (seeds : ExtTreeSet NodeId) (c : Closing) : Prop :=
  Worklist (fun v w => graph.DependsOn w v) {v | v ∈ seeds} {v | v ∈ c.reached} c.work

theorem closeLoop_spec {graph : BuildGraph} {seeds : ExtTreeSet NodeId} (fuel : Nat) :
    ∀ c : Closing, graph.Searching seeds c → c.work.length + graph.unreached c < fuel →
      ∃ reached, graph.closeLoop fuel c = some reached ∧
        ∀ v, v ∈ reached ↔ ∃ s ∈ seeds, ReflTransGen graph.DependsOn v s := by
  induction fuel with
  | zero => intro c _ hfuel; omega
  | succ fuel ih =>
    intro ⟨reached, work⟩ hsearch hfuel
    rw [closeLoop]
    rcases List.eq_nil_or_concat work with rfl | ⟨work, node, rfl⟩
    · refine ⟨reached, rfl, fun v => ?_⟩
      have hmem := hsearch.mem_iff v
      exact hmem.trans (exists_congr fun s => and_congr_right fun _ => reflTransGen_swap)
    · rw [List.concat_eq_append] at hsearch hfuel ⊢
      simp only [List.getLast?_concat, List.dropLast_concat]
      obtain ⟨hcloses, hall⟩ := closes_edges node (fun entry hentry => hentry) ⟨reached, work⟩
      generalize graph.edges.toList.foldl (fun c entry => closeEdge node c entry.2) ⟨reached, work⟩ = c'
        at hcloses hall
      refine ih c' ?_ ?_
      · refine hsearch.next (by simp) hcloses.grows hcloses.new (fun v hv => ?_) (fun v hv => ?_)
          fun v hv hout => ?_
        · obtain ⟨entry, hentry, rfl, hto⟩ := (dependsOn_iff_mem_toList graph _ _).mp hv
          exact hall entry hentry hto
        · rcases (hcloses.work v).mp hv with hold | ⟨hnew, -⟩
          · exact hcloses.grows v (hsearch.work_subset v (List.mem_append_left _ hold))
          · exact hnew
        · have hsplit := hcloses.work v
          have hold : v ∈ reached ∧ v ∉ work := by
            by_contra hnot
            exact hout (hsplit.mpr (by have hv' : v ∈ c'.reached := hv; tauto))
          by_cases hnode : v = node
          · exact .inl hnode
          · exact .inr ⟨hold.1, by simp [hold.2, hnode]⟩
      · have hmeasure : c'.work.length + graph.unreached c' =
            work.length + graph.unreached ⟨reached, work ++ [node]⟩ := hcloses.measure
        rw [List.length_append, List.length_singleton] at hfuel
        omega

/-- **Reverse closure**: the loop ends, on graphs with and without cycles, with the ids from which a seed
is reached. -/
theorem reverseClosure_ok (graph : BuildGraph) (seeds : ExtTreeSet NodeId) :
    ∃ reached, graph.reverseClosure seeds = some (.ok reached) ∧
      ∀ v, v ∈ reached ↔ ∃ s ∈ seeds, ReflTransGen graph.DependsOn v s := by
  have hsearch : graph.Searching seeds ⟨seeds, seeds.toList⟩ := .init fun v => ExtTreeSet.mem_toList
  have hfuel : graph.unreached ⟨seeds, seeds.toList⟩ ≤ graph.nodes.size := by
    calc graph.unreached ⟨seeds, seeds.toList⟩ ≤ graph.nodes.keys.toFinset.card :=
          Finset.card_filter_le ..
      _ ≤ graph.nodes.keys.length := List.toFinset_card_le _
      _ = graph.nodes.size := ExtTreeMap.length_keys
  obtain ⟨reached, hrun, hmem⟩ := closeLoop_spec (seeds.size + graph.nodes.size + 1) _ hsearch
    (by rw [ExtTreeSet.length_toList]; omega)
  exact ⟨reached, by rw [reverseClosure, hrun]; rfl, hmem⟩

/-- **The snapshot agrees**: its two relations are converses of each other, and the reverse closure is the
least set with the seeds in it that `reverse_dependencies` does not leave. -/
theorem reverseClosure_least (graph : BuildGraph) (seeds : ExtTreeSet NodeId) :
    (∀ v w, w ∈ graph.snapshot.reverseDependencies v ↔ v ∈ graph.snapshot.dependencies w) ∧
      ∃ reached, graph.reverseClosure seeds = some (.ok reached) ∧ (∀ s ∈ seeds, s ∈ reached) ∧
        (∀ v ∈ reached, ∀ w ∈ graph.snapshot.reverseDependencies v, w ∈ reached) ∧
        ∀ closed : Set NodeId, (∀ s ∈ seeds, s ∈ closed) →
          (∀ v ∈ closed, ∀ w ∈ graph.snapshot.reverseDependencies v, w ∈ closed) →
            ∀ v ∈ reached, v ∈ closed := by
  simp only [GraphSnapshot.mem_reverseDependencies, GraphSnapshot.mem_dependencies, true_and, implies_true]
  obtain ⟨reached, hrun, hmem⟩ := graph.reverseClosure_ok seeds
  refine ⟨reached, hrun, fun s hs => (hmem s).mpr ⟨s, hs, .refl⟩, fun v hv w hwv => ?_,
    fun closed hseeds hclosed v hv => ?_⟩
  · obtain ⟨s, hs, hreach⟩ := (hmem v).mp hv
    exact (hmem w).mpr ⟨s, hs, hreach.head hwv⟩
  · obtain ⟨s, hs, hreach⟩ := (hmem v).mp hv
    clear hv
    -- the path is followed from the seed backwards
    induction hreach using ReflTransGen.head_induction_on with
    | refl => exact hseeds s hs
    | head hvw _ ih => exact hclosed _ ih _ hvw

/-- A chain of three nodes with an edge back, from its second node and from an id that is none. -/
example :
    let graph := ((((((({} : BuildGraph).putNode [97] {}).2.putNode [98] {}).2.putNode [99] {}).2.putEdge
      ⟨1⟩ ⟨2⟩ .declared).2.putEdge ⟨2⟩ ⟨3⟩ .declared).2.putEdge ⟨2⟩ ⟨1⟩ .discovered).2
    (graph.reverseClosure {⟨2⟩, ⟨9⟩}).map (·.map ExtTreeSet.toList) =
      some (.ok [⟨1⟩, ⟨2⟩, ⟨9⟩]) := by
  decide +kernel

end BuildGraph

end Forge
