import Forge.Workspace.AppliedManifest
import Forge.Workspace.Build

/-!
# What a change of the graph affects

A new edge closes a cycle exactly if its end is in the reverse closure of its start, and it adds one reverse
closure to another (`putEdge_cycle_iff`, `putEdge_reverseClosure`).

The reverse closure of a node is also what a change there can affect: as long as the targets are outside of
it at each change, they are built as before (`unaffected_build`). Nodes and edges of what the targets need
are then the same (`AgreeOn`), so the search of `plan_order` takes the same steps, if it has fuel enough for
both graphs.
-/

namespace Forge

open Std (ExtTreeMap ExtTreeSet)
open Digraph Relation

namespace BuildGraph

/-! ## One more edge -/

theorem dependsOn_iff_hasEdge (graph : BuildGraph) (v w : NodeId) :
    graph.DependsOn v w ↔ ∃ kind, graph.HasEdge v w kind := by
  constructor
  · rintro ⟨id, edge, hedge, hfrom, hto⟩
    exact ⟨edge.kind, id, edge, hedge, hfrom, hto, rfl⟩
  · rintro ⟨_, id, edge, hedge, hfrom, hto, _⟩
    exact ⟨id, edge, hedge, hfrom, hto⟩

variable {graph : BuildGraph} {calls : Nat}

theorem putEdge_addsEdge (hok : GraphOk calls graph) {fromNode toNode : NodeId}
    (hends : fromNode ∈ graph.nodes ∧ toNode ∈ graph.nodes) (kind : EdgeKind) :
    AddsEdge graph.DependsOn (graph.putEdge fromNode toNode kind).2.DependsOn fromNode toNode := by
  obtain ⟨id, graph', hput, _, hedges⟩ := putEdge_hasEdge hok hends kind
  intro v w
  rw [hput, dependsOn_iff_hasEdge, dependsOn_iff_hasEdge]
  simp only [hedges]
  constructor
  · rintro ⟨kind', hold | ⟨hfrom, hto, -⟩⟩
    · exact .inl ⟨kind', hold⟩
    · exact .inr ⟨hfrom.symm, hto.symm⟩
  · rintro (⟨kind', hold⟩ | ⟨rfl, rfl⟩)
    · exact ⟨kind', .inl hold⟩
    · exact ⟨kind, .inr ⟨rfl, rfl, rfl⟩⟩

/-- **An edge closes a cycle** exactly if its end is in the reverse closure of its start. -/
theorem putEdge_cycle_iff (calls : List GraphCall) (hlength : calls.length < 2 ^ 64 - 1)
    {fromNode toNode : NodeId} (hends : fromNode ∈ (run calls).nodes ∧ toNode ∈ (run calls).nodes)
    (kind : EdgeKind) :
    ((run calls).putEdge fromNode toNode kind).2.cycleWitness = none ↔
      (run calls).cycleWitness = none ∧
        ∃ reached, (run calls).reverseClosure {fromNode} = some (.ok reached) ∧ toNode ∉ reached := by
  have hadds := putEdge_addsEdge (graphOk_run calls hlength) hends kind
  obtain ⟨reached, hrun, hmem⟩ := (run calls).reverseClosure_ok {fromNode}
  have hto : toNode ∈ reached ↔ ReflTransGen (run calls).DependsOn toNode fromNode := by
    rw [hmem]
    simp
  rw [cycleWitness_eq_none_iff, cycleWitness_eq_none_iff, hadds.acyclic_iff, ← hto]
  refine and_congr_right fun _ => ⟨fun hout => ⟨reached, hrun, hout⟩, ?_⟩
  rintro ⟨other, hother, hout⟩
  rw [hrun] at hother
  cases hother
  exact hout

/-- The library depends on the application. -/
theorem putEdge_cycle_iff_back :
    let graph := run [.putNode "lib" {}, .putNode "app" {}, .putEdge ⟨2⟩ ⟨1⟩ .declared]
    (graph.putEdge ⟨1⟩ ⟨2⟩ .discovered).2.cycleWitness ≠ none ∧
      (graph.putEdge ⟨2⟩ ⟨1⟩ .discovered).2.cycleWitness = none := by
  intro graph
  have hback := putEdge_cycle_iff [.putNode "lib" {}, .putNode "app" {}, .putEdge ⟨2⟩ ⟨1⟩ .declared]
    (by decide) (show (⟨1⟩ : NodeId) ∈ graph.nodes ∧ (⟨2⟩ : NodeId) ∈ graph.nodes by decide)
    .discovered
  have hagain := putEdge_cycle_iff [.putNode "lib" {}, .putNode "app" {}, .putEdge ⟨2⟩ ⟨1⟩ .declared]
    (by decide) (show (⟨2⟩ : NodeId) ∈ graph.nodes ∧ (⟨1⟩ : NodeId) ∈ graph.nodes by decide)
    .discovered
  refine ⟨fun hnone => ?_, hagain.mpr ⟨by decide, ?_⟩⟩
  · obtain ⟨reached, hreached, hout⟩ := (hback.mp hnone).2
    have hboth : graph.reverseClosure {⟨1⟩} = some (.ok {⟨2⟩, ⟨1⟩}) := by decide
    rw [hboth] at hreached
    cases hreached
    exact hout (by decide)
  · exact ⟨{⟨2⟩}, by decide, by decide⟩

/-- **What a new edge adds to a reverse closure** is that of its start, if its end was in it. -/
theorem putEdge_reverseClosure (calls : List GraphCall) (hlength : calls.length < 2 ^ 64 - 1)
    {fromNode toNode : NodeId} (hends : fromNode ∈ (run calls).nodes ∧ toNode ∈ (run calls).nodes)
    (kind : EdgeKind) (seeds : ExtTreeSet NodeId) :
    ∃ before added after, (run calls).reverseClosure seeds = some (.ok before) ∧
      (run calls).reverseClosure {fromNode} = some (.ok added) ∧
      ((run calls).putEdge fromNode toNode kind).2.reverseClosure seeds = some (.ok after) ∧
      ∀ v, v ∈ after ↔ v ∈ before ∨ toNode ∈ before ∧ v ∈ added := by
  have hadds := putEdge_addsEdge (graphOk_run calls hlength) hends kind
  obtain ⟨before, hbefore, hmemBefore⟩ := (run calls).reverseClosure_ok seeds
  obtain ⟨added, hadded, hmemAdded⟩ := (run calls).reverseClosure_ok {fromNode}
  obtain ⟨after, hafter, hmemAfter⟩ :=
    ((run calls).putEdge fromNode toNode kind).2.reverseClosure_ok seeds
  refine ⟨before, added, after, hbefore, hadded, hafter, fun v => ?_⟩
  have hstart : v ∈ added ↔ ReflTransGen (run calls).DependsOn v fromNode := by
    rw [hmemAdded]
    simp
  rw [hmemAfter, hmemBefore, hmemBefore, hstart]
  simp only [hadds.reaches_iff]
  constructor
  · rintro ⟨s, hs, hreach | ⟨hfrom, hto⟩⟩
    · exact .inl ⟨s, hs, hreach⟩
    · exact .inr ⟨⟨s, hs, hto⟩, hfrom⟩
  · rintro (⟨s, hs, hreach⟩ | ⟨⟨s, hs, hto⟩, hfrom⟩)
    · exact ⟨s, hs, .inl hreach⟩
    · exact ⟨s, hs, .inr ⟨hfrom, hto⟩⟩

/-- A tool is made to depend on the application, which depends on the library. -/
theorem putEdge_reverseClosure_tool :
    let graph := run [.putNode "lib" {}, .putNode "app" {}, .putNode "tool" {}, .putEdge ⟨2⟩ ⟨1⟩ .declared]
    ∃ after, (graph.putEdge ⟨3⟩ ⟨2⟩ .declared).2.reverseClosure {⟨1⟩} = some (.ok after) ∧
      (⟨3⟩ : NodeId) ∈ after := by
  intro graph
  obtain ⟨before, added, after, hbefore, hadded, hafter, hmem⟩ := putEdge_reverseClosure
    [.putNode "lib" {}, .putNode "app" {}, .putNode "tool" {}, .putEdge ⟨2⟩ ⟨1⟩ .declared] (by decide)
    (show (⟨3⟩ : NodeId) ∈ graph.nodes ∧ (⟨2⟩ : NodeId) ∈ graph.nodes by decide) .declared {⟨1⟩}
  have hlib : graph.reverseClosure {⟨1⟩} = some (.ok {⟨2⟩, ⟨1⟩}) := by decide
  have htool : graph.reverseClosure {⟨3⟩} = some (.ok {⟨3⟩}) := by decide
  obtain rfl : {⟨2⟩, ⟨1⟩} = before := Except.ok.inj (Option.some.inj (hlib.symm.trans hbefore))
  obtain rfl : {⟨3⟩} = added := Except.ok.inj (Option.some.inj (htool.symm.trans hadded))
  exact ⟨after, hafter, (hmem ⟨3⟩).mpr (.inr ⟨by decide, by decide⟩)⟩

end BuildGraph

/-! ## Graphs that agree -/

/-- On the nodes of the set, which no edge leaves, nodes and edges of both graphs are the same. -/
structure AgreeOn (C : Set NodeId) (graph graph' : BuildGraph) : Prop where
  closed : ∀ v ∈ C, ∀ w, graph.DependsOn v w → w ∈ C
  nodes : ∀ v ∈ C, graph'.nodes[v]? = graph.nodes[v]?
  edges : ∀ v ∈ C, ∀ w, graph'.DependsOn v w ↔ graph.DependsOn v w

namespace AgreeOn

variable {C : Set NodeId} {graph graph' graph'' : BuildGraph}

theorem trans (h : AgreeOn C graph graph') (h' : AgreeOn C graph' graph'') : AgreeOn C graph graph'' :=
  ⟨h.closed, fun v hv => (h'.nodes v hv).trans (h.nodes v hv),
    fun v hv w => (h'.edges v hv w).trans (h.edges v hv w)⟩

theorem mem_nodes_iff (h : AgreeOn C graph graph') {v : NodeId} (hv : v ∈ C) :
    v ∈ graph'.nodes ↔ v ∈ graph.nodes := by
  rw [ExtTreeMap.mem_iff_isSome_getElem?, ExtTreeMap.mem_iff_isSome_getElem?, h.nodes v hv]

theorem reaches_iff (h : AgreeOn C graph graph') {v : NodeId} (hv : v ∈ C) (w : NodeId) :
    ReflTransGen graph'.DependsOn v w ↔ ReflTransGen graph.DependsOn v w :=
  reaches_congr h.closed h.edges hv w

theorem dependencies_eq (h : AgreeOn C graph graph') {v : NodeId} (hv : v ∈ C) :
    graph'.snapshot.dependencies v = graph.snapshot.dependencies v := by
  refine ExtTreeSet.ext_mem fun w => ?_
  rw [GraphSnapshot.mem_dependencies, GraphSnapshot.mem_dependencies]
  exact h.edges v hv w

/-! ## The plan -/

theorem foldlM_congr {S : Type} {f g : S → NodeId → Option S} {l : List NodeId}
    (h : ∀ v ∈ l, ∀ s, f s v = g s v) (s : S) : l.foldlM f s = l.foldlM g s := by
  induction l generalizing s with
  | nil => rfl
  | cons v l ih =>
    rw [List.foldlM_cons, List.foldlM_cons, h v List.mem_cons_self]
    exact congrArg _ (funext fun s => ih (fun w hw => h w (List.mem_cons_of_mem v hw)) s)

theorem planVisit_eq (h : AgreeOn C graph graph') (fuel : Nat) : ∀ node ∈ C, ∀ plan,
    planVisit graph'.snapshot fuel node plan = planVisit graph.snapshot fuel node plan := by
  induction fuel with
  | zero => exact fun _ _ _ => rfl
  | succ fuel ih =>
    intro node hnode plan
    rw [planVisit, planVisit, h.dependencies_eq hnode]
    split_ifs
    · rfl
    · rw [foldlM_congr fun dep hdep plan => ih dep ?_ plan]
      exact h.closed node hnode dep ((mem_dependencies_toList graph node dep).mp hdep)

theorem planTargets_eq (h : AgreeOn C graph graph') (fuel : Nat) {targets : List NodeId}
    (htargets : ∀ t ∈ targets, t ∈ C) : ∀ plan,
      planTargets graph'.snapshot fuel targets plan = planTargets graph.snapshot fuel targets plan := by
  induction targets with
  | nil => exact fun _ => rfl
  | cons target rest ih =>
    intro plan
    have htarget := htargets target List.mem_cons_self
    have hmem : target ∈ graph'.snapshot.nodes ↔ target ∈ graph.snapshot.nodes := h.mem_nodes_iff htarget
    rw [planTargets, planTargets, h.planVisit_eq fuel target htarget]
    simp only [hmem, ih fun t ht => htargets t (List.mem_cons_of_mem target ht)]

end AgreeOn

theorem planVisit_mono {snapshot : GraphSnapshot} {fuel fuel' : Nat} (hle : fuel ≤ fuel') :
    ∀ {node plan plan'}, planVisit snapshot fuel node plan = some plan' →
      planVisit snapshot fuel' node plan = some plan' := by
  induction fuel generalizing fuel' with
  | zero => intro node plan plan' h; cases h
  | succ fuel ih =>
    obtain ⟨fuel', rfl⟩ : ∃ n, fuel' = n + 1 := ⟨fuel' - 1, by omega⟩
    have hdeps (deps : List NodeId) : ∀ {plan plan'},
        deps.foldlM (fun plan dep => planVisit snapshot fuel dep plan) plan = some plan' →
          deps.foldlM (fun plan dep => planVisit snapshot fuel' dep plan) plan = some plan' := by
      induction deps with
      | nil => exact fun h => h
      | cons dep deps ihdeps =>
        intro plan plan' h
        rw [List.foldlM_cons] at h ⊢
        obtain ⟨plan₁, hvisit, hrest⟩ := Option.bind_eq_some_iff.mp h
        exact Option.bind_eq_some_iff.mpr ⟨plan₁, ih (by omega) hvisit, ihdeps hrest⟩
    intro node plan plan' h
    rw [planVisit] at h ⊢
    split_ifs at h ⊢
    · exact h
    · obtain ⟨plan₁, hloop, hdone⟩ := Option.bind_eq_some_iff.mp h
      exact Option.bind_eq_some_iff.mpr ⟨plan₁, hdeps _ hloop, hdone⟩

theorem planTargets_mono {snapshot : GraphSnapshot} {fuel fuel' : Nat} (hle : fuel ≤ fuel')
    {targets : List NodeId} : ∀ {plan result}, planTargets snapshot fuel targets plan = some result →
      planTargets snapshot fuel' targets plan = some result := by
  induction targets with
  | nil => exact fun h => h
  | cons target rest ih =>
    intro plan result h
    rw [planTargets] at h ⊢
    split_ifs at h ⊢
    · cases hvisit : planVisit snapshot fuel target plan with
      | none =>
        rw [hvisit] at h
        cases h
      | some plan' =>
        rw [hvisit] at h
        rw [planVisit_mono hle hvisit]
        exact ih h
    · exact h

theorem AgreeOn.planOrder_eq {C : Set NodeId} {graph graph' : BuildGraph} (h : AgreeOn C graph graph')
    {targets : List NodeId} (htargets : ∀ t ∈ targets, t ∈ C) :
    planOrder graph' targets = planOrder graph targets := by
  obtain ⟨result, hresult⟩ := Option.isSome_iff_exists.mp (planTargets_isSome graph targets {})
  obtain ⟨result', hresult'⟩ := Option.isSome_iff_exists.mp (planTargets_isSome graph' targets {})
  have hmax := planTargets_mono (le_max_left _ (graph'.nodes.size + 1)) hresult
  have hmax' := planTargets_mono (le_max_right (graph.nodes.size + 1) _) hresult'
  rw [h.planTargets_eq _ htargets] at hmax'
  obtain rfl : result = result' := Option.some.inj (hmax.symm.trans hmax')
  rw [planOrder, planOrder, hresult, hresult']

/-! ## The build -/

section Build

variable {σ : Type} {C : Set NodeId} {graph graph' : BuildGraph}

theorem AgreeOn.buildLoop_eq (h : AgreeOn C graph graph') (ex : Executor σ) {order : List NodeId}
    (horder : ∀ v ∈ order, v ∈ C) : ∀ run : BuildRun σ,
      run.buildLoop ex graph' order = run.buildLoop ex graph order := by
  induction order with
  | nil => exact fun _ => rfl
  | cons nodeId rest ih =>
    intro run
    have hturn : run.buildNode ex graph' nodeId = run.buildNode ex graph nodeId := by
      rw [BuildRun.buildNode, BuildRun.buildNode, h.nodes nodeId (horder nodeId List.mem_cons_self)]
    rw [BuildRun.buildLoop, BuildRun.buildLoop, hturn]
    simp only [ih fun v hv => horder v (List.mem_cons_of_mem nodeId hv)]

theorem AgreeOn.build_eq (h : AgreeOn C graph graph') (hacyclic : Acyclic graph.DependsOn)
    (hacyclic' : Acyclic graph'.DependsOn) {targets : List NodeId}
    (htargets : ∀ t ∈ targets, t ∈ C ∧ t ∈ graph.nodes) (workspace : WorkspaceCore) (ex : Executor σ)
    (executor : σ) :
    let before := { workspace with graph }.build ex targets executor
    { workspace with graph := graph' }.build ex targets executor =
      (before.1, { before.2.1 with graph := graph' }, before.2.2) := by
  obtain ⟨order, horder, hplans⟩ := planOrder_ok hacyclic fun t ht => (htargets t ht).2
  have hcycle := graph.cycleWitness_eq_none_iff.mpr hacyclic
  have hcycle' := graph'.cycleWitness_eq_none_iff.mpr hacyclic'
  have hplan := h.planOrder_eq fun t ht => (htargets t ht).1
  have hmem : ∀ v ∈ order, v ∈ C := by
    intro v hv
    obtain ⟨t, ht, hreach⟩ := (hplans.mem_iff v).mp hv
    clear hv
    induction hreach with
    | refl => exact (htargets t ht).1
    | tail _ hedge ih => exact h.closed _ ih _ hedge
  simp only [WorkspaceCore.build, WorkspaceCore.prepare, hcycle, hcycle', hplan, horder, EventHub.openStream]
  split_ifs
  · rfl
  · simp only [h.buildLoop_eq ex hmem]
    rfl

end Build

/-! ## Changes elsewhere -/

namespace BuildGraph

/-- The node that a call changes, or from which it puts or removes edges, if it is there already. -/
def subject (graph : BuildGraph) : GraphCall → Option NodeId
  | .putNode name _ => (graph.nodeNamed name).map Prod.fst
  | .putEdge fromNode _ _ => some fromNode
  | .removeDiscoveredFrom fromNode => some fromNode

/-- No target is in the reverse closure of that node. -/
def Spares (targets : List NodeId) (graph : BuildGraph) (call : GraphCall) : Prop :=
  ∀ node ∈ graph.subject call, ∀ reached, graph.reverseClosure {node} = some (.ok reached) →
    ∀ target ∈ targets, target ∉ reached

instance (targets : List NodeId) (graph : BuildGraph) (call : GraphCall) :
    Decidable (Spares targets graph call) :=
  match h : (graph.subject call).bind fun node => graph.reverseClosure {node} with
  | some (.ok reached) =>
    decidable_of_iff (∀ target ∈ targets, target ∉ reached) <| by
      obtain ⟨node, hnode, hrun⟩ := Option.bind_eq_some_iff.mp h
      refine ⟨fun hout other hother found hfound => ?_, fun hspares => hspares node hnode reached hrun⟩
      rw [hnode] at hother
      cases hother
      rw [hrun] at hfound
      cases hfound
      exact hout
  | some (.error status) => .isTrue fun node hnode reached hrun => by
    rw [hnode, Option.bind_some, hrun] at h
    cases h
  | none => .isTrue fun node hnode reached hrun => by
    rw [hnode, Option.bind_some, hrun] at h
    cases h

theorem removeDiscoveredFrom_dependsOn (graph : BuildGraph) {node v : NodeId} (hv : v ≠ node) (w : NodeId) :
    (graph.removeDiscoveredFrom node).DependsOn v w ↔ graph.DependsOn v w := by
  constructor
  · rintro ⟨id, edge, hedge, hends⟩
    exact ⟨id, edge, ExtTreeMap.getElem?_of_filter hedge, hends⟩
  · rintro ⟨id, edge, hedge, rfl, rfl⟩
    refine ⟨id, edge, ?_, rfl, rfl⟩
    simp [removeDiscoveredFrom, ExtTreeMap.getElem?_filter, hedge, hv]

variable {graph : BuildGraph} {calls : Nat} {C : Set NodeId}

theorem agreeOn_after (hok : GraphOk calls graph) (hclosed : ∀ v ∈ C, ∀ w, graph.DependsOn v w → w ∈ C)
    (hnodes : ∀ v ∈ C, v ∈ graph.nodes) {call : GraphCall} (hcall : ∀ node ∈ graph.subject call, node ∉ C) :
    AgreeOn C graph (graph.after call) := by
  have hne : ∀ node ∈ graph.subject call, ∀ v ∈ C, node ≠ v := fun node hnode v hv hsame =>
    hcall node hnode (hsame ▸ hv)
  cases call with
  | putNode name action =>
    rw [after, putNode]
    by_cases hname : name = []
    · rw [if_pos hname]
      exact ⟨hclosed, fun _ _ => rfl, fun _ _ _ => Iff.rfl⟩
    rw [if_neg hname]
    cases hfound : graph.nodeNamed name with
    | some entry =>
      refine ⟨hclosed, fun v hv => ?_, fun _ _ _ => Iff.rfl⟩
      exact ExtTreeMap.getElem?_insert_of_ne (hne entry.1 (by simp [subject, hfound]) v hv)
    | none =>
      refine ⟨hclosed, fun v hv => ?_, fun _ _ _ => Iff.rfl⟩
      obtain ⟨node, hnode⟩ := exists_node (hnodes v hv)
      exact ExtTreeMap.getElem?_insert_of_ne (hok.nodes.next_ne hnode)
  | putEdge fromNode toNode kind =>
    have hfrom := hne fromNode rfl
    by_cases hends : fromNode ∈ graph.nodes ∧ toNode ∈ graph.nodes
    · refine ⟨hclosed, fun v hv => ?_, fun v hv w => ?_⟩
      · rw [after, putEdge, dif_pos hends]
        cases graph.edgeLike fromNode toNode kind with
        | some entry => rfl
        | none => exact ExtTreeMap.getElem?_insert_of_ne (hfrom v hv)
      · rw [after, putEdge_addsEdge hok hends kind v w]
        exact or_iff_left fun hsame => hfrom v hv hsame.1.symm
    · rw [after, putEdge, dif_neg hends]
      exact ⟨hclosed, fun _ _ => rfl, fun _ _ _ => Iff.rfl⟩
  | removeDiscoveredFrom node =>
    exact ⟨hclosed, fun _ _ => rfl,
      fun v hv w => graph.removeDiscoveredFrom_dependsOn (hne node rfl v hv).symm w⟩

/-- What the targets need. -/
def needed (graph : BuildGraph) (targets : List NodeId) : Set NodeId :=
  {v | ∃ t ∈ targets, ReflTransGen graph.DependsOn t v}

theorem needed_closed (graph : BuildGraph) (targets : List NodeId) :
    ∀ v ∈ graph.needed targets, ∀ w, graph.DependsOn v w → w ∈ graph.needed targets :=
  fun _ ⟨t, ht, hreach⟩ _ hedge => ⟨t, ht, hreach.tail hedge⟩

theorem needed_nodes {targets : List NodeId} (htargets : ∀ t ∈ targets, t ∈ graph.nodes) :
    ∀ v ∈ graph.needed targets, v ∈ graph.nodes := by
  rintro v ⟨t, ht, hreach⟩
  rcases hreach.cases_tail with rfl | ⟨_, _, hedge⟩
  · exact htargets v ht
  · exact hedge.mem_nodes.2

theorem Spares.subject_not_needed {targets : List NodeId} {call : GraphCall} (h : Spares targets graph call) :
    ∀ node ∈ graph.subject call, node ∉ graph.needed targets := by
  rintro node hnode ⟨t, ht, hreach⟩
  obtain ⟨reached, hrun, hmem⟩ := graph.reverseClosure_ok {node}
  exact h node hnode reached hrun t ht ((hmem t).mpr ⟨node, by simp, hreach⟩)

theorem agreeOn_foldl {targets : List NodeId} (later : List GraphCall) :
    ∀ {calls : Nat} {graph : BuildGraph}, GraphOk calls graph → calls + later.length < 2 ^ 64 - 1 →
      (∀ t ∈ targets, t ∈ graph.nodes) → Runs.Admissible after (Spares targets) graph later →
        AgreeOn (graph.needed targets) graph (later.foldl after graph) := by
  induction later with
  | nil => exact fun {_ graph} _ _ _ _ => ⟨graph.needed_closed targets, fun _ _ => rfl, fun _ _ _ => Iff.rfl⟩
  | cons call later ih =>
    intro calls graph hok hlength htargets hspared
    rw [List.length_cons] at hlength
    obtain ⟨hcall, hrest⟩ := hspared
    have hagree := agreeOn_after hok (graph.needed_closed targets) (needed_nodes htargets)
      hcall.subject_not_needed
    have hstart : ∀ t ∈ targets, t ∈ graph.needed targets := fun t ht => ⟨t, ht, .refl⟩
    have hsame : (graph.after call).needed targets = graph.needed targets := by
      ext v
      exact exists_congr fun t => and_congr_right fun ht => hagree.reaches_iff (hstart t ht) v
    have hlater := ih ((graph.change call).ok hok (by omega)).1 (by omega)
      (fun t ht => (hagree.mem_nodes_iff (hstart t ht)).mpr (htargets t ht)) hrest
    rw [hsame] at hlater
    exact hagree.trans hlater

end BuildGraph

open BuildGraph in
/-- **What a change cannot affect.** As long as no change is made at a node with a target in its reverse
closure, and there is no cycle, the targets are built as before: with the same calls of the executor, outcome
and artifacts. -/
theorem unaffected_build {σ : Type} (earlier later : List GraphCall)
    (hlength : earlier.length + later.length < 2 ^ 64 - 1) {targets : List NodeId}
    (htargets : ∀ t ∈ targets, t ∈ (run earlier).nodes)
    (hspared : Runs.Admissible after (Spares targets) (run earlier) later)
    (hcycle : (run earlier).cycleWitness = none) (hcycle' : (run (earlier ++ later)).cycleWitness = none)
    (workspace : WorkspaceCore) (ex : Executor σ) (executor : σ) :
    let before := { workspace with graph := run earlier }.build ex targets executor
    { workspace with graph := run (earlier ++ later) }.build ex targets executor =
      (before.1, { before.2.1 with graph := run (earlier ++ later) }, before.2.2) := by
  have hagree := agreeOn_foldl later (graphOk_run earlier (by omega)) hlength htargets hspared
  have hrun : run (earlier ++ later) = later.foldl after (run earlier) := List.foldl_append
  rw [← hrun] at hagree
  exact hagree.build_eq (acyclic_of_cycleWitness_none hcycle) (acyclic_of_cycleWitness_none hcycle')
    (fun t ht => ⟨⟨t, ht, .refl⟩, htargets t ht⟩) workspace ex executor

/-- The tool depends on the application; it gets another command and loses its edges. -/
theorem unaffected_build_tool :
    let earlier : List GraphCall := [.putNode "lib" {}, .putNode "app" {}, .putNode "tool" {},
      .putEdge ⟨2⟩ ⟨1⟩ .declared, .putEdge ⟨3⟩ ⟨2⟩ .discovered]
    let later : List GraphCall := [.putNode "tool" { command := "cc" }, .removeDiscoveredFrom ⟨3⟩,
      .putNode "test" {}, .putEdge ⟨4⟩ ⟨2⟩ .declared]
    let before := { ({} : WorkspaceCore) with graph := BuildGraph.run earlier }.build
      DeterministicMockExecutor.executor [⟨2⟩] {}
    ({ ({} : WorkspaceCore) with graph := BuildGraph.run (earlier ++ later) }.build
      DeterministicMockExecutor.executor [⟨2⟩] {}).1 = before.1 := by
  intro earlier later before
  rw [unaffected_build earlier later (by decide) (by decide +kernel) (by decide +kernel) (by decide +kernel)
    (by decide +kernel)]

end Forge
