import Forge.Graph.CycleAnalyzer
import Forge.Graph.ReverseClosure

/-!
# The build plan

`WorkspaceCore::plan_order` of `workspace.cpp`: a depth-first search from the targets that puts a node
behind everything it depends on. `seen` is shared between the targets and a node enters it before its
dependencies are visited, so on a graph with a cycle the order would be wrong; on one without, a node
that is seen and not yet in the order would reach itself (`planVisit_spec`).

As in the cycle search the recursion is bounded by `fuel`, and `planTargets_isSome` shows that it
suffices on every graph.
-/

namespace Forge

open Std (ExtTreeMap ExtTreeSet)
open Digraph Relation

/-- The variables `seen` and `order` of `plan_order`. -/
structure Plan where
  seen : ExtTreeSet NodeId := ∅
  order : List NodeId := []
deriving DecidableEq

/-- `visit` of `plan_order`. -/
def planVisit (snapshot : GraphSnapshot) : Nat → NodeId → Plan → Option Plan
  | 0, _, _ => none
  | fuel + 1, node, plan =>
    if node ∈ plan.seen then some plan
    else do
      let plan ← (snapshot.dependencies node).toList.foldlM
        (fun plan dep => planVisit snapshot fuel dep plan) { plan with seen := plan.seen.insert node }
      return { plan with order := plan.order ++ [node] }

/-- The loop over the targets. -/
def planTargets (snapshot : GraphSnapshot) (fuel : Nat) : List NodeId → Plan → Option (Result Plan)
  | [], plan => some (.ok plan)
  | target :: rest, plan =>
    if target ∈ snapshot.nodes then
      match planVisit snapshot fuel target plan with
      | some plan => planTargets snapshot fuel rest plan
      | none => none
    else some (.error (Status.error .graphConflict "workspace" "unknown target"))

/-- `plan_order`; the depth of the recursion is at most the number of nodes plus one. -/
def planOrder (graph : BuildGraph) (targets : List NodeId) : Result (List NodeId) :=
  match planTargets graph.snapshot (graph.nodes.size + 1) targets {} with
  | some result => result.map Plan.order
  | none => .ok []

/-! ## The fuel suffices -/

/-- The number of nodes not yet seen. -/
def unseen (graph : BuildGraph) (plan : Plan) : Nat :=
  (graph.nodes.keys.toFinset.filter fun v => v ∉ plan.seen).card

theorem unseen_le {graph : BuildGraph} {plan plan' : Plan} (h : ∀ v ∈ plan.seen, v ∈ plan'.seen) :
    unseen graph plan' ≤ unseen graph plan := by
  refine Finset.card_le_card fun v hv => ?_
  simp only [Finset.mem_filter] at hv ⊢
  exact ⟨hv.1, fun hin => hv.2 (h v hin)⟩

theorem unseen_insert_lt {graph : BuildGraph} {plan : Plan} {node : NodeId} (hmem : node ∈ graph.nodes)
    (hnew : node ∉ plan.seen) :
    unseen graph { plan with seen := plan.seen.insert node } < unseen graph plan := by
  refine Finset.card_lt_card ⟨fun v hv => ?_, fun hsub => ?_⟩
  · simp only [Finset.mem_filter, ExtTreeSet.mem_insert, not_or] at hv ⊢
    exact ⟨hv.1, hv.2.2⟩
  · have hin := hsub (Finset.mem_filter.mpr ⟨by simpa using hmem, hnew⟩)
    simp at hin

theorem mem_dependencies_toList (graph : BuildGraph) (node dep : NodeId) :
    dep ∈ (graph.snapshot.dependencies node).toList ↔ graph.DependsOn node dep := by
  rw [ExtTreeSet.mem_toList, GraphSnapshot.mem_dependencies]

theorem planVisit_isSome {graph : BuildGraph} (fuel : Nat) :
    ∀ (node : NodeId) (plan : Plan), node ∈ graph.nodes → unseen graph plan < fuel →
      ∃ plan', planVisit graph.snapshot fuel node plan = some plan' ∧ ∀ v ∈ plan.seen, v ∈ plan'.seen := by
  induction fuel with
  | zero => intro node plan _ hfuel; omega
  | succ fuel ih =>
    intro node plan hmem hfuel
    rw [planVisit]
    split_ifs with hseen
    · exact ⟨plan, rfl, fun v hv => hv⟩
    have hdeps (deps : List NodeId) (hdeps : ∀ dep ∈ deps, dep ∈ graph.nodes) :
        ∀ plan : Plan, unseen graph plan < fuel →
          ∃ plan', deps.foldlM (fun plan dep => planVisit graph.snapshot fuel dep plan) plan =
            some plan' ∧ ∀ v ∈ plan.seen, v ∈ plan'.seen := by
      induction deps with
      | nil => exact fun plan _ => ⟨plan, rfl, fun v hv => hv⟩
      | cons dep deps ihdeps =>
        intro plan hfuel
        obtain ⟨plan₁, hrun₁, hseen₁⟩ := ih dep plan (hdeps dep (by simp)) hfuel
        obtain ⟨plan₂, hrun₂, hseen₂⟩ := ihdeps (fun d hd => hdeps d (by simp [hd])) plan₁
          ((unseen_le hseen₁).trans_lt hfuel)
        exact ⟨plan₂, by rw [List.foldlM_cons, hrun₁]; exact hrun₂, fun v hv => hseen₂ v (hseen₁ v hv)⟩
    obtain ⟨plan', hrun, hgrow⟩ := hdeps _
      (fun dep hdep => ((mem_dependencies_toList graph node dep).mp hdep).mem_nodes.2)
      { plan with seen := plan.seen.insert node } (by have := unseen_insert_lt hmem hseen; omega)
    refine ⟨{ plan' with order := plan'.order ++ [node] }, by rw [hrun]; rfl, fun v hv => ?_⟩
    exact hgrow v (by simp [hv])

theorem planTargets_isSome (graph : BuildGraph) (targets : List NodeId) (plan : Plan) :
    (planTargets graph.snapshot (graph.nodes.size + 1) targets plan).isSome := by
  induction targets generalizing plan with
  | nil => rfl
  | cons target rest ih =>
    rw [planTargets]
    split_ifs with hmem
    · have hfuel : unseen graph plan < graph.nodes.size + 1 := by
        calc unseen graph plan ≤ graph.nodes.keys.toFinset.card := Finset.card_filter_le ..
          _ ≤ graph.nodes.keys.length := List.toFinset_card_le _
          _ < graph.nodes.size + 1 := by rw [ExtTreeMap.length_keys]; omega
      obtain ⟨plan', hrun, _⟩ := planVisit_isSome _ target plan hmem hfuel
      rw [hrun]
      exact ih plan'
    · rfl

/-! ## The plan is a post-order -/

/-- The order lists seen nodes once, dependencies first. -/
structure PlanInv (graph : BuildGraph) (plan : Plan) : Prop where
  nodup : plan.order.Nodup
  seen : ∀ v ∈ plan.order, v ∈ plan.seen
  post : PostOrder graph.DependsOn plan.order

/-- `plan'` extends `plan` by nodes that satisfy `new`; no other node was left open. -/
structure Extends (graph : BuildGraph) (new : NodeId → Prop) (plan plan' : Plan) : Prop where
  inv : PlanInv graph plan'
  seen : ∀ v ∈ plan.seen, v ∈ plan'.seen
  order : plan.order ⊆ plan'.order
  opened : ∀ v ∈ plan'.seen, v ∉ plan'.order → v ∈ plan.seen ∧ v ∉ plan.order
  new : ∀ v ∈ plan'.order, v ∉ plan.order → new v

theorem Extends.refl {graph : BuildGraph} {new : NodeId → Prop} {plan : Plan} (h : PlanInv graph plan) :
    Extends graph new plan plan :=
  ⟨h, fun _ hv => hv, fun _ hv => hv, fun _ hv hout => ⟨hv, hout⟩, fun _ hv hout => absurd hv hout⟩

theorem Extends.trans {graph : BuildGraph} {new : NodeId → Prop} {p₁ p₂ p₃ : Plan}
    (h₁ : Extends graph new p₁ p₂) (h₂ : Extends graph new p₂ p₃) : Extends graph new p₁ p₃ := by
  refine ⟨h₂.inv, fun v hv => h₂.seen v (h₁.seen v hv), fun v hv => h₂.order (h₁.order hv),
    fun v hv hout => ?_, fun v hv hout => ?_⟩
  · obtain ⟨hseen, hopen⟩ := h₂.opened v hv hout
    exact h₁.opened v hseen hopen
  · by_cases hmid : v ∈ p₂.order
    · exact h₁.new v hmid hout
    · exact h₂.new v hv hmid

theorem Extends.mono {graph : BuildGraph} {new new' : NodeId → Prop} {p₁ p₂ : Plan}
    (h : Extends graph new p₁ p₂) (himp : ∀ v, new v → new' v) : Extends graph new' p₁ p₂ :=
  ⟨h.inv, h.seen, h.order, h.opened, fun v hv hout => himp v (h.new v hv hout)⟩

theorem foldlM_visit_spec {graph : BuildGraph} {node : NodeId} {visit : NodeId → Plan → Option Plan}
    (hvisit : ∀ dep plan plan', visit dep plan = some plan' → PlanInv graph plan →
      (∀ v ∈ plan.seen, v ∉ plan.order → TransGen graph.DependsOn v dep) →
      Extends graph (ReflTransGen graph.DependsOn dep) plan plan' ∧ dep ∈ plan'.order)
    {deps : List NodeId} (hdeps : ∀ dep ∈ deps, graph.DependsOn node dep) :
    ∀ plan plan', deps.foldlM (fun plan dep => visit dep plan) plan = some plan' → PlanInv graph plan →
      (∀ v ∈ plan.seen, v ∉ plan.order → ReflTransGen graph.DependsOn v node) →
      Extends graph (TransGen graph.DependsOn node) plan plan' ∧ ∀ dep ∈ deps, dep ∈ plan'.order := by
  induction deps with
  | nil =>
    intro plan plan' hrun hinv _
    cases hrun
    exact ⟨.refl hinv, by simp⟩
  | cons dep deps ih =>
    intro plan plan' hrun hinv hopen
    have hdep := hdeps dep (by simp)
    rw [List.foldlM_cons] at hrun
    obtain ⟨plan₁, hrun₁, hrun₂⟩ := Option.bind_eq_some_iff.mp hrun
    obtain ⟨hext₁, hmem₁⟩ := hvisit dep plan plan₁ hrun₁ hinv fun v hv hout =>
      TransGen.tail' (hopen v hv hout) hdep
    obtain ⟨hext₂, hmem₂⟩ := ih (fun d hd => hdeps d (by simp [hd])) plan₁ plan' hrun₂ hext₁.inv
      fun v hv hout =>
        let ⟨hseen, hopen₁⟩ := hext₁.opened v hv hout
        hopen v hseen hopen₁
    refine ⟨(hext₁.mono fun v hv => TransGen.head' hdep hv).trans hext₂, fun d hd => ?_⟩
    rcases List.mem_cons.mp hd with rfl | hd
    · exact hext₂.order hmem₁
    · exact hmem₂ d hd

theorem planVisit_spec {graph : BuildGraph} (hacyclic : Acyclic graph.DependsOn) (fuel : Nat) :
    ∀ node plan plan', planVisit graph.snapshot fuel node plan = some plan' → PlanInv graph plan →
      (∀ v ∈ plan.seen, v ∉ plan.order → TransGen graph.DependsOn v node) →
      Extends graph (ReflTransGen graph.DependsOn node) plan plan' ∧ node ∈ plan'.order := by
  induction fuel with
  | zero => intro node plan plan' hrun; cases hrun
  | succ fuel ih =>
    intro node plan plan' hrun hinv hopen
    rw [planVisit] at hrun
    split_ifs at hrun with hseen
    · cases hrun
      refine ⟨.refl hinv, ?_⟩
      by_contra hout
      exact hacyclic node (hopen node hseen hout)
    obtain ⟨plan₁, hrun₁, hrun₂⟩ := Option.bind_eq_some_iff.mp hrun
    cases hrun₂
    have hout : node ∉ plan.order := fun hin => hseen (hinv.seen node hin)
    have hstart : PlanInv graph { plan with seen := plan.seen.insert node } :=
      ⟨hinv.nodup, fun v hv => by simp [hinv.seen v hv], hinv.post⟩
    obtain ⟨hext, hdeps⟩ := foldlM_visit_spec ih
      (fun dep hdep => (mem_dependencies_toList graph node dep).mp hdep) _ plan₁ hrun₁ hstart
      fun v hv hopened => by
        rcases ExtTreeSet.mem_insert.mp hv with heq | hv
        · rw [Std.compare_eq_iff_eq.mp heq]
        · exact (hopen v hv hopened).to_reflTransGen
    -- `node` is behind all it reaches, so it is not yet in the order
    have hfresh : node ∉ plan₁.order := fun hin => hacyclic node (hext.new node hin hout)
    refine ⟨⟨⟨?_, ?_, ?_⟩, ?_, ?_, ?_, ?_⟩, by simp⟩
    · rw [← List.concat_eq_append]
      exact hext.inv.nodup.concat hfresh
    · intro v hv
      rcases List.mem_append.mp hv with hv | hv
      · exact hext.inv.seen v hv
      · rw [List.mem_singleton.mp hv]
        exact hext.seen node (by simp)
    · exact hext.inv.post.snoc fun w hw => hdeps w ((mem_dependencies_toList graph node w).mpr hw)
    · exact fun v hv => hext.seen v (by simp [hv])
    · exact fun v hv => List.mem_append_left _ (hext.order hv)
    · intro v hv hnot
      rw [List.mem_append, not_or, List.mem_singleton] at hnot
      obtain ⟨hin, hopened⟩ := hext.opened v hv hnot.1
      rw [ExtTreeSet.mem_insert, Std.compare_eq_iff_eq] at hin
      exact ⟨hin.resolve_left fun heq => hnot.2 heq.symm, hopened⟩
    · intro v hv hnew
      rcases List.mem_append.mp hv with hv | hv
      · exact (hext.new v hv hnew).to_reflTransGen
      · rw [List.mem_singleton.mp hv]

theorem planTargets_spec {graph : BuildGraph} (hacyclic : Acyclic graph.DependsOn)
    {targets : List NodeId} (htargets : ∀ t ∈ targets, t ∈ graph.nodes) {fuel : Nat} :
    ∀ plan result, planTargets graph.snapshot fuel targets plan = some result → PlanInv graph plan →
      (∀ v ∈ plan.seen, v ∈ plan.order) →
      ∃ plan', result = .ok plan' ∧
        Extends graph (fun v => ∃ t ∈ targets, ReflTransGen graph.DependsOn t v) plan plan' ∧
        ∀ t ∈ targets, t ∈ plan'.order := by
  induction targets with
  | nil =>
    intro plan result hrun hinv _
    cases hrun
    exact ⟨plan, rfl, .refl hinv, by simp⟩
  | cons target rest ih =>
    intro plan result hrun hinv hclosed
    have hnode : target ∈ graph.snapshot.nodes := htargets target (by simp)
    rw [planTargets, if_pos hnode] at hrun
    cases hvisit : planVisit graph.snapshot fuel target plan with
    | none => rw [hvisit] at hrun; cases hrun
    | some plan₁ =>
      rw [hvisit] at hrun
      obtain ⟨hext₁, hmem₁⟩ := planVisit_spec hacyclic fuel target plan plan₁ hvisit hinv
        fun v hv hout => absurd (hclosed v hv) hout
      have hclosed₁ : ∀ v ∈ plan₁.seen, v ∈ plan₁.order := by
        intro v hv
        by_contra hout
        obtain ⟨hin, hnot⟩ := hext₁.opened v hv hout
        exact hnot (hclosed v hin)
      obtain ⟨plan', hresult, hext₂, hmem₂⟩ := ih (fun t ht => htargets t (by simp [ht])) plan₁ result
        hrun hext₁.inv hclosed₁
      refine ⟨plan', hresult, (hext₁.mono fun v hv => ⟨target, by simp, hv⟩).trans
        (hext₂.mono fun v ⟨t, ht, hv⟩ => ⟨t, by simp [ht], hv⟩), fun t ht => ?_⟩
      rcases List.mem_cons.mp ht with rfl | ht
      · exact hext₂.order hmem₁
      · exact hmem₂ t ht

theorem planTargets_unknown {snapshot : GraphSnapshot} {targets : List NodeId} {fuel : Nat}
    (hunknown : ∃ t ∈ targets, t ∉ snapshot.nodes) :
    ∀ plan result, planTargets snapshot fuel targets plan = some result → ∃ status, result = .error status := by
  induction targets with
  | nil => simp at hunknown
  | cons target rest ih =>
    intro plan result hrun
    rw [planTargets] at hrun
    split_ifs at hrun with hmem
    · have hrest : ∃ t ∈ rest, t ∉ snapshot.nodes := by
        obtain ⟨t, ht, hnot⟩ := hunknown
        rcases List.mem_cons.mp ht with rfl | ht
        · exact absurd hmem hnot
        · exact ⟨t, ht, hnot⟩
      split at hrun
      · exact ih hrest _ result hrun
      · cases hrun
    · cases hrun
      exact ⟨_, rfl⟩

/-- What a plan for `targets` must be: the nodes they need, each once and behind its dependencies. -/
structure PlansFor (graph : BuildGraph) (targets order : List NodeId) : Prop where
  nodup : order.Nodup
  mem_iff : ∀ v, v ∈ order ↔ ∃ t ∈ targets, ReflTransGen graph.DependsOn t v
  sorted : ∀ before v after, order = before ++ v :: after → ∀ dep, graph.DependsOn v dep → dep ∈ before

theorem planOrder_ok {graph : BuildGraph} (hacyclic : Acyclic graph.DependsOn) {targets : List NodeId}
    (htargets : ∀ t ∈ targets, t ∈ graph.nodes) :
    ∃ order, planOrder graph targets = .ok order ∧ PlansFor graph targets order := by
  obtain ⟨result, hrun⟩ := Option.isSome_iff_exists.mp (planTargets_isSome graph targets {})
  obtain ⟨plan, rfl, hext, hmem⟩ := planTargets_spec hacyclic htargets {} result hrun
    ⟨List.nodup_nil, by simp, postOrder_nil⟩ (by simp)
  refine ⟨plan.order, by rw [planOrder, hrun]; rfl, hext.inv.nodup, fun v => ⟨fun hv => ?_, ?_⟩,
    hext.inv.post⟩
  · exact hext.new v hv (by simp)
  · rintro ⟨t, ht, hreach⟩
    induction hreach with
    | refl => exact hmem t ht
    | tail _ hdep ih => exact hext.inv.post.mem_of_rel ih hdep

theorem planOrder_unknown {graph : BuildGraph} {targets : List NodeId}
    (hunknown : ∃ t ∈ targets, t ∉ graph.nodes) : ∃ status, planOrder graph targets = .error status := by
  obtain ⟨result, hrun⟩ := Option.isSome_iff_exists.mp (planTargets_isSome graph targets {})
  obtain ⟨status, rfl⟩ := planTargets_unknown hunknown {} result hrun
  exact ⟨status, by rw [planOrder, hrun]; rfl⟩

/-- **The plan is a topological order of the target closure** whenever the cycle search finds nothing,
and an unknown target is an error. -/
theorem planOrder_spec (graph : BuildGraph) (hcycle : graph.cycleWitness = none) (targets : List NodeId) :
    ((∀ t ∈ targets, t ∈ graph.nodes) →
        ∃ order, planOrder graph targets = .ok order ∧ PlansFor graph targets order) ∧
      ((∃ t ∈ targets, t ∉ graph.nodes) → ∃ status, planOrder graph targets = .error status) :=
  ⟨planOrder_ok (BuildGraph.acyclic_of_cycleWitness_none hcycle), planOrder_unknown⟩

/-- Two nodes, the first depending on the second, planned from the first and from an unknown node. -/
theorem planOrder_spec_pair :
    let graph := (((({} : BuildGraph).putNode [97] {}).2.putNode [98] {}).2.putEdge ⟨1⟩ ⟨2⟩ .declared).2
    graph.cycleWitness = none ∧ PlansFor graph [⟨1⟩] [⟨2⟩, ⟨1⟩] ∧
      ∃ status, planOrder graph [⟨1⟩, ⟨3⟩] = .error status := by
  intro graph
  have hcycle : graph.cycleWitness = none := by decide +kernel
  have hplan : planOrder graph [⟨1⟩] = .ok [⟨2⟩, ⟨1⟩] := by decide +kernel
  obtain ⟨order, horder, hplans⟩ := (planOrder_spec graph hcycle [⟨1⟩]).1 (by decide +kernel)
  rw [hplan] at horder
  cases horder
  exact ⟨hcycle, hplans, (planOrder_spec graph hcycle [⟨1⟩, ⟨3⟩]).2 ⟨⟨3⟩, by simp, by decide +kernel⟩⟩

/-! ## The reverse closure -/

/-- **Reverse closure is exact**: `reverse_closure` ends on every graph with the ids from which a seed is
reached, and on a graph without cycles a node is planned for a target exactly when the target is in the
reverse closure of the node. -/
theorem reverseClosure_exact (graph : BuildGraph) :
    (∀ seeds : ExtTreeSet NodeId, ∃ reached, graph.reverseClosure seeds = some (.ok reached) ∧
      ∀ v, v ∈ reached ↔ ∃ s ∈ seeds, ReflTransGen graph.DependsOn v s) ∧
    (Acyclic graph.DependsOn → ∀ n ∈ graph.nodes, ∀ t ∈ graph.nodes,
      ∃ order reached, planOrder graph [t] = .ok order ∧
        graph.reverseClosure {n} = some (.ok reached) ∧ (n ∈ order ↔ t ∈ reached)) := by
  refine ⟨graph.reverseClosure_ok, fun hacyclic n _ t ht => ?_⟩
  obtain ⟨order, horder, hplans⟩ := planOrder_ok hacyclic (by simpa using ht : ∀ u ∈ [t], u ∈ graph.nodes)
  obtain ⟨reached, hreached, hmem⟩ := graph.reverseClosure_ok {n}
  refine ⟨order, reached, horder, hreached, ?_⟩
  rw [hplans.mem_iff, hmem]
  simp

/-- The first of two nodes depends on the second, so it is in the reverse closure of the second. -/
theorem reverseClosure_exact_pair :
    let graph := (((({} : BuildGraph).putNode [97] {}).2.putNode [98] {}).2.putEdge ⟨1⟩ ⟨2⟩ .declared).2
    ∃ order reached, planOrder graph [⟨1⟩] = .ok order ∧
      graph.reverseClosure {⟨2⟩} = some (.ok reached) ∧ (⟨2⟩ ∈ order ↔ ⟨1⟩ ∈ reached) := by
  intro graph
  have hacyclic : Acyclic graph.DependsOn :=
    BuildGraph.acyclic_of_cycleWitness_none (by decide +kernel)
  exact (reverseClosure_exact graph).2 hacyclic ⟨2⟩ (by decide +kernel) ⟨1⟩ (by decide +kernel)

end Forge
