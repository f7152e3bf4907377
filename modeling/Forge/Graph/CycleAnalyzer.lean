import Forge.Graph.BuildGraph
import Forge.Lib.Digraph

/-!
# Cycle detection

`BuildGraph::cycle_witness` of `cycle_analyzer.cpp`: a three-colour depth-first search over all nodes
with an explicit stack. The recursion of `visit` is bounded by `fuel`, `none` standing for a search
that ran out of it; `search_spec` shows that this does not happen.

The invariant of the search (`DfsInv`) is that the gray nodes are the stack, which is a path, and that
the black nodes can be listed in post-order. A gray successor closes a cycle on the stack; a finished
search has all nodes in post-order, so there is no cycle.
-/

namespace Forge

open Std (ExtTreeMap)
open Digraph

inductive Color
  | white | gray | black
deriving DecidableEq, Repr

structure CycleWitness where
  nodes : List NodeId := []
  edges : List EdgeId := []
deriving DecidableEq, Repr

/-- The variables `color` and `stack` of `cycle_witness`. -/
structure Dfs where
  color : ExtTreeMap NodeId Color := ∅
  stack : List NodeId := []
deriving DecidableEq

/-- `color[node]`: a missing entry reads as the first enumerator. -/
def Dfs.colorOf (s : Dfs) (node : NodeId) : Color := s.color.getD node .white

/-- `color[node] = Color::gray; stack.push_back(node)`. -/
def Dfs.enter (s : Dfs) (node : NodeId) : Dfs := ⟨s.color.insert node .gray, s.stack ++ [node]⟩

/-- `stack.pop_back(); color[node] = Color::black`. -/
def Dfs.leave (s : Dfs) (node : NodeId) : Dfs := ⟨s.color.insert node .black, s.stack.dropLast⟩

namespace BuildGraph

/-- The id of the first edge between two nodes, in id order. -/
def edgeBetween (graph : BuildGraph) (v w : NodeId) : Option EdgeId :=
  (graph.edges.toList.find? fun entry => entry.2.fromNode = v ∧ entry.2.toNode = w).map Prod.fst

/-- The edges between neighbours of `nodes`, looked up one by one. -/
def witnessEdges (graph : BuildGraph) : List NodeId → List EdgeId
  | v :: w :: rest => (graph.edgeBetween v w).toList ++ graph.witnessEdges (w :: rest)
  | _ => []

/-- The witness for an edge back to `target`, which is on the stack. -/
def witnessAt (graph : BuildGraph) (stack : List NodeId) (target : NodeId) : CycleWitness :=
  let nodes := stack.drop (stack.idxOf target) ++ [target]
  ⟨nodes, graph.witnessEdges nodes⟩

/-- The result of a part of the search: the state, and the witness if one was found. -/
abbrev Search := Option (Dfs × Option CycleWitness)

/-- The loop over the edges in `visit`, which calls itself through the argument `visit`. -/
def visitEdges (graph : BuildGraph) (visit : NodeId → Dfs → Search) (node : NodeId) :
    List (EdgeId × DependencyEdge) → Dfs → Search
  | [], s => some (s, none)
  | (_, edge) :: rest, s =>
    if edge.fromNode ≠ node then graph.visitEdges visit node rest s
    else
      match s.colorOf edge.toNode with
      | .white =>
        match visit edge.toNode s with
        | some (s, none) => graph.visitEdges visit node rest s
        | found => found
      | .gray => some (s, some (graph.witnessAt s.stack edge.toNode))
      | .black => graph.visitEdges visit node rest s

def visit (graph : BuildGraph) : Nat → NodeId → Dfs → Search
  | 0, _, _ => none
  | fuel + 1, node, s =>
    match graph.visitEdges (graph.visit fuel) node graph.edges.toList (s.enter node) with
    | some (s, none) => some (s.leave node, none)
    | found => found

/-- The loop over all nodes. -/
def visitNodes (graph : BuildGraph) (fuel : Nat) : List NodeId → Dfs → Search
  | [], s => some (s, none)
  | node :: rest, s =>
    if s.colorOf node = .white then
      match graph.visit fuel node s with
      | some (s, none) => graph.visitNodes fuel rest s
      | found => found
    else graph.visitNodes fuel rest s

/-- All nodes white. -/
def initialColors (graph : BuildGraph) : Dfs :=
  ⟨graph.nodes.keys.foldl (fun color id => color.insert id .white) ∅, []⟩

/-- The search; no path is longer than the number of nodes. -/
def search (graph : BuildGraph) : Search :=
  graph.visitNodes (graph.nodes.size + 1) graph.nodes.keys graph.initialColors

def cycleWitness (graph : BuildGraph) : Option CycleWitness := graph.search.bind Prod.snd

end BuildGraph

/-! ## Witnesses -/

/-- What a witness must be: a closed path without other repetitions, and the edges along it. -/
structure CycleWitness.Valid (graph : BuildGraph) (witness : CycleWitness) : Prop where
  closed : witness.nodes.head? = witness.nodes.getLast?
  two_le : 2 ≤ witness.nodes.length
  nodup : witness.nodes.dropLast.Nodup
  length_edges : witness.edges.length = witness.nodes.length - 1
  edges : ∀ (i : Nat) (id : EdgeId), witness.edges[i]? = some id → ∃ edge : DependencyEdge,
    graph.edges[id]? = some edge ∧ witness.nodes[i]? = some edge.fromNode ∧
      witness.nodes[i + 1]? = some edge.toNode

theorem CycleWitness.Valid.isChain {graph : BuildGraph} {witness : CycleWitness}
    (h : witness.Valid graph) : List.IsChain graph.DependsOn witness.nodes := by
  rw [List.isChain_iff_getElem]
  intro i hi
  have hlt : i < witness.edges.length := by
    rw [h.length_edges]
    omega
  obtain ⟨edge, hedge, hfrom, hto⟩ := h.edges i _ (List.getElem?_eq_getElem hlt)
  rw [List.getElem?_eq_getElem (by omega), Option.some.injEq] at hfrom
  rw [List.getElem?_eq_getElem hi, Option.some.injEq] at hto
  exact ⟨_, edge, hedge, hfrom.symm, hto.symm⟩

theorem CycleWitness.Valid.transGen {graph : BuildGraph} {witness : CycleWitness}
    (h : witness.Valid graph) : ∃ v, Relation.TransGen graph.DependsOn v v := by
  have hpath := h.isChain
  have hclosed := h.closed
  have htwo := h.two_le
  cases hnodes : witness.nodes with
  | nil => simp [hnodes] at htwo
  | cons v rest =>
    rcases List.eq_nil_or_concat rest with rfl | ⟨middle, last, rfl⟩
    · simp [hnodes] at htwo
    · obtain rfl : v = last := by simpa [hnodes, List.getLast?_cons] using hclosed
      rw [hnodes, List.concat_eq_append] at hpath
      exact ⟨v, transGen_of_isChain hpath⟩

namespace BuildGraph

theorem edgeBetween_of_dependsOn {graph : BuildGraph} {v w : NodeId} (h : graph.DependsOn v w) :
    ∃ (id : EdgeId) (edge : DependencyEdge), graph.edgeBetween v w = some id ∧
      graph.edges[id]? = some edge ∧ edge.fromNode = v ∧ edge.toNode = w := by
  obtain ⟨entry, hmem, hends⟩ := (graph.dependsOn_iff_mem_toList v w).mp h
  have hsome : (graph.edges.toList.find? fun entry =>
      entry.2.fromNode = v ∧ entry.2.toNode = w).isSome := by
    rw [List.find?_isSome]
    exact ⟨entry, hmem, by simpa using hends⟩
  obtain ⟨⟨id, edge⟩, hfind⟩ := Option.isSome_iff_exists.mp hsome
  have hfound := List.find?_some hfind
  refine ⟨id, edge, by rw [edgeBetween, hfind]; rfl, ?_, by simpa using hfound⟩
  exact ExtTreeMap.mem_toList_iff_getElem?_eq_some.mp (List.mem_of_find?_eq_some hfind)

theorem witnessEdges_spec {graph : BuildGraph} {nodes : List NodeId}
    (hpath : List.IsChain graph.DependsOn nodes) :
    (graph.witnessEdges nodes).length = nodes.length - 1 ∧
      ∀ (i : Nat) (id : EdgeId), (graph.witnessEdges nodes)[i]? = some id → ∃ edge : DependencyEdge,
        graph.edges[id]? = some edge ∧ nodes[i]? = some edge.fromNode ∧
          nodes[i + 1]? = some edge.toNode := by
  induction nodes with
  | nil => simp [witnessEdges]
  | cons v rest ih =>
    cases rest with
    | nil => simp [witnessEdges]
    | cons w rest =>
      rw [List.isChain_cons_cons] at hpath
      obtain ⟨hlength, hedges⟩ := ih hpath.2
      obtain ⟨id, edge, hfound, hedge, rfl, rfl⟩ := edgeBetween_of_dependsOn hpath.1
      rw [witnessEdges, hfound, Option.toList_some, List.singleton_append]
      refine ⟨by simp [hlength], fun i otherId hother => ?_⟩
      cases i with
      | zero =>
        obtain rfl : id = otherId := by simpa using hother
        exact ⟨edge, hedge, rfl, rfl⟩
      | succ i =>
        obtain ⟨other, hother, hfrom, hto⟩ := hedges i otherId (by simpa using hother)
        exact ⟨other, hother, by simpa using hfrom, by simpa using hto⟩

theorem witnessAt_valid {graph : BuildGraph} {stack : List NodeId} {target : NodeId}
    (hpath : List.IsChain graph.DependsOn stack) (hnodup : stack.Nodup) (hmem : target ∈ stack)
    (hback : ∀ v ∈ stack.getLast?, graph.DependsOn v target) :
    (graph.witnessAt stack target).Valid graph := by
  obtain ⟨before, after, hsplit, hbefore⟩ := List.eq_append_cons_of_mem hmem
  have hidx : stack.drop (stack.idxOf target) = target :: after := by
    rw [hsplit, List.idxOf_append_of_notMem hbefore, List.idxOf_cons_self, Nat.add_zero,
      List.drop_left]
  have hcycle : List.IsChain graph.DependsOn (target :: after ++ [target]) := by
    rw [List.isChain_append]
    refine ⟨?_, by simp, fun v hv w hw => ?_⟩
    · rw [← hidx]
      exact hpath.drop _
    · obtain rfl : target = w := by simpa using hw
      refine hback v ?_
      rw [hsplit, List.getLast?_append, hv]
      rfl
  obtain ⟨hlength, hedges⟩ := witnessEdges_spec hcycle
  have hnodes : (graph.witnessAt stack target).nodes = target :: after ++ [target] := by
    rw [witnessAt, hidx]
  have hwitnessEdges : (graph.witnessAt stack target).edges =
      graph.witnessEdges (target :: after ++ [target]) := by
    rw [witnessAt, hidx]
  refine ⟨?_, ?_, ?_, ?_, ?_⟩
  · rw [hnodes, List.getLast?_append]
    rfl
  · rw [hnodes]
    simp
  · rw [hnodes, List.dropLast_concat]
    rw [hsplit] at hnodup
    exact hnodup.of_append_right
  · rw [hnodes, hwitnessEdges, hlength]
  · rw [hnodes, hwitnessEdges]
    exact hedges

/-! ## The invariant of the search -/

/-- The stack is a path of the gray nodes and `done` lists the black ones in post-order. -/
structure DfsInv (graph : BuildGraph) (s : Dfs) (done : List NodeId) : Prop where
  gray : ∀ v, s.colorOf v = .gray ↔ v ∈ s.stack
  black : ∀ v, s.colorOf v = .black ↔ v ∈ done
  nodup : s.stack.Nodup
  path : List.IsChain graph.DependsOn s.stack
  post : PostOrder graph.DependsOn done

theorem colorOf_enter (s : Dfs) (node v : NodeId) :
    (s.enter node).colorOf v = if node = v then .gray else s.colorOf v := by
  simp [Dfs.colorOf, Dfs.enter, ExtTreeMap.getD_insert]

theorem colorOf_leave (s : Dfs) (node v : NodeId) :
    (s.leave node).colorOf v = if node = v then .black else s.colorOf v := by
  simp [Dfs.colorOf, Dfs.leave, ExtTreeMap.getD_insert]

theorem DfsInv.white_iff {graph : BuildGraph} {s : Dfs} {done : List NodeId} (h : DfsInv graph s done)
    (v : NodeId) : s.colorOf v = .white ↔ v ∉ s.stack ∧ v ∉ done := by
  rw [← h.gray, ← h.black]
  cases s.colorOf v <;> simp

theorem DfsInv.enter {graph : BuildGraph} {s : Dfs} {done : List NodeId} (h : DfsInv graph s done)
    {node : NodeId} (hwhite : s.colorOf node = .white)
    (hedge : ∀ v ∈ s.stack.getLast?, graph.DependsOn v node) : DfsInv graph (s.enter node) done := by
  obtain ⟨hstack, hdone⟩ := (h.white_iff node).mp hwhite
  refine ⟨fun v => ?_, fun v => ?_, ?_, ?_, h.post⟩
  · rw [colorOf_enter]
    split_ifs with hv
    · simp [Dfs.enter, hv]
    · simp [Dfs.enter, h.gray, Ne.symm hv]
  · rw [colorOf_enter]
    split_ifs with hv
    · simpa [← hv] using hdone
    · exact h.black v
  · simp only [Dfs.enter, List.nodup_append, h.nodup, true_and, List.mem_singleton]
    exact ⟨by simp, fun v hv w hw heq => hstack (hw ▸ heq ▸ hv)⟩
  · refine List.isChain_append.mpr ⟨h.path, by simp, fun v hv w hw => ?_⟩
    obtain rfl : node = w := by simpa using hw
    exact hedge v hv

theorem DfsInv.leave {graph : BuildGraph} {s : Dfs} {done : List NodeId} (h : DfsInv graph s done)
    {node : NodeId} {rest : List NodeId} (hstack : s.stack = rest ++ [node])
    (hdone : ∀ w, graph.DependsOn node w → w ∈ done) :
    DfsInv graph (s.leave node) (done ++ [node]) := by
  have hpop : (s.leave node).stack = rest := by
    simp [Dfs.leave, hstack]
  have hnodup := h.nodup
  have hpath := h.path
  rw [hstack] at hnodup hpath
  have hfresh : node ∉ rest := by
    intro hmem
    simpa using (List.nodup_append.mp hnodup).2.2 node hmem node (by simp)
  refine ⟨fun v => ?_, fun v => ?_, ?_, ?_, h.post.snoc hdone⟩
  · rw [colorOf_leave, hpop]
    split_ifs with hv
    · simpa [← hv] using hfresh
    · rw [h.gray, hstack]
      simp [Ne.symm hv]
  · rw [colorOf_leave]
    split_ifs with hv
    · simp [hv]
    · simp [h.black, Ne.symm hv]
  · rw [hpop]
    exact hnodup.of_append_left
  · rw [hpop]
    exact (List.isChain_append.mp hpath).1

/-- The number of white nodes, which bounds the depth of the search. -/
def whites (graph : BuildGraph) (s : Dfs) : Nat :=
  (graph.nodes.keys.toFinset.filter fun v => s.colorOf v = .white).card

theorem whites_enter_lt {graph : BuildGraph} {s : Dfs} {node : NodeId} (hmem : node ∈ graph.nodes)
    (hwhite : s.colorOf node = .white) : graph.whites (s.enter node) < graph.whites s := by
  refine Finset.card_lt_card ⟨fun v hv => ?_, fun hsub => ?_⟩
  · simp only [Finset.mem_filter, colorOf_enter] at hv ⊢
    split_ifs at hv
    · exact absurd hv.2 (by decide)
    · exact hv
  · have hin := hsub (Finset.mem_filter.mpr ⟨by simpa using hmem, hwhite⟩)
    simp [colorOf_enter] at hin

theorem whites_le {graph : BuildGraph} {s s' : Dfs} {done done' : List NodeId}
    (h : DfsInv graph s done) (h' : DfsInv graph s' done') (hstack : s'.stack = s.stack)
    (hdone : done ⊆ done') : graph.whites s' ≤ graph.whites s := by
  refine Finset.card_le_card fun v hv => ?_
  simp only [Finset.mem_filter, h.white_iff, h'.white_iff, hstack] at hv ⊢
  exact ⟨hv.1, hv.2.1, fun hin => hv.2.2 (hdone hin)⟩

/-- A part of the search either comes back with the stack as it was and more black nodes, among them
those of `goal`, or has found a cycle. -/
def SearchOk (graph : BuildGraph) (s : Dfs) (done : List NodeId) (goal : NodeId → Prop) (r : Search) :
    Prop :=
  (∃ s' done', r = some (s', none) ∧ s'.stack = s.stack ∧ DfsInv graph s' done' ∧ done ⊆ done' ∧
    ∀ v, goal v → v ∈ done') ∨ ∃ s' witness, r = some (s', some witness) ∧ witness.Valid graph

theorem visitEdges_spec {graph : BuildGraph} {fuel : Nat} {visit : NodeId → Dfs → Search}
    (hvisit : ∀ node s done, DfsInv graph s done → s.colorOf node = .white → node ∈ graph.nodes →
      (∀ v ∈ s.stack.getLast?, graph.DependsOn v node) → graph.whites s ≤ fuel →
      SearchOk graph s done (· = node) (visit node s))
    {node : NodeId} {entries : List (EdgeId × DependencyEdge)} (hentries : entries ⊆ graph.edges.toList) :
    ∀ (s : Dfs) (done : List NodeId), DfsInv graph s done → s.stack.getLast? = some node →
      graph.whites s ≤ fuel →
      SearchOk graph s done (fun w => ∃ entry ∈ entries, entry.2.fromNode = node ∧ entry.2.toNode = w)
        (graph.visitEdges visit node entries s) := by
  induction entries with
  | nil =>
    intro s done h _ _
    exact .inl ⟨s, done, rfl, rfl, h, fun v hv => hv, by simp⟩
  | cons entry rest ih =>
    intro s done h htop hfuel
    obtain ⟨id, edge⟩ := entry
    have hrest := ih fun e he => hentries (List.mem_cons_of_mem _ he)
    -- the goal of the rest of the loop is enough once `edge.to` is black
    have hgoal {done' : List NodeId} (hto : edge.fromNode = node → edge.toNode ∈ done')
        (hothers : ∀ w, (∃ e ∈ rest, e.2.fromNode = node ∧ e.2.toNode = w) → w ∈ done') :
        ∀ w, (∃ e ∈ (id, edge) :: rest, e.2.fromNode = node ∧ e.2.toNode = w) → w ∈ done' := by
      rintro w ⟨e, he, hfrom, rfl⟩
      rcases List.mem_cons.mp he with rfl | he
      · exact hto hfrom
      · exact hothers _ ⟨e, he, hfrom, rfl⟩
    have hcontinue (s₁ : Dfs) (done₁ : List NodeId) (h₁ : DfsInv graph s₁ done₁)
        (hstack₁ : s₁.stack = s.stack) (hdone₁ : done ⊆ done₁)
        (hto : edge.fromNode = node → edge.toNode ∈ done₁) :
        SearchOk graph s done
          (fun w => ∃ e ∈ (id, edge) :: rest, e.2.fromNode = node ∧ e.2.toNode = w)
          (graph.visitEdges visit node rest s₁) := by
      rcases hrest s₁ done₁ h₁ (by rw [hstack₁, htop]) ((whites_le h h₁ hstack₁ hdone₁).trans hfuel) with
        ⟨s₂, done₂, hrun, hstack₂, h₂, hdone₂, hothers⟩ | hfound
      · exact .inl ⟨s₂, done₂, hrun, hstack₂.trans hstack₁, h₂, fun v hv => hdone₂ (hdone₁ hv),
          hgoal (fun hfrom => hdone₂ (hto hfrom)) hothers⟩
      · exact .inr hfound
    rw [visitEdges]
    by_cases hfrom : edge.fromNode = node
    · rw [if_neg (not_not.mpr hfrom)]
      have hdep : graph.DependsOn node edge.toNode :=
        (graph.dependsOn_iff_mem_toList _ _).mpr ⟨(id, edge), hentries (by simp), hfrom, rfl⟩
      have hlast : ∀ v ∈ s.stack.getLast?, graph.DependsOn v edge.toNode := by
        intro v hv
        obtain rfl : node = v := by simpa [htop] using hv
        exact hdep
      cases hcolor : s.colorOf edge.toNode with
      | white =>
        simp only
        rcases hvisit _ s done h hcolor hdep.mem_nodes.2 hlast hfuel with
          ⟨s₁, done₁, hrun, hstack₁, h₁, hdone₁, hblack⟩ | ⟨s₁, witness, hrun, hvalid⟩
        · rw [hrun]
          exact hcontinue s₁ done₁ h₁ hstack₁ hdone₁ fun _ => hblack _ rfl
        · rw [hrun]
          exact .inr ⟨s₁, witness, rfl, hvalid⟩
      | gray =>
        exact .inr ⟨s, _, rfl, witnessAt_valid h.path h.nodup ((h.gray _).mp hcolor) hlast⟩
      | black =>
        exact hcontinue s done h rfl (fun v hv => hv) fun _ => (h.black _).mp hcolor
    · rw [if_pos hfrom]
      exact hcontinue s done h rfl (fun v hv => hv) fun heq => absurd heq hfrom

theorem visit_spec {graph : BuildGraph} (fuel : Nat) :
    ∀ (node : NodeId) (s : Dfs) (done : List NodeId), DfsInv graph s done → s.colorOf node = .white →
      node ∈ graph.nodes → (∀ v ∈ s.stack.getLast?, graph.DependsOn v node) → graph.whites s ≤ fuel →
      SearchOk graph s done (· = node) (graph.visit fuel node s) := by
  induction fuel with
  | zero =>
    intro node s done h hwhite hmem _ hfuel
    have := whites_enter_lt hmem hwhite
    omega
  | succ fuel ih =>
    intro node s done h hwhite hmem hedge hfuel
    have henter := h.enter hwhite hedge
    have hdepth : graph.whites (s.enter node) ≤ fuel := by
      have := whites_enter_lt hmem hwhite
      omega
    rw [visit]
    have htop : (s.enter node).stack.getLast? = some node := by simp [Dfs.enter]
    rcases visitEdges_spec ih (List.Subset.refl _) (s.enter node) done henter htop hdepth with
      ⟨s₁, done₁, hrun, hstack₁, h₁, hdone₁, hsuccessors⟩ | ⟨s₁, witness, hrun, hvalid⟩
    · rw [hrun]
      refine .inl ⟨s₁.leave node, done₁ ++ [node], rfl, ?_, h₁.leave hstack₁ fun w hw => ?_, ?_, ?_⟩
      · simp [Dfs.leave, hstack₁, Dfs.enter]
      · exact hsuccessors w ((graph.dependsOn_iff_mem_toList _ _).mp hw)
      · exact fun v hv => List.mem_append_left _ (hdone₁ hv)
      · rintro v rfl
        simp
    · rw [hrun]
      exact .inr ⟨s₁, witness, rfl, hvalid⟩

theorem visitNodes_spec {graph : BuildGraph} {fuel : Nat} {nodes : List NodeId}
    (hnodes : nodes ⊆ graph.nodes.keys) :
    ∀ (s : Dfs) (done : List NodeId), DfsInv graph s done → s.stack = [] → graph.whites s ≤ fuel →
      SearchOk graph s done (· ∈ nodes) (graph.visitNodes fuel nodes s) := by
  induction nodes with
  | nil =>
    intro s done h _ _
    exact .inl ⟨s, done, rfl, rfl, h, fun v hv => hv, by simp⟩
  | cons node rest ih =>
    intro s done h hstack hfuel
    have hrest := ih fun v hv => hnodes (List.mem_cons_of_mem _ hv)
    have hcontinue (s₁ : Dfs) (done₁ : List NodeId) (h₁ : DfsInv graph s₁ done₁)
        (hstack₁ : s₁.stack = s.stack) (hdone₁ : done ⊆ done₁) (hnode : node ∈ done₁) :
        SearchOk graph s done (· ∈ node :: rest) (graph.visitNodes fuel rest s₁) := by
      rcases hrest s₁ done₁ h₁ (by rw [hstack₁, hstack])
          ((whites_le h h₁ hstack₁ hdone₁).trans hfuel) with
        ⟨s₂, done₂, hrun, hstack₂, h₂, hdone₂, hall⟩ | hfound
      · refine .inl ⟨s₂, done₂, hrun, hstack₂.trans hstack₁, h₂, fun v hv => hdone₂ (hdone₁ hv), ?_⟩
        intro v hv
        rcases List.mem_cons.mp hv with rfl | hv
        · exact hdone₂ hnode
        · exact hall v hv
      · exact .inr hfound
    rw [visitNodes]
    split_ifs with hwhite
    · have hmem : node ∈ graph.nodes := by simpa using hnodes (List.mem_cons_self ..)
      rcases visit_spec fuel node s done h hwhite hmem (by simp [hstack]) hfuel with
        ⟨s₁, done₁, hrun, hstack₁, h₁, hdone₁, hblack⟩ | ⟨s₁, witness, hrun, hvalid⟩
      · rw [hrun]
        exact hcontinue s₁ done₁ h₁ hstack₁ hdone₁ (hblack _ rfl)
      · rw [hrun]
        exact .inr ⟨s₁, witness, rfl, hvalid⟩
    · refine hcontinue s done h rfl (fun v hv => hv) ?_
      have hgray : s.colorOf node ≠ .gray := by
        rw [Ne, h.gray, hstack]
        simp
      rw [← h.black]
      cases hcolor : s.colorOf node with
      | white => exact absurd hcolor hwhite
      | gray => exact absurd hcolor hgray
      | black => rfl

theorem initialColors_inv (graph : BuildGraph) : DfsInv graph graph.initialColors [] := by
  have hwhite (ids : List NodeId) (color : ExtTreeMap NodeId Color) (v : NodeId)
      (hcolor : color.getD v .white = .white) :
      (ids.foldl (fun color id => color.insert id .white) color).getD v .white = .white := by
    induction ids generalizing color with
    | nil => exact hcolor
    | cons id ids ih =>
      refine ih _ ?_
      rw [ExtTreeMap.getD_insert]
      split_ifs
      · rfl
      · exact hcolor
  have hinit (v : NodeId) : graph.initialColors.colorOf v = .white :=
    hwhite _ _ v (by simp)
  refine ⟨fun v => ?_, fun v => ?_, List.nodup_nil, List.isChain_nil, postOrder_nil⟩
  · rw [hinit]
    simp [initialColors]
  · simp [hinit]

/-- The search does not run out of fuel: it finishes all nodes in post-order or finds a cycle. -/
theorem search_spec (graph : BuildGraph) :
    SearchOk graph graph.initialColors [] (· ∈ graph.nodes.keys) graph.search := by
  refine visitNodes_spec (List.Subset.refl _) _ _ graph.initialColors_inv rfl ?_
  calc graph.whites graph.initialColors ≤ graph.nodes.keys.toFinset.card := Finset.card_filter_le ..
    _ ≤ graph.nodes.keys.length := List.toFinset_card_le _
    _ ≤ graph.nodes.size + 1 := by rw [ExtTreeMap.length_keys]; omega

theorem cycleWitness_cases (graph : BuildGraph) :
    (graph.cycleWitness = none ∧ Acyclic graph.DependsOn) ∨
      ∃ witness, graph.cycleWitness = some witness ∧ witness.Valid graph := by
  rcases graph.search_spec with ⟨s, done, hrun, _, hinv, _, hall⟩ | ⟨s, witness, hrun, hvalid⟩
  · left
    refine ⟨by rw [cycleWitness, hrun]; rfl, hinv.post.acyclic fun v w hvw => hall v ?_⟩
    exact ExtTreeMap.mem_keys.mpr hvw.mem_nodes.1
  · right
    exact ⟨witness, by rw [cycleWitness, hrun]; rfl, hvalid⟩

theorem acyclic_of_cycleWitness_none {graph : BuildGraph} (h : graph.cycleWitness = none) :
    Acyclic graph.DependsOn := by
  rcases graph.cycleWitness_cases with ⟨_, hacyclic⟩ | ⟨witness, hsome, _⟩
  · exact hacyclic
  · rw [h] at hsome
    cases hsome

theorem cycleWitness_eq_none_iff (graph : BuildGraph) :
    graph.cycleWitness = none ↔ Acyclic graph.DependsOn := by
  refine ⟨acyclic_of_cycleWitness_none, fun hacyclic => ?_⟩
  rcases graph.cycleWitness_cases with ⟨hnone, _⟩ | ⟨witness, _, hvalid⟩
  · exact hnone
  · obtain ⟨v, hcycle⟩ := hvalid.transGen
    exact absurd hcycle (hacyclic v)

/-- **Cycle detection is sound and complete**: a witness is returned exactly when there is a cycle,
and it is one. -/
theorem cycleWitness_spec (graph : BuildGraph) :
    (graph.cycleWitness.isSome ↔ ∃ v, Relation.TransGen graph.DependsOn v v) ∧
      ∀ witness, graph.cycleWitness = some witness → witness.Valid graph := by
  rcases graph.cycleWitness_cases with ⟨hnone, hacyclic⟩ | ⟨witness, hsome, hvalid⟩
  · rw [hnone]
    simp only [Option.isSome_none, Bool.false_eq_true, false_iff, not_exists, reduceCtorEq,
      false_implies, implies_true, and_true]
    exact hacyclic
  · rw [hsome]
    refine ⟨⟨fun _ => hvalid.transGen, fun _ => rfl⟩, fun other h => ?_⟩
    cases h
    exact hvalid

end BuildGraph

end Forge
