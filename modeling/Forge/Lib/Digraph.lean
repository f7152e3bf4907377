import Mathlib.Tactic
import Mathlib.Logic.Relation

/-!
# Searches on directed graphs

The order in which a depth-first search finishes the vertices of a graph without back edges is a
`PostOrder`: every vertex stands behind all its successors. No vertex of such a list lies on a cycle,
so a search that finishes every vertex with an edge proves that there is none (`PostOrder.acyclic`);
a search that meets a vertex of its own path has found one (`transGen_of_isChain`). A `ClosureOrder` lists
what some seeds reach in such an order; between graphs of the same shape it can be renamed
(`SameShape.closureOrder`). One more edge changes what is reached by the paths through it (`AddsEdge`).

A search without an order keeps the vertices it has reached and a list of those whose successors it has not
looked at yet (`Worklist`). When that list is empty, what it has reached is exactly what the seeds
reach.
-/

namespace Digraph

open Relation

variable {V : Type} {R : V → V → Prop}

def Acyclic (R : V → V → Prop) : Prop := ∀ v, ¬ TransGen R v v

/-- Every vertex of the list stands behind all its successors. -/
def PostOrder (R : V → V → Prop) (l : List V) : Prop :=
  ∀ before v after, l = before ++ v :: after → ∀ w, R v w → w ∈ before

theorem postOrder_nil : PostOrder R [] := by
  intro before v after h
  simp at h

theorem PostOrder.snoc {l : List V} {v : V} (h : PostOrder R l) (hv : ∀ w, R v w → w ∈ l) :
    PostOrder R (l ++ [v]) := by
  intro before u after hsplit w huw
  rcases List.eq_nil_or_concat after with rfl | ⟨after, last, rfl⟩
  · obtain ⟨rfl, hlast⟩ := List.append_inj' hsplit rfl
    obtain rfl : v = u := by simpa using hlast
    exact hv w huw
  · have hinit : l ++ [v] = (before ++ u :: after) ++ [last] := by simpa using hsplit
    obtain ⟨rfl, -⟩ := List.append_inj' hinit rfl
    exact h before u after rfl w huw

theorem PostOrder.mem_of_rel {l : List V} (h : PostOrder R l) {v w : V} (hv : v ∈ l) (hvw : R v w) :
    w ∈ l := by
  obtain ⟨before, after, rfl⟩ := List.append_of_mem hv
  exact List.mem_append_left _ (h before v after rfl w hvw)

theorem PostOrder.idxOf_lt [DecidableEq V] {l : List V} (h : PostOrder R l) {v w : V} (hv : v ∈ l)
    (hvw : R v w) : l.idxOf w < l.idxOf v := by
  have hlt := List.idxOf_lt_length_of_mem hv
  have hsplit : l = l.take (l.idxOf v) ++ v :: l.drop (l.idxOf v + 1) := by
    conv_lhs => rw [← List.take_append_drop (l.idxOf v) l, List.drop_eq_getElem_cons hlt,
      List.getElem_idxOf hlt]
  have hw := h _ v _ hsplit w hvw
  have hidx := List.idxOf_lt_length_of_mem hw
  rw [List.length_take_of_le hlt.le] at hidx
  conv_lhs => rw [hsplit, List.idxOf_append_of_mem hw]
  exact hidx

/-- A vertex of a post-order list lies on no cycle. -/
theorem PostOrder.not_transGen {l : List V} (h : PostOrder R l) {v : V} (hv : v ∈ l) :
    ¬ TransGen R v v := by
  classical
  have hdown : ∀ w, TransGen R v w → w ∈ l ∧ l.idxOf w < l.idxOf v := by
    intro w hvw
    induction hvw with
    | single hvw => exact ⟨h.mem_of_rel hv hvw, h.idxOf_lt hv hvw⟩
    | tail _ hwu ih => exact ⟨h.mem_of_rel ih.1 hwu, (h.idxOf_lt ih.1 hwu).trans ih.2⟩
  intro hcycle
  exact lt_irrefl _ (hdown v hcycle).2

theorem PostOrder.acyclic {l : List V} (h : PostOrder R l) (hall : ∀ v w, R v w → v ∈ l) :
    Acyclic R := by
  intro v hcycle
  obtain ⟨w, hvw, _⟩ := TransGen.head'_iff.mp hcycle
  exact h.not_transGen (hall v w hvw) hcycle

theorem transGen_of_isChain {l : List V} {v w : V} (h : List.IsChain R (v :: (l ++ [w]))) :
    TransGen R v w := by
  induction l generalizing v with
  | nil =>
    rw [List.nil_append, List.isChain_cons_cons] at h
    exact .single h.1
  | cons u l ih =>
    rw [List.cons_append, List.isChain_cons_cons] at h
    exact .head h.1 (ih h.2)

/-! ## One more edge -/

section AddsEdge

variable {S : V → V → Prop} {a b : V}

/-- `S` has the edges of `R` and one from `a` to `b`. -/
def AddsEdge (R S : V → V → Prop) (a b : V) : Prop := ∀ v w, S v w ↔ R v w ∨ v = a ∧ w = b

theorem AddsEdge.lift (h : AddsEdge R S a b) {v w : V} (hreach : ReflTransGen R v w) : ReflTransGen S v w :=
  ReflTransGen.mono (fun v w hedge => (h v w).mpr (.inl hedge)) _ _ hreach

theorem AddsEdge.reaches_iff (h : AddsEdge R S a b) (v w : V) :
    ReflTransGen S v w ↔ ReflTransGen R v w ∨ ReflTransGen R v a ∧ ReflTransGen R b w := by
  -- a path that takes the new edge twice has a shorter way between the two
  constructor
  · intro hreach
    induction hreach with
    | refl => exact .inl .refl
    | tail _ hedge ih =>
      rcases (h _ _).mp hedge with hold | ⟨rfl, rfl⟩
      · exact ih.imp (fun hvu => hvu.tail hold) fun ⟨hva, hbu⟩ => ⟨hva, hbu.tail hold⟩
      · exact .inr ⟨ih.elim id And.left, .refl⟩
  · rintro (hreach | ⟨hva, hbw⟩)
    · exact h.lift hreach
    · exact ((h.lift hva).tail ((h a b).mpr (.inr ⟨rfl, rfl⟩))).trans (h.lift hbw)

/-- It closes a cycle exactly if its end reaches its start. -/
theorem AddsEdge.acyclic_iff (h : AddsEdge R S a b) : Acyclic S ↔ Acyclic R ∧ ¬ ReflTransGen R b a := by
  constructor
  · refine fun hacyclic => ⟨fun v hcycle => hacyclic v ?_, fun hback => hacyclic a ?_⟩
    · exact TransGen.mono (fun v w hvw => (h v w).mpr (.inl hvw)) _ _ hcycle
    · exact TransGen.head' ((h a b).mpr (.inr ⟨rfl, rfl⟩)) (h.lift hback)
  · rintro ⟨hacyclic, hback⟩ v hcycle
    obtain ⟨w, hvw, hwv⟩ := TransGen.head'_iff.mp hcycle
    rcases (h v w).mp hvw with hold | ⟨rfl, rfl⟩
    · rcases (h.reaches_iff w v).mp hwv with hreach | ⟨hwa, hbv⟩
      · exact hacyclic v (TransGen.head' hold hreach)
      · exact hback ((hbv.tail hold).trans hwa)
    · exact hback (((h.reaches_iff w v).mp hwv).elim id And.left)

end AddsEdge

/-- Where two graphs have the same edges from the vertices of a set that is not left, they reach the same
from there. -/
theorem reaches_congr {S : V → V → Prop} {C : Set V} (hclosed : ∀ v ∈ C, ∀ w, R v w → w ∈ C)
    (hagree : ∀ v ∈ C, ∀ w, S v w ↔ R v w) {v : V} (hv : v ∈ C) (w : V) :
    ReflTransGen S v w ↔ ReflTransGen R v w := by
  have hstay : ∀ w, ReflTransGen R v w → w ∈ C := by
    intro w hreach
    induction hreach with
    | refl => exact hv
    | tail _ hedge ih => exact hclosed _ ih _ hedge
  constructor
  · intro hreach
    induction hreach with
    | refl => exact .refl
    | tail _ hedge ih => exact ih.tail ((hagree _ (hstay _ ih) _).mp hedge)
  · intro hreach
    induction hreach with
    | refl => exact .refl
    | tail hreach hedge ih => exact ih.tail ((hagree _ (hstay _ hreach) _).mpr hedge)

/-! ## Renamed graphs -/

/-- A list of what the seeds reach, each vertex once and behind its successors. -/
structure ClosureOrder (R : V → V → Prop) (seeds l : List V) : Prop where
  nodup : l.Nodup
  mem_iff : ∀ v, v ∈ l ↔ ∃ s ∈ seeds, ReflTransGen R s v
  sorted : PostOrder R l

/-- `f` and `g` rename the vertices `P` of one graph and `Q` of another into each other. -/
structure SameShape {W : Type} (R : V → V → Prop) (S : W → W → Prop) (f : V → W) (g : W → V) (P : Set V)
    (Q : Set W) : Prop where
  map_rel : ∀ v w, R v w → S (f v) (f w)
  comap_rel : ∀ a b, S a b → R (g a) (g b)
  left_inv : ∀ v ∈ P, g (f v) = v
  right_inv : ∀ a ∈ Q, f (g a) = a
  maps : ∀ v ∈ P, f v ∈ Q
  closed : ∀ v w, R v w → w ∈ P

namespace SameShape

variable {W : Type} {S : W → W → Prop} {f : V → W} {g : W → V} {P : Set V} {Q : Set W}

theorem acyclic_iff (h : SameShape R S f g P Q) : Acyclic R ↔ Acyclic S :=
  ⟨fun hacyclic a hcycle => hacyclic (g a) (hcycle.lift g h.comap_rel),
    fun hacyclic v hcycle => hacyclic (f v) (hcycle.lift f h.map_rel)⟩

theorem mem_of_reaches (h : SameShape R S f g P Q) {v w : V} (hv : v ∈ P) (hreach : ReflTransGen R v w) :
    w ∈ P := by
  rcases hreach.cases_tail with rfl | ⟨u, _, hedge⟩
  · exact hv
  · exact h.closed u w hedge

theorem reaches_iff (h : SameShape R S f g P Q) (hclosed : ∀ a b, S a b → b ∈ Q) {v : V} (hv : v ∈ P)
    (a : W) : ReflTransGen S (f v) a ↔ ∃ w, ReflTransGen R v w ∧ f w = a := by
  constructor
  · intro hreach
    have ha : a ∈ Q := by
      rcases hreach.cases_tail with hsame | ⟨b, _, hedge⟩
      · exact hsame ▸ h.maps v hv
      · exact hclosed b a hedge
    have hback : ReflTransGen R (g (f v)) (g a) := hreach.lift g h.comap_rel
    rw [h.left_inv v hv] at hback
    exact ⟨g a, hback, h.right_inv a ha⟩
  · rintro ⟨w, hreach, rfl⟩
    exact hreach.lift f h.map_rel

theorem closureOrder (h : SameShape R S f g P Q) (hclosed : ∀ a b, S a b → b ∈ Q) {seeds l : List V}
    (hseeds : ∀ s ∈ seeds, s ∈ P) (horder : ClosureOrder R seeds l) :
    ClosureOrder S (seeds.map f) (l.map f) := by
  have hl : ∀ v ∈ l, v ∈ P := by
    intro v hv
    obtain ⟨s, hs, hreach⟩ := (horder.mem_iff v).mp hv
    exact h.mem_of_reaches (hseeds s hs) hreach
  refine ⟨horder.nodup.map_on fun v hv w hw hsame => ?_, fun a => ⟨fun ha => ?_, ?_⟩, ?_⟩
  · rw [← h.left_inv v (hl v hv), hsame, h.left_inv w (hl w hw)]
  · obtain ⟨v, hv, rfl⟩ := List.mem_map.mp ha
    obtain ⟨s, hs, hreach⟩ := (horder.mem_iff v).mp hv
    exact ⟨f s, List.mem_map_of_mem hs, hreach.lift f h.map_rel⟩
  · rintro ⟨b, hb, hreach⟩
    obtain ⟨s, hs, rfl⟩ := List.mem_map.mp hb
    obtain ⟨w, hw, rfl⟩ := (h.reaches_iff hclosed (hseeds s hs) a).mp hreach
    exact List.mem_map_of_mem ((horder.mem_iff w).mpr ⟨s, hs, hw⟩)
  · intro before a after hsplit b hab
    obtain ⟨before', behind, hl', rfl, hbehind⟩ := List.map_eq_append_iff.mp hsplit
    obtain ⟨v, after', rfl, rfl, -⟩ := List.map_eq_cons_iff.mp hbehind
    have hback := h.comap_rel _ _ hab
    rw [h.left_inv v (hl v (by simp [hl']))] at hback
    have hmem := horder.sorted before' v after' hl' (g b) hback
    rw [← h.right_inv b (hclosed _ _ hab)]
    exact List.mem_map_of_mem hmem

end SameShape

/-! ## Worklists -/

/-- What has been reached is reached from the seeds, and what is not on the list any more has all its
successors among it. -/
structure Worklist (R : V → V → Prop) (seeds reached : Set V) (work : List V) : Prop where
  seeds_subset : seeds ⊆ reached
  sound : ∀ v ∈ reached, ∃ s ∈ seeds, ReflTransGen R s v
  work_subset : ∀ v ∈ work, v ∈ reached
  closed : ∀ v ∈ reached, v ∉ work → ∀ w, R v w → w ∈ reached

theorem Worklist.init {seeds : Set V} {work : List V} (hwork : ∀ v, v ∈ work ↔ v ∈ seeds) :
    Worklist R seeds seeds work :=
  ⟨subset_rfl, fun v hv => ⟨v, hv, .refl⟩, fun v hv => (hwork v).mp hv,
    fun v hv hout => absurd ((hwork v).mpr hv) hout⟩

theorem Worklist.next {seeds reached reached' : Set V} {work work' : List V} {node : V}
    (h : Worklist R seeds reached work) (hnode : node ∈ work) (hgrow : reached ⊆ reached')
    (hnew : ∀ v ∈ reached', v ∈ reached ∨ R node v) (hall : ∀ v, R node v → v ∈ reached')
    (hwork : ∀ v ∈ work', v ∈ reached')
    (hleft : ∀ v ∈ reached', v ∉ work' → v = node ∨ v ∈ reached ∧ v ∉ work) :
    Worklist R seeds reached' work' := by
  refine ⟨h.seeds_subset.trans hgrow, fun v hv => ?_, hwork, fun v hv hout w hvw => ?_⟩
  · rcases hnew v hv with hold | hedge
    · exact h.sound v hold
    · obtain ⟨s, hs, hreach⟩ := h.sound node (h.work_subset node hnode)
      exact ⟨s, hs, hreach.tail hedge⟩
  · rcases hleft v hv hout with rfl | ⟨hold, hdone⟩
    · exact hall w hvw
    · exact hgrow (h.closed v hold hdone w hvw)

theorem Worklist.mem_iff {seeds reached : Set V} (h : Worklist R seeds reached []) (v : V) :
    v ∈ reached ↔ ∃ s ∈ seeds, ReflTransGen R s v := by
  refine ⟨h.sound v, ?_⟩
  rintro ⟨s, hs, hreach⟩
  induction hreach with
  | refl => exact h.seeds_subset hs
  | tail _ hedge ih => exact h.closed _ ih List.not_mem_nil _ hedge

end Digraph
