import Mathlib.Tactic

/-!
# Runs of a deterministic machine

A run is a list of inputs folded into a state. `Admissible ok` is a condition on the steps of a run,
each in the state before it; what every admissible step preserves holds in every state that an
admissible run reaches. The `trace` of a run keeps its inputs with the states before them, and what is
shown of traces and the states behind them from one step to the next holds of every run
(`trace_induction`).

A machine may also refuse inputs, and then its run is one of `foldlM`. What every accepted step keeps holds
behind the run, and a measure that every such step lowers bounds its length (`foldlM_bounded`).
-/

namespace Runs

variable {σ α : Type} {step : σ → α → σ} {ok : σ → α → Prop}

/-- Every input of the run meets `ok` in the state it is applied to. -/
def Admissible (step : σ → α → σ) (ok : σ → α → Prop) : σ → List α → Prop
  | _, [] => True
  | s, a :: as => ok s a ∧ Admissible step ok (step s a) as

instance decidableAdmissible [∀ s a, Decidable (ok s a)] :
    ∀ (s : σ) (as : List α), Decidable (Admissible step ok s as)
  | _, [] => .isTrue trivial
  | s, a :: as =>
    have := decidableAdmissible (step s a) as
    inferInstanceAs (Decidable (ok s a ∧ Admissible step ok (step s a) as))

theorem admissible_append {s : σ} {as bs : List α} :
    Admissible step ok s (as ++ bs) ↔
      Admissible step ok s as ∧ Admissible step ok (as.foldl step s) bs := by
  induction as generalizing s with
  | nil => simp [Admissible]
  | cons a as ih => simp [Admissible, ih, and_assoc]

theorem Admissible.of_append {s : σ} {as bs : List α} (h : Admissible step ok s (as ++ bs)) :
    Admissible step ok s as := (admissible_append.mp h).1

theorem Admissible.imp {ok' : σ → α → Prop} (hok : ∀ s a, ok s a → ok' s a) {s : σ} {as : List α}
    (h : Admissible step ok s as) : Admissible step ok' s as := by
  induction as generalizing s with
  | nil => trivial
  | cons a as ih => exact ⟨hok s a h.1, ih h.2⟩

theorem invariant_of_admissible {Inv : σ → Prop} (hstep : ∀ s a, Inv s → ok s a → Inv (step s a))
    {s : σ} (hs : Inv s) {as : List α} (h : Admissible step ok s as) : Inv (as.foldl step s) := by
  induction as generalizing s with
  | nil => exact hs
  | cons a as ih => exact ih (hstep s a hs h.1) h.2

/-- An invariant of the admissible steps holds in every state of an admissible run. -/
theorem invariant_of_isPrefix {Inv : σ → Prop} (hstep : ∀ s a, Inv s → ok s a → Inv (step s a))
    {s : σ} (hs : Inv s) {reached as : List α} (h : Admissible step ok s as) (hpre : reached <+: as) :
    Inv (reached.foldl step s) := by
  obtain ⟨rest, rfl⟩ := hpre
  exact invariant_of_admissible hstep hs h.of_append

theorem admissible_congr {Inv : σ → Prop} (hstep : ∀ s a, Inv s → Inv (step s a))
    {ok ok' : σ → α → Prop} (hok : ∀ s a, Inv s → (ok s a ↔ ok' s a)) {s : σ} (hs : Inv s)
    (as : List α) : Admissible step ok s as ↔ Admissible step ok' s as := by
  induction as generalizing s with
  | nil => exact Iff.rfl
  | cons a as ih => exact and_congr (hok s a hs) (ih (hstep s a hs))

/-! ## Traces -/

/-- The inputs of a run, each with the state it is applied to. -/
def trace (step : σ → α → σ) : σ → List α → List (σ × α)
  | _, [] => []
  | s, a :: as => (s, a) :: trace step (step s a) as

theorem trace_append (s : σ) (as bs : List α) :
    trace step s (as ++ bs) = trace step s as ++ trace step (as.foldl step s) bs := by
  induction as generalizing s with
  | nil => rfl
  | cons a as ih => exact congrArg ((s, a) :: ·) (ih (step s a))

theorem mem_of_mem_trace {s t : σ} {a : α} {as : List α} (h : (t, a) ∈ trace step s as) : a ∈ as := by
  induction as generalizing s with
  | nil => cases h
  | cons b as ih =>
    rcases List.mem_cons.mp h with heq | h
    · rw [(Prod.mk.inj heq).2]
      exact List.mem_cons_self
    · exact List.mem_cons_of_mem b (ih h)

/-- Induction on a run from its end, with the steps so far and the state behind them. -/
theorem trace_induction {P : List (σ × α) → σ → Prop} {s : σ} (nil : P [] s)
    (snoc : ∀ steps t a, P steps t → P (steps ++ [(t, a)]) (step t a)) (as : List α) :
    P (trace step s as) (as.foldl step s) := by
  induction as using List.reverseRecOn with
  | nil => exact nil
  | append_singleton as a ih =>
    rw [trace_append, List.foldl_append]
    exact snoc _ _ a ih

/-! ## Machines that refuse inputs -/

theorem foldlM_bounded {move : σ → α → Option σ} {Inv : σ → Prop} {measure : σ → Nat}
    (hmove : ∀ s a t, Inv s → move s a = some t → Inv t ∧ measure t < measure s) {as : List α} :
    ∀ {s t : σ}, Inv s → as.foldlM move s = some t → Inv t ∧ as.length + measure t ≤ measure s := by
  induction as with
  | nil =>
    intro s t hs hrun
    obtain rfl : s = t := Option.some.inj hrun
    exact ⟨hs, (Nat.zero_add _).le⟩
  | cons a as ih =>
    intro s t hs hrun
    rw [List.foldlM_cons] at hrun
    obtain ⟨u, hu, hrun⟩ := Option.bind_eq_some_iff.mp hrun
    obtain ⟨hinv, hless⟩ := hmove s a u hs hu
    obtain ⟨ht, hbound⟩ := ih hinv hrun
    refine ⟨ht, ?_⟩
    rw [List.length_cons]
    omega

end Runs
