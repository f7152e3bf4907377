import Mathlib.Tactic

/-!
# Folds with reversible steps

A left fold whose step is injective in the state never merges two runs again, and if the step is
also injective in the letter then two lists that differ in one letter end in different states,
whatever follows. This is all a checksum register needs to notice a single changed byte.
-/

namespace FoldInjective

variable {σ α : Type} {step : σ → α → σ}

theorem foldl_injective (hstate : ∀ a, Function.Injective fun s => step s a) (l : List α) :
    Function.Injective fun s => l.foldl step s := by
  induction l with
  | nil => exact Function.injective_id
  | cons a l ih => exact fun s t h => hstate a (ih h)

/-- A changed window changes the final state, whatever stands before and after it, if it does so on its
own. -/
theorem foldl_ne_of_window (hstate : ∀ a, Function.Injective fun s => step s a) (s : σ)
    (pre post : List α) {window window' : List α}
    (hwindow : ∀ s, window.foldl step s ≠ window'.foldl step s) :
    (pre ++ (window ++ post)).foldl step s ≠ (pre ++ (window' ++ post)).foldl step s := by
  intro h
  simp only [List.foldl_append] at h
  exact hwindow _ (foldl_injective hstate post h)

theorem foldl_ne_of_one_change (hstate : ∀ a, Function.Injective fun s => step s a)
    (hletter : ∀ s, Function.Injective (step s)) (s : σ) (pre post : List α) {a b : α}
    (hne : a ≠ b) : (pre ++ a :: post).foldl step s ≠ (pre ++ b :: post).foldl step s := by
  have hwindow : ∀ s, [a].foldl step s ≠ [b].foldl step s := fun s heq => hne (hletter s heq)
  exact foldl_ne_of_window hstate s pre post hwindow

end FoldInjective
