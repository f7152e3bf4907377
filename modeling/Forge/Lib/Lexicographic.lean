import Mathlib.Tactic

/-!
# Lexicographic orders

Lists compare letter by letter. How two lists compare is not changed by a map of their letters that keeps
the order, nor by writing every letter out as a block of one width; numbers written with the same number
of `digits` compare as the numbers do.
-/

namespace Lexicographic

variable {α β : Type} [Ord α] [Ord β]

/-! ## Blocks -/

theorem compare_append {as bs : List α} (hlen : as.length = bs.length) (as' bs' : List α) :
    compare (as ++ as') (bs ++ bs') = (compare as bs).then (compare as' bs') := by
  induction as generalizing bs with
  | nil => rw [List.eq_nil_of_length_eq_zero hlen.symm]; rfl
  | cons a as ih =>
    obtain ⟨b, bs, rfl⟩ := List.exists_cons_of_length_eq_add_one hlen.symm
    rw [List.cons_append, List.cons_append, List.compare_cons_cons, List.compare_cons_cons,
      ih (Nat.succ.inj hlen), Ordering.then_assoc]

theorem compare_flatMap {block : α → List β} {width : Nat} (hwidth : ∀ a, (block a).length = width)
    (hblock : ∀ a b, compare (block a) (block b) = compare a b) {as bs : List α}
    (hlen : as.length = bs.length) : compare (as.flatMap block) (bs.flatMap block) = compare as bs := by
  induction as generalizing bs with
  | nil => rw [List.eq_nil_of_length_eq_zero hlen.symm]; rfl
  | cons a as ih =>
    obtain ⟨b, bs, rfl⟩ := List.exists_cons_of_length_eq_add_one hlen.symm
    rw [List.flatMap_cons, List.flatMap_cons, compare_append (by rw [hwidth, hwidth]), hblock,
      ih (Nat.succ.inj hlen), List.compare_cons_cons]

theorem compare_map {f : α → β} {as bs : List α}
    (hf : ∀ a ∈ as, ∀ b ∈ bs, compare (f a) (f b) = compare a b) :
    compare (as.map f) (bs.map f) = compare as bs := by
  induction as generalizing bs with
  | nil => cases bs <;> rfl
  | cons a as ih =>
    cases bs with
    | nil => rfl
    | cons b bs =>
      have hrest := ih fun a' ha' b' hb' =>
        hf a' (List.mem_cons_of_mem a ha') b' (List.mem_cons_of_mem b hb')
      rw [List.map_cons, List.map_cons, List.compare_cons_cons, List.compare_cons_cons, hrest,
        hf a List.mem_cons_self b List.mem_cons_self]

/-! ## Numbers of a fixed width -/

/-- The last `n` digits of a number, the most significant one first. -/
def digits (base n x : Nat) : List Nat := (List.range n).map fun i => x / base ^ (n - 1 - i) % base

@[simp] theorem length_digits (base n x : Nat) : (digits base n x).length = n := by simp [digits]

theorem lt_of_mem_digits {base n x digit : Nat} (hbase : 0 < base) (h : digit ∈ digits base n x) :
    digit < base := by
  obtain ⟨i, -, rfl⟩ := List.mem_map.mp h
  exact Nat.mod_lt _ hbase

theorem digits_succ (base n x : Nat) :
    digits base (n + 1) x = digits base n (x / base) ++ [x % base] := by
  rw [digits, List.range_succ, List.map_append, digits]
  congr 1
  · apply List.map_congr_left
    intro i hi
    rw [List.mem_range] at hi
    rw [Nat.div_div_eq_div_mul, ← pow_succ', show n + 1 - 1 - i = n - 1 - i + 1 by omega]
  · simp

theorem compare_div_mod (base x y : Nat) :
    (compare (x / base) (y / base)).then (compare (x % base) (y % base)) = compare x y := by
  rcases Nat.lt_trichotomy (x / base) (y / base) with hlt | heq | hgt
  · rw [Nat.compare_eq_lt.mpr hlt, Nat.compare_eq_lt.mpr (Nat.lt_of_div_lt_div hlt)]
    rfl
  · have hx := Nat.div_add_mod x base
    have hy := Nat.div_add_mod y base
    rw [heq] at hx
    have hlt : x % base < y % base ↔ x < y := by omega
    have hgt : y % base < x % base ↔ y < x := by omega
    rw [Nat.compare_eq_eq.mpr heq, Ordering.eq_then, Nat.compare_eq_ite_lt, Nat.compare_eq_ite_lt]
    simp only [hlt, hgt]
  · rw [Nat.compare_eq_gt.mpr hgt, Nat.compare_eq_gt.mpr (Nat.lt_of_div_lt_div hgt)]
    rfl

theorem compare_digits (base n : Nat) {x y : Nat} (hx : x < base ^ n) (hy : y < base ^ n) :
    compare (digits base n x) (digits base n y) = compare x y := by
  induction n generalizing x y with
  | zero =>
    rw [pow_zero, Nat.lt_one_iff] at hx hy
    rw [hx, hy]
    rfl
  | succ n ih =>
    rw [pow_succ] at hx hy
    rw [digits_succ, digits_succ, compare_append (by simp), ih (Nat.div_lt_of_lt_mul (by rwa [mul_comm]))
      (Nat.div_lt_of_lt_mul (by rwa [mul_comm])), ← compare_div_mod base x y]
    simp

end Lexicographic
