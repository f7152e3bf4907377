import Mathlib.Tactic

/-!
# Little-endian numbers

`bytes w n` is the `w` least significant bytes of `n`, least significant first, and `value` reads
such a list back. Fixed-width writers and readers are loops over byte positions; `bytes_eq_map` is
the writer's loop and `value_map_succ` one turn of the reader's.
-/

namespace LittleEndian

/-- The `w` least significant bytes of `n`, least significant first. -/
def bytes : Nat → Nat → List UInt8
  | 0, _ => []
  | w + 1, n => UInt8.ofNat n :: bytes w (n / 256)

/-- The number with the given little-endian bytes. -/
def value : List UInt8 → Nat
  | [] => 0
  | b :: bs => b.toNat + 256 * value bs

@[simp] theorem length_bytes (w n : Nat) : (bytes w n).length = w := by
  induction w generalizing n with
  | zero => rfl
  | succ w ih => simp [bytes, ih]

theorem bytes_eq_map (w n : Nat) :
    bytes w n = (List.range w).map fun i => UInt8.ofNat (n / 256 ^ i) := by
  induction w generalizing n with
  | zero => rfl
  | succ w ih =>
    rw [bytes, ih, List.range_succ_eq_map, List.map_cons, List.map_map]
    congr 1
    · simp
    · apply List.map_congr_left
      intro i _
      simp only [Function.comp_apply, Nat.div_div_eq_div_mul, pow_succ']

theorem value_bytes (w n : Nat) : value (bytes w n) = n % 256 ^ w := by
  induction w generalizing n with
  | zero => simp [bytes, value, Nat.mod_one]
  | succ w ih =>
    rw [bytes, value, ih, pow_succ', Nat.mod_mul]
    simp

theorem value_lt (bs : List UInt8) : value bs < 256 ^ bs.length := by
  induction bs with
  | nil => simp [value]
  | cons b bs ih =>
    have hb : b.toNat < 256 := b.toNat_lt
    rw [value, List.length_cons, pow_succ']
    omega

theorem bytes_value (bs : List UInt8) : bytes bs.length (value bs) = bs := by
  induction bs with
  | nil => rfl
  | cons b bs ih =>
    have hb : b.toNat < 256 := b.toNat_lt
    have hdiv : (b.toNat + 256 * value bs) / 256 = value bs := by omega
    rw [List.length_cons, bytes, value, hdiv, ih]
    congr 1
    apply UInt8.toNat_inj.mp
    simp only [UInt8.toNat_ofNat']
    omega

theorem value_inj {xs ys : List UInt8} (hlen : xs.length = ys.length) (h : value xs = value ys) :
    xs = ys := by
  rw [← bytes_value xs, ← bytes_value ys, hlen, h]

theorem value_append (xs ys : List UInt8) :
    value (xs ++ ys) = value xs + 256 ^ xs.length * value ys := by
  induction xs with
  | nil => simp [value]
  | cons b xs ih =>
    rw [List.cons_append, value, value, ih, List.length_cons, pow_succ']
    ring

theorem value_map_succ (b : Nat → UInt8) (n : Nat) :
    value ((List.range (n + 1)).map b) =
      value ((List.range n).map b) ||| (b n).toNat <<< (8 * n) := by
  have hlt : value ((List.range n).map b) < 2 ^ (8 * n) := by
    have h := value_lt ((List.range n).map b)
    rwa [List.length_map, List.length_range, show (256 : Nat) = 2 ^ 8 from rfl, ← pow_mul] at h
  rw [List.range_succ, List.map_append, value_append, Nat.or_comm,
    ← Nat.shiftLeft_add_eq_or_of_lt hlt, Nat.shiftLeft_eq]
  simp only [List.map_cons, List.map_nil, value, List.length_map, List.length_range]
  rw [show (256 : Nat) = 2 ^ 8 from rfl, ← pow_mul]
  ring

end LittleEndian
