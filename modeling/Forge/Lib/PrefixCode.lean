import Mathlib.Tactic

/-!
# Codes whose words show where they end

A code separates if its words can be read off the front of a text in one way only. Length-prefixed
lists do, and pairs of such words. Texts of several words separate only as far as they go: two texts
with anything behind them are the same exactly when one goes on with words where the other one stops
(`flatMap_append_eq_iff`).
-/

/-- A code that separates the values it is `ok` for. -/
structure PrefixCode (α β : Type) where
  encode : α → List β
  ok : α → Prop
  separates : ∀ {a b : α} {x y : List β}, ok a → ok b → encode a ++ x = encode b ++ y → a = b ∧ x = y

namespace PrefixCode

variable {α β γ : Type}

/-! ## Codes -/

/-- A list behind its length. -/
def lengthPrefixed (header : Nat → List β) (width bound : Nat) (hlength : ∀ n, (header n).length = width)
    (hinjective : ∀ m < bound, ∀ n < bound, header m = header n → m = n) : PrefixCode (List β) β where
  encode l := header l.length ++ l
  ok l := l.length < bound
  separates {a b x y} ha hb h := by
    rw [List.append_assoc, List.append_assoc] at h
    obtain ⟨hheader, hrest⟩ := List.append_inj h (by rw [hlength, hlength])
    exact List.append_inj hrest (hinjective _ ha _ hb hheader)

/-- One word behind the other. -/
def pair (p : PrefixCode α γ) (q : PrefixCode β γ) : PrefixCode (α × β) γ where
  encode a := p.encode a.1 ++ q.encode a.2
  ok a := p.ok a.1 ∧ q.ok a.2
  separates {a b x y} ha hb h := by
    rw [List.append_assoc, List.append_assoc] at h
    obtain ⟨hfirst, hrest⟩ := p.separates ha.1 hb.1 h
    obtain ⟨hsecond, htail⟩ := q.separates ha.2 hb.2 hrest
    exact ⟨Prod.ext hfirst hsecond, htail⟩

/-! ## Texts -/

variable (p : PrefixCode α β)

/-- **Texts with something behind them** are the same exactly when one goes on with words where the
other stops. -/
theorem flatMap_append_eq_iff {l m : List α} (hl : ∀ a ∈ l, p.ok a) (hm : ∀ a ∈ m, p.ok a)
    {x y : List β} :
    l.flatMap p.encode ++ x = m.flatMap p.encode ++ y ↔
      (∃ extra, m = l ++ extra ∧ x = extra.flatMap p.encode ++ y) ∨
        ∃ extra, l = m ++ extra ∧ y = extra.flatMap p.encode ++ x := by
  constructor
  · intro h
    induction l generalizing m with
    | nil => exact .inl ⟨m, rfl, by simpa using h⟩
    | cons a l ih =>
      cases m with
      | nil => exact .inr ⟨a :: l, rfl, by simpa using h.symm⟩
      | cons b m =>
        rw [List.flatMap_cons, List.flatMap_cons, List.append_assoc, List.append_assoc] at h
        obtain ⟨rfl, hrest⟩ := p.separates (hl a List.mem_cons_self) (hm b List.mem_cons_self) h
        rcases ih (fun c hc => hl c (List.mem_cons_of_mem _ hc))
          (fun c hc => hm c (List.mem_cons_of_mem _ hc)) hrest with
          ⟨extra, rfl, hx⟩ | ⟨extra, rfl, hy⟩
        · exact .inl ⟨extra, rfl, hx⟩
        · exact .inr ⟨extra, rfl, hy⟩
  · rintro (⟨extra, rfl, rfl⟩ | ⟨extra, rfl, rfl⟩)
    · rw [List.flatMap_append, List.append_assoc]
    · rw [List.flatMap_append, List.append_assoc]

/-! ## Texts of fixed-width words -/

theorem length_flatMap {encode : α → List β} {width : Nat} (hlength : ∀ a, (encode a).length = width)
    (l : List α) : (l.flatMap encode).length = width * l.length := by
  induction l with
  | nil => rfl
  | cons a l ih =>
    rw [List.flatMap_cons, List.length_append, hlength, ih, List.length_cons, Nat.mul_succ, Nat.add_comm]

theorem flatMap_injective {encode : α → List β} {width : Nat} (hwidth : 0 < width)
    (hlength : ∀ a, (encode a).length = width) (hinjective : Function.Injective encode) :
    Function.Injective fun l : List α => l.flatMap encode := by
  intro l m h
  induction l generalizing m with
  | nil =>
    have hzero := congrArg List.length h
    simp only [length_flatMap hlength, List.length_nil, Nat.mul_zero] at hzero
    exact (List.eq_nil_of_length_eq_zero
      ((Nat.mul_eq_zero.mp hzero.symm).resolve_left (Nat.ne_of_gt hwidth))).symm
  | cons a l ih =>
    cases m with
    | nil =>
      have hzero := congrArg List.length h
      simp only [length_flatMap hlength, List.length_nil, Nat.mul_zero, List.length_cons,
        Nat.mul_succ] at hzero
      omega
    | cons b m =>
      obtain ⟨hword, hrest⟩ := List.append_inj h (by rw [hlength, hlength])
      rw [hinjective hword, ih hrest]

/-- What stands before the words of `m` in the text of `l` is a text itself. -/
theorem flatMap_eq_append_iff {encode : α → List β} {width : Nat} (hwidth : 0 < width)
    (hlength : ∀ a, (encode a).length = width) (hinjective : Function.Injective encode)
    {l m : List α} {x : List β} :
    l.flatMap encode = x ++ m.flatMap encode ↔
      ∃ spelled, l = spelled ++ m ∧ spelled.flatMap encode = x := by
  constructor
  · intro h
    have hsizes := congrArg List.length h
    rw [List.length_append, length_flatMap hlength, length_flatMap hlength] at hsizes
    have hle : m.length ≤ l.length := Nat.le_of_mul_le_mul_left (by omega) hwidth
    have hcut : (l.take (l.length - m.length)).flatMap encode ++
        (l.drop (l.length - m.length)).flatMap encode = x ++ m.flatMap encode := by
      rw [← List.flatMap_append, List.take_append_drop, h]
    obtain ⟨hspelled, hrest⟩ := List.append_inj' hcut (by
      rw [length_flatMap hlength, length_flatMap hlength, List.length_drop]
      congr 1
      omega)
    have hwords := flatMap_injective hwidth hlength hinjective hrest
    have hsplit := (List.take_append_drop (l.length - m.length) l).symm
    rw [hwords] at hsplit
    exact ⟨l.take (l.length - m.length), hsplit, hspelled⟩
  · rintro ⟨spelled, rfl, rfl⟩
    exact List.flatMap_append

end PrefixCode
