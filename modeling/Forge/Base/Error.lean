import Mathlib.Tactic

/-!
# Errors, results and limits

`Status`, `Result` and `Limits` of `error.hpp`, and the overflow-checked addition. A `Result<T>`
holds either a value or a failed status, so it is `Except Status T`.
-/

namespace Forge

abbrev Byte := UInt8
abbrev Bytes := List Byte

/-- A `std::string`: arbitrary bytes, ordered as unsigned bytes. -/
abbrev Str := List Byte

/-- The bytes of a literal of the source. -/
def Str.ofLiteral (s : String) : Str := s.toUTF8.data.toList

instance : Coe String Str := ⟨Str.ofLiteral⟩

-- Strings key the maps of every component; their orders and equalities get a name once.
instance : LawfulBEq Str := inferInstance
instance : Std.TransOrd Str := inferInstance
instance : Std.LawfulEqOrd Str := inferInstance

inductive ErrorCode
  | ok | usage | protocol | format | graphConflict | cycle | path | inputUnstable | executor
  | artifact | stateRecovery | resourceLimit | backpressure | cancelled | io | internalInvariant
deriving DecidableEq, Repr

structure Status where
  code : ErrorCode := .ok
  component : Str := []
  message : Str := []
  generation : UInt64 := 0
  id : UInt64 := 0
  offset : Nat := 0
deriving DecidableEq, Repr

def Status.ok (status : Status) : Bool := status.code = .ok

def Status.success : Status := {}

def Status.error (code : ErrorCode) (component message : Str) : Status :=
  { code, component, message }

abbrev Result (T : Type) := Except Status T

/-- How a call of type `Result<T>` ends that uses a throwing form of a library function. -/
inductive Return (T : Type)
  | value (result : Result T)
  | threw
deriving DecidableEq

def Return.map {T U : Type} (f : T → U) : Return T → Return U
  | .value result => .value (result.map f)
  | .threw => .threw

/-- The limits the modelled code reads. -/
structure Limits where
  maxFrameBytes : UInt32 := 16 * 1024 * 1024
  maxPayloadBytes : UInt32 := 16 * 1024 * 1024
  maxStreams : UInt32 := 1024
  maxSingleAllocation : UInt32 := 32 * 1024 * 1024
deriving DecidableEq, Repr

/-- `checked_add` at `uint64_t`, the only type it is used at. -/
def checkedAdd (left right : UInt64) (component : Str) : Result UInt64 :=
  if right > 0 ∧ left > 0xffffffffffffffff - right then
    .error (Status.error .resourceLimit component "integer addition overflow")
  else
    .ok (left + right)

theorem checkedAdd_of_lt {left right : UInt64} (component : Str) (h : left.toNat + right.toNat < 2 ^ 64) :
    checkedAdd left right component = .ok (left + right) := by
  rw [checkedAdd, if_neg]
  rintro ⟨-, hover⟩
  have hroom := UInt64.lt_iff_toNat_lt.mp hover
  have hright := right.toNat_lt
  have hle : right ≤ 0xffffffffffffffff := UInt64.le_iff_toNat_le.mpr (by simp; omega)
  rw [UInt64.toNat_sub_of_le _ _ hle] at hroom
  simp at hroom
  omega

theorem toNat_of_checkedAdd {left right sum : UInt64} {component : Str}
    (h : checkedAdd left right component = .ok sum) : sum.toNat = left.toNat + right.toNat := by
  unfold checkedAdd at h
  split_ifs at h with hover
  have hfit : left.toNat + right.toNat < 2 ^ 64 := by
    by_contra hlarge
    have hleft := left.toNat_lt
    have hright := right.toNat_lt
    refine hover ⟨UInt64.pos_iff_ne_zero.mpr fun hzero => ?_, UInt64.lt_iff_toNat_lt.mpr ?_⟩
    · rw [hzero] at hlarge
      simp at hlarge
      omega
    · rw [UInt64.toNat_sub_of_le _ _ (UInt64.le_iff_toNat_le.mpr (by simp; omega))]
      simp
      omega
  rw [← Except.ok.inj h, UInt64.toNat_add, Nat.mod_eq_of_lt hfit]

end Forge
