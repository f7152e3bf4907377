import Mathlib.Tactic

/-!
# Identifiers and generations

The 64-bit typed ids and generation counters of `ids.hpp`, ordered by value so that they can key the
ordered maps. A generation starts at `1` and wraps like the `uint64_t` it is.
-/

namespace Forge

open Std (TransCmp TransOrd LawfulEqCmp LawfulEqOrd)

/-- The tags of `Id<Tag>`. -/
inductive IdTag
  | node | edge | request | job | lease
deriving DecidableEq

structure Id (tag : IdTag) where
  value : UInt64 := 0
deriving DecidableEq, Repr

namespace Id

variable {tag : IdTag}

instance : Ord (Id tag) := ⟨compareOn Id.value⟩

instance : TransOrd (Id tag) := inferInstanceAs (TransCmp (compareOn Id.value))

instance : LawfulEqOrd (Id tag) where
  eq_of_compare {a b} h := by
    obtain ⟨a⟩ := a
    obtain ⟨b⟩ := b
    have h' : compare a b = .eq := h
    rw [LawfulEqCmp.eq_of_compare h']

end Id

abbrev NodeId := Id .node
abbrev EdgeId := Id .edge
abbrev RequestId := Id .request
abbrev JobId := Id .job
abbrev LeaseId := Id .lease

structure Generation where
  value : UInt64 := 1
deriving DecidableEq, Repr

def Generation.next (generation : Generation) : Generation := ⟨generation.value + 1⟩

end Forge
