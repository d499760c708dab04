import Mathlib.Data.List.AList
import AkLisp.Linked.Memory
import Mathlib.Algebra.GroupWithZero.Nat

/-!
# Blocks and their sizes

The blocks that a memory manager has handed out, each with the number of its bytes.  At an address
there is one block at most.
-/

namespace AkLisp.Memory

open Linked

/-- The live blocks. -/
abbrev Blocks := AList fun _ : Addr => Nat

namespace Blocks

/-- The sum of the sizes. -/
def total (blocks : Blocks) : Nat := (blocks.entries.map (·.2)).sum

variable {blocks : Blocks} {p : Addr} {size : Nat}

theorem total_insert (free : p ∉ blocks) : total (blocks.insert p size) = blocks.total + size := by
  rw [total, AList.entries_insert_of_notMem free, List.map_cons, List.sum_cons, Nat.add_comm]
  rfl

/-- With a block its size goes. -/
theorem total_erase (found : blocks.lookup p = some size) :
    total (blocks.erase p) + size = blocks.total := by
  have mem : p ∈ blocks := AList.lookup_isSome.mp (by rw [found]; rfl)
  obtain ⟨size', before, after, fresh, entriesEq, eraseEq⟩ :=
    List.exists_of_kerase (AList.mem_keys.mp mem)
  have same : size' = size := by
    have head : blocks.entries.dlookup p = some size := found
    rw [entriesEq, List.dlookup_append, List.dlookup_eq_none.mpr fresh, Option.none_or,
      List.dlookup_cons_eq] at head
    exact Option.some.inj head
  have erased : (blocks.erase p).entries = before ++ after := eraseEq
  rw [total, total, erased, entriesEq, same]
  simp only [List.map_append, List.map_cons, List.sum_append, List.sum_cons]
  omega

/-- The size of a block that there may not be. -/
def sizeAt (blocks : Blocks) : Option Addr → Nat
  | none => 0
  | some p => (blocks.lookup p).getD 0

end Blocks

end AkLisp.Memory
