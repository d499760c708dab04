import AkLisp.List.History

/-!
# Dropping the first entry

`akl_list_shift_entry` takes the first entry of a list away, and so does
`akl_list_remove_entry` when it is given `li_head`.  On a list with entries the
two leave the same header and the same memory.  On an empty list the second one
returns at once, while the first one still counts down.
-/

namespace AkLisp

open Linked

universe u

variable {α : Type u} {m : Mem α} {list : AklList} {as : List Addr}

namespace AklList.Denotes

/-- Only in a list of one entry the first entry is the last one. -/
theorem next_of_last {a : Addr} (denotes : list.Denotes m (a :: as))
    (lastEq : list.liLast = some a) : m.next a = none := by
  have notMem : a ∉ as := (List.nodup_cons.mp denotes.nodup).1
  have nextEq : m.next a = as.head? := by simpa using denotes.chained.2.1
  cases as with
  | nil => exact nextEq
  | cons b as =>
      rw [denotes.last, List.getLast?_cons_cons] at lastEq
      exact absurd (List.mem_of_getLast? lastEq) notMem

/-- With an entry to drop the two functions do the same. -/
theorem shift_eq_remove {a : Addr} (denotes : list.Denotes m (a :: as)) :
    aklListShiftEntry m list = aklListRemoveEntry m list list.liHead := by
  have headEq : list.liHead = some a := denotes.head
  have prevEq : m.prev a = none := denotes.chained.1
  have memEq : m.unlink a = m.setPrev? (m.next a) none := by
    rw [Mem.unlink, prevEq]
    rfl
  rw [headEq, aklListRemoveEntry_some, memEq]
  simp only [aklListShiftEntry, AklList.without, headEq, Option.bind_some, prevEq, if_true]
  by_cases lastEq : list.liLast = some a
  · rw [if_pos lastEq.symm, if_pos lastEq, denotes.next_of_last lastEq]
  · rw [if_neg (Ne.symm lastEq), if_neg lastEq]

/-- Without one, `akl_list_shift_entry` counts down all the same. -/
theorem shift_nil (denotes : list.Denotes m []) :
    aklListShiftEntry m list = (none, m, { list with liCount := list.liCount - 1 }) := by
  have headEq : list.liHead = none := denotes.head
  have lastEq : list.liLast = none := denotes.last
  rcases list with ⟨head, last, parent, count, isQuoted, isNil⟩
  cases headEq
  cases lastEq
  rfl

theorem remove_nil (denotes : list.Denotes m []) :
    aklListRemoveEntry m list list.liHead = (none, m, list) := by
  have headEq : list.liHead = none := denotes.head
  rw [headEq]
  rfl

end AklList.Denotes

/-- The two ways of dropping the first of the entries `as` return the same
entry and leave the same header and the same remaining entries, and these are
counted. -/
structure AklList.DropsAlike (m : Mem α) (list : AklList) (as : List Addr) : Prop where
  entry : (aklListShiftEntry m list).1 = (aklListRemoveEntry m list list.liHead).1
  header : (aklListShiftEntry m list).2.2 = (aklListRemoveEntry m list list.liHead).2.2
  linked : ∀ a ∈ as.tail,
    (aklListShiftEntry m list).2.1.next a =
        (aklListRemoveEntry m list list.liHead).2.1.next a ∧
      (aklListShiftEntry m list).2.1.prev a =
        (aklListRemoveEntry m list list.liHead).2.1.prev a ∧
      (aklListShiftEntry m list).2.1.data a =
        (aklListRemoveEntry m list list.liHead).2.1.data a
  count : (aklListShiftEntry m list).2.2.liCount = UInt32.ofNat as.tail.length

/-- They do so exactly on the lists that are not empty. -/
theorem drops_alike_iff (denotes : list.Denotes m as) : list.DropsAlike m as ↔ as ≠ [] := by
  cases as with
  | nil =>
      apply iff_of_false
      · intro alike
        have headerEq := alike.header
        rw [denotes.shift_nil, denotes.remove_nil] at headerEq
        have countEq : list.liCount - 1 = list.liCount := congrArg AklList.liCount headerEq
        rw [denotes.count] at countEq
        cases countEq
      · exact fun ne => ne rfl
  | cons a as =>
      have same := denotes.shift_eq_remove
      apply iff_of_true
      · refine ⟨by rw [same], by rw [same], ?_, denotes.shift.count⟩
        intro b _
        rw [same]
        exact ⟨rfl, rfl, rfl⟩
      · exact List.cons_ne_nil a as

/-- On the list of `akl_init_list` the count becomes `4294967295` in one of the ways only. -/
theorem not_drops_alike_init :
    AklList.Denotes (Mem.empty : Mem Nat) aklInitList [] ∧
      ¬ AklList.DropsAlike (Mem.empty : Mem Nat) aklInitList [] := by
  refine ⟨AklList.Denotes.aklInitList _, ?_⟩
  intro alike
  exact absurd (congrArg AklList.liCount alike.header) (by decide)

/-- A list of one entry. -/
theorem drops_alike_one :
    AklList.DropsAlike (aklListAppend (Mem.empty : Mem Nat) aklInitList (some 7)).2.1
      (aklListAppend (Mem.empty : Mem Nat) aklInitList (some 7)).2.2 [0] :=
  (drops_alike_iff ((AklList.Denotes.aklInitList (Mem.empty : Mem Nat)).append (some 7))).mpr
    (by decide)

end AkLisp
