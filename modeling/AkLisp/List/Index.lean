import AkLisp.Lexer.Token
import AkLisp.List.Sharing

/-!
# Indexing from both ends

`akl_list_index_entry` counts along `le_next` from the head for an index that is
not negative and along `le_prev` from the last entry for a negative one.  A list
that ends in `NULL` at both sides is indexed like the sequence of its elements.
-/

namespace AkLisp

open Linked

universe u

variable {α β : Type u}

/-- `akl_list_index` with the assertion of `akl_list_index_entry`.  An `int`
overflows in neither loop. -/
def assertedIndex (m : Mem α) (list : Option AklList) (index : Int) : Except Fault (Option α) :=
  match list with
  | none => throw .assertion
  | some list => if list.isNil then throw .assertion else return aklListIndex m list index

/-- The element of a sequence at a position counted from its start or, if it is
negative, from its end. -/
def elementAt (xs : List β) (i : Int) : Option β :=
  match i with
  | .ofNat k => xs[k]?
  | .negSucc k => xs.reverse[k]?

theorem elementAt_nonneg {xs : List β} {i : Int} (nonneg : 0 ≤ i) :
    elementAt xs i = xs[i.toNat]? := by
  cases i with
  | ofNat k => rfl
  | negSucc k => exact absurd nonneg (Int.not_le.mpr (Int.negSucc_lt_zero k))

theorem elementAt_neg {xs : List β} {i : Int} (within : -xs.length ≤ i) (negative : i < 0) :
    elementAt xs i = xs[(xs.length + i).toNat]? := by
  cases i with
  | ofNat k => exact absurd negative (Int.not_lt.mpr (Int.natCast_nonneg k))
  | negSucc k =>
      have inside : k < xs.length := by omega
      have position : (xs.length + Int.negSucc k).toNat = xs.length - 1 - k := by omega
      rw [position]
      exact List.getElem?_reverse inside

theorem elementAt_outside {xs : List β} {i : Int} (outside : ¬ (-xs.length ≤ i ∧ i < xs.length)) :
    elementAt xs i = none := by
  cases i with
  | ofNat k =>
      apply List.getElem?_eq_none
      simp only [Int.ofNat_eq_natCast] at outside
      omega
  | negSucc k =>
      apply List.getElem?_eq_none
      rw [List.length_reverse]
      omega

theorem elementAt_map {γ : Type u} (f : β → γ) (xs : List β) (i : Int) :
    elementAt (xs.map f) i = (elementAt xs i).map f := by
  cases i with
  | ofNat k => exact List.getElem?_map
  | negSucc k =>
      simp only [elementAt, ← List.map_reverse]
      exact List.getElem?_map

section

variable {m : Mem α} {list : AklList} {as : List Addr}

theorem indexForward_eq_follow (m : Mem α) (ent : Addr) (k : Nat) :
    indexForward m ent k = follow m.next ent k := by
  induction k generalizing ent with
  | zero => rfl
  | succ k ih =>
      rw [indexForward, follow]
      cases m.next ent with
      | none => rfl
      | some b => exact ih b

theorem indexBackward_eq_follow (m : Mem α) (ent : Addr) (k : Nat) :
    indexBackward m ent k = follow m.prev ent k := by
  induction k generalizing ent with
  | zero => rfl
  | succ k ih =>
      rw [indexBackward, follow]
      cases m.prev ent with
      | none => rfl
      | some b => exact ih b

/-- The header names the two ends of `as`, which ends a chain of entries. -/
structure AklList.EndsChain (m : Mem α) (list : AklList) (pre as : List Addr) : Prop where
  chained : Chained m none (pre ++ as) none
  head : list.liHead = as.head?
  last : list.liLast = as.getLast?

/-- Counting backward goes on into what lies in front of the list. -/
theorem AklList.EndsChain.aklListIndexEntry {pre : List Addr} (ends : list.EndsChain m pre as)
    (nonempty : as ≠ []) (i : Int) : AkLisp.aklListIndexEntry m list i =
      if 0 ≤ i then elementAt as i else elementAt (pre ++ as) i := by
  obtain ⟨a, others, rfl⟩ := List.exists_cons_of_ne_nil nonempty
  have headEq : list.liHead = some a := ends.head
  cases i with
  | ofNat k =>
      rw [if_pos (show 0 ≤ Int.ofNat k from Int.natCast_nonneg k)]
      simp only [AkLisp.aklListIndexEntry, headEq, reduceCtorEq, if_false, Option.bind_some]
      rw [indexForward_eq_follow]
      have behind := ((chained_append m none none pre (a :: others)).mp ends.chained).2
      exact behind.walk_next.follow k
  | negSucc k =>
      rw [if_neg (Int.not_le.mpr (Int.negSucc_lt_zero k))]
      simp only [AkLisp.aklListIndexEntry, headEq, reduceCtorEq, if_false]
      have walk := ends.chained.walk_prev
      rw [List.getLast?_append_of_ne_nil _ nonempty, ← ends.last] at walk
      cases lastEq : list.liLast with
      | none =>
          rw [ends.last] at lastEq
          exact absurd (List.getLast?_eq_none_iff.mp lastEq) nonempty
      | some last =>
          rw [lastEq] at walk
          rw [Option.bind_some, indexBackward_eq_follow]
          exact walk.follow k

theorem AklList.Denotes.endsChain (denotes : list.Denotes m as) : list.EndsChain m [] as :=
  ⟨denotes.chained, denotes.head, denotes.last⟩

/-- The index loops find the entry at the position. -/
theorem AklList.Denotes.aklListIndexEntry (denotes : list.Denotes m as) (i : Int) :
    AkLisp.aklListIndexEntry m list i = elementAt as i := by
  cases as with
  | nil =>
      have headEq : list.liHead = none := denotes.head
      cases i <;> simp [AkLisp.aklListIndexEntry, headEq, elementAt]
  | cons a as =>
      rw [denotes.endsChain.aklListIndexEntry (List.cons_ne_nil a as)]
      exact ite_self _

theorem AklList.Denotes.assertedIndex (denotes : list.Denotes m as) (clear : list.isNil = false)
    (i : Int) :
    AkLisp.assertedIndex m (some list) i = .ok ((elementAt as i).bind m.data) := by
  simp only [AkLisp.assertedIndex, clear, Bool.false_eq_true, if_false, aklListIndex,
    denotes.aklListIndexEntry]
  rfl

end

/-- `akl_list_index` on a list of the entries `as`: an index from 0 on counts from
the head, a negative one from the end, and every other one gives `NULL`. -/
theorem aklListIndex_both_ends {m : Mem α} {list : AklList} {as : List Addr}
    (denotes : list.Denotes m as) (clear : list.isNil = false) (i : Int) :
    (∀ k : Fin as.length, i = k.val → assertedIndex m (some list) i = .ok (m.data as[k])) ∧
      (∀ k : Fin as.length, i = k.val - as.length →
        assertedIndex m (some list) i = .ok (m.data as[k])) ∧
      (¬ (-as.length ≤ i ∧ i < as.length) → assertedIndex m (some list) i = .ok none) := by
  rw [denotes.assertedIndex clear]
  refine ⟨?_, ?_, ?_⟩
  · rintro k rfl
    rw [elementAt_nonneg (Int.natCast_nonneg _)]
    simp
  · rintro k rfl
    have bound := k.isLt
    have position : (as.length + ((k.val : Int) - as.length)).toNat = k.val := by omega
    rw [elementAt_neg (by omega) (by omega), position]
    simp
  · intro outside
    rw [elementAt_outside outside]
    rfl

/-- The ends of the range of `int` on a list of two. -/
theorem aklListIndex_both_ends_extreme :
    assertedIndex (appendValues Mem.empty aklInitList [7, 8]).1
        (some (appendValues Mem.empty aklInitList [7, 8]).2) (-2147483648) = .ok none ∧
      assertedIndex (appendValues Mem.empty aklInitList [7, 8]).1
        (some (appendValues Mem.empty aklInitList [7, 8]).2) 2147483647 = .ok none ∧
      assertedIndex (appendValues Mem.empty aklInitList [7, 8]).1
        (some (appendValues Mem.empty aklInitList [7, 8]).2) (-1) = .ok (some 8) := by
  have denotes : (appendValues Mem.empty aklInitList [7, 8]).2.Denotes
      (appendValues Mem.empty aklInitList [7, 8]).1 [0, 1] :=
    ((AklList.Denotes.aklInitList Mem.empty).append (some 7)).append (some 8)
  refine ⟨?_, ?_, ?_⟩
  · exact (aklListIndex_both_ends denotes rfl _).2.2 (by decide)
  · exact (aklListIndex_both_ends denotes rfl _).2.2 (by decide)
  · exact (aklListIndex_both_ends denotes rfl _).2.1 ⟨1, by decide⟩ rfl

end AkLisp
