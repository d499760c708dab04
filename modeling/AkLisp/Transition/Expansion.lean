import Mathlib.Data.List.Basic

/-!
# Positions in an expanded list

An expansion replaces every element of a list by a few others.  `offset` says where what
an element was replaced by begins; behind the end positions go on one by one.
-/

namespace AkLisp.Transition

universe u v

variable {α : Type u} {β : Type v}

/-- The place at which position `pos` of `l` comes to lie when every element is expanded. -/
def offset (expand : α → List β) (l : List α) (pos : Nat) : Nat :=
  ((l.take pos).flatMap expand).length + (pos - l.length)

variable (expand : α → List β) {l : List α} {pos : Nat} {x : α}

@[simp]
theorem offset_zero (l : List α) : offset expand l 0 = 0 := by
  rw [offset, List.take_zero, List.flatMap_nil, List.length_nil, Nat.zero_sub]

/-- The expanded list splits around what an element was replaced by. -/
theorem flatMap_split (found : l[pos]? = some x) :
    l.flatMap expand =
      (l.take pos).flatMap expand ++ (expand x ++ (l.drop (pos + 1)).flatMap expand) := by
  obtain ⟨inside, rfl⟩ := List.getElem?_eq_some_iff.mp found
  conv_lhs => rw [← List.take_append_drop pos l, List.drop_eq_getElem_cons inside]
  rw [List.flatMap_append, List.flatMap_cons]

theorem offset_of_found (found : l[pos]? = some x) :
    offset expand l pos = ((l.take pos).flatMap expand).length := by
  obtain ⟨inside, -⟩ := List.getElem?_eq_some_iff.mp found
  rw [offset, Nat.sub_eq_zero_of_le (Nat.le_of_lt inside), Nat.add_zero]

/-- What an element was replaced by stands at its offset. -/
theorem getElem?_offset (found : l[pos]? = some x) {i : Nat} (inside : i < (expand x).length) :
    (l.flatMap expand)[offset expand l pos + i]? = (expand x)[i]? := by
  rw [flatMap_split expand found, offset_of_found expand found,
    List.getElem?_append_right (Nat.le_add_right _ _), Nat.add_sub_cancel_left,
    List.getElem?_append_left inside]

/-- Behind the end there is nothing. -/
theorem getElem?_offset_none (beyond : l[pos]? = none) :
    (l.flatMap expand)[offset expand l pos]? = none := by
  have outside := List.getElem?_eq_none_iff.mp beyond
  rw [List.getElem?_eq_none_iff, offset, List.take_of_length_le outside]
  exact Nat.le_add_right _ _

/-- The next position lies behind what the element was replaced by. -/
theorem offset_succ (found : l[pos]? = some x) :
    offset expand l (pos + 1) = offset expand l pos + (expand x).length := by
  obtain ⟨inside, value⟩ := List.getElem?_eq_some_iff.mp found
  have behind : pos + 1 - l.length = 0 := Nat.sub_eq_zero_of_le inside
  rw [offset_of_found expand found, offset, behind, Nat.add_zero, List.take_add_one, found,
    List.flatMap_append, List.length_append, Option.toList_some, List.flatMap_singleton]

end AkLisp.Transition
