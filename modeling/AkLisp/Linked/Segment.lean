import Mathlib.Data.List.Basic

/-!
# Segments of a list

`SegmentAt xs i ys` says that `ys` stands in `xs` from position `i` on.  It
splits at every `++` and it survives an extension of `xs`.
-/

namespace AkLisp.Linked

universe u

variable {α : Type u}

/-- The list `ys` stands in `xs` at position `i`. -/
def SegmentAt (xs : List α) (i : Nat) (ys : List α) : Prop :=
  ∀ j y, ys[j]? = some y → xs[i + j]? = some y

namespace SegmentAt

@[simp]
theorem nil (xs : List α) (i : Nat) : SegmentAt xs i [] := by
  intro j y found
  simp at found

theorem cons {xs : List α} {i : Nat} {y : α} {ys : List α} :
    SegmentAt xs i (y :: ys) ↔ xs[i]? = some y ∧ SegmentAt xs (i + 1) ys := by
  constructor
  · intro segment
    refine ⟨segment 0 y rfl, ?_⟩
    intro j z found
    have := segment (j + 1) z found
    rwa [← Nat.add_assoc, Nat.add_right_comm] at this
  · rintro ⟨first, rest⟩ j z found
    cases j with
    | zero =>
        cases found
        exact first
    | succ j =>
        rw [← Nat.add_assoc, Nat.add_right_comm]
        exact rest j z found

theorem append {xs : List α} {i : Nat} {ys zs : List α} :
    SegmentAt xs i (ys ++ zs) ↔ SegmentAt xs i ys ∧ SegmentAt xs (i + ys.length) zs := by
  induction ys generalizing i with
  | nil => simp
  | cons y ys ih =>
      have shift : i + 1 + ys.length = i + (y :: ys).length := by
        rw [List.length_cons]
        omega
      rw [List.cons_append, cons, cons, ih, shift, and_assoc]

theorem of_append (pre ys post : List α) : SegmentAt (pre ++ ys ++ post) pre.length ys := by
  intro j y found
  have bound : j < ys.length := (List.getElem?_eq_some_iff.mp found).1
  rw [List.append_assoc, List.getElem?_append_right (Nat.le_add_right _ _),
    Nat.add_sub_cancel_left, List.getElem?_append_left bound, found]

end SegmentAt

end AkLisp.Linked
