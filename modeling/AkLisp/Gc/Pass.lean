import Mathlib.Data.List.Basic
import Mathlib.Logic.Function.Basic

/-!
# Passes of a sweep

A pass visits objects one after the other.  An object in use that is marked has
the marks in its footprint cleared; one that is not marked is freed.  The
outcome for an object depends on whether some object visited before it has it
in its footprint.
-/

namespace AkLisp.Sweeping

universe u

variable {R : Type u} [DecidableEq R]

/-- Which objects are in use and which are marked. -/
structure Bits (R : Type u) where
  used : R → Bool
  marks : R → Bool

/-- Visit one object. -/
def visit (foot : R → List R) (b : Bits R) (r : R) : Bits R :=
  if b.used r then
    if b.marks r then { b with marks := fun x => b.marks x && !decide (x ∈ foot r) }
    else { b with used := Function.update b.used r false }
  else b

/-- Visit the objects of a list in order. -/
def visitAll (foot : R → List R) (b : Bits R) (rs : List R) : Bits R :=
  rs.foldl (visit foot) b

variable {foot : R → List R} {b : Bits R} {rs : List R} {r x : R}

@[simp]
theorem visitAll_cons : visitAll foot b (r :: rs) = visitAll foot (visit foot b r) rs := rfl

/-! ## One visit -/

theorem visit_marks :
    (visit foot b r).marks x =
      (b.marks x && !(b.used r && b.marks r && decide (x ∈ foot r))) := by
  unfold visit
  cases used : b.used r with
  | false => simp
  | true =>
      cases marked : b.marks r with
      | false => simp
      | true => simp

theorem visit_marks_le (marked : (visit foot b r).marks x = true) : b.marks x = true := by
  rw [visit_marks, Bool.and_eq_true] at marked
  exact marked.1

theorem visit_used :
    (visit foot b r).used x = (b.used x && !(decide (x = r) && !b.marks r)) := by
  unfold visit
  cases used : b.used r with
  | false =>
      by_cases same : x = r
      · simp [same, used]
      · simp [same]
  | true =>
      cases marked : b.marks r with
      | false =>
          by_cases same : x = r
          · simp [same]
          · simp [same]
      | true => simp

/-! ## A pass -/

/-- No mark is set. -/
theorem visitAll_marks_le (marked : (visitAll foot b rs).marks x = true) : b.marks x = true := by
  induction rs generalizing b with
  | nil => exact marked
  | cons r rs ih => exact visit_marks_le (ih marked)

/-- No object comes into use. -/
theorem visitAll_used_le (used : (visitAll foot b rs).used x = true) : b.used x = true := by
  induction rs generalizing b with
  | nil => exact used
  | cons r rs ih =>
      have before := ih used
      rw [visit_used, Bool.and_eq_true] at before
      exact before.1

/-- An object that is not visited is not freed. -/
theorem visitAll_used_other (notMem : x ∉ rs) : (visitAll foot b rs).used x = b.used x := by
  induction rs generalizing b with
  | nil => rfl
  | cons r rs ih =>
      have ne : x ≠ r := fun equal => notMem (equal ▸ List.mem_cons_self)
      rw [visitAll_cons, ih fun mem => notMem (List.mem_cons_of_mem r mem), visit_used]
      simp [ne]

/-- A mark outside the footprints of the marked objects stays. -/
theorem visitAll_marks_other (spared : ∀ r ∈ rs, b.marks r = true → x ∉ foot r) :
    (visitAll foot b rs).marks x = b.marks x := by
  induction rs generalizing b with
  | nil => rfl
  | cons r rs ih =>
      have same : (visit foot b r).marks x = b.marks x := by
        rw [visit_marks]
        cases marked : b.marks r with
        | false => simp
        | true => simp [spared r List.mem_cons_self marked]
      rw [visitAll_cons, ih, same]
      intro r' mem marked
      apply spared r' (List.mem_cons_of_mem r mem)
      exact visit_marks_le marked

/-- An object that is visited without a mark is freed. -/
theorem visitAll_frees (mem : x ∈ rs) (unmarked : b.marks x = false) :
    (visitAll foot b rs).used x = false := by
  induction rs generalizing b with
  | nil => cases mem
  | cons r rs ih =>
      rw [visitAll_cons]
      rcases List.mem_cons.mp mem with rfl | inside
      · have freed : (visit foot b x).used x = false := by
          rw [visit_used, unmarked]
          simp
        cases used : (visitAll foot (visit foot b x) rs).used x with
        | false => rfl
        | true =>
            rw [visitAll_used_le used] at freed
            cases freed
      · apply ih inside
        rw [visit_marks, unmarked, Bool.false_and]

/-- An object no other visited one has in its footprint is freed exactly when it
is not marked, and loses its mark if it is in use. -/
theorem visitAll_exact (nodup : rs.Nodup) (mem : x ∈ rs)
    (own : x ∈ foot x) (spared : ∀ r ∈ rs, r ≠ x → b.marks r = true → x ∉ foot r) :
    (visitAll foot b rs).used x = (b.used x && b.marks x) ∧
      (visitAll foot b rs).marks x = (b.marks x && !b.used x) := by
  induction rs generalizing b with
  | nil => cases mem
  | cons r rs ih =>
      rw [List.nodup_cons] at nodup
      rw [visitAll_cons]
      rcases List.mem_cons.mp mem with rfl | inside
      · -- visited now, and not again
        rw [visitAll_used_other nodup.1, visitAll_marks_other, visit_used, visit_marks]
        · cases b.marks x <;> cases b.used x <;> simp [own]
        · intro r' mem' marked
          have ne : r' ≠ x := fun equal => nodup.1 (equal ▸ mem')
          exact spared r' (List.mem_cons_of_mem x mem') ne (visit_marks_le marked)
      · have ne : r ≠ x := fun equal => nodup.1 (equal ▸ inside)
        have marksEq : (visit foot b r).marks x = b.marks x := by
          rw [visit_marks]
          cases marked : b.marks r with
          | false => simp
          | true => simp [spared r List.mem_cons_self ne marked]
        have usedEq : (visit foot b r).used x = b.used x := by
          rw [visit_used]
          simp [Ne.symm ne]
        rw [← marksEq, ← usedEq]
        apply ih nodup.2 inside
        intro r' mem' ne' marked
        exact spared r' (List.mem_cons_of_mem r mem') ne' (visit_marks_le marked)

/-- What a marked object in use has in its footprint is unmarked in the end, if no
object visited before takes the object's own mark. -/
theorem visitAll_clears (mem : r ∈ rs) (used : b.used r = true) (marked : b.marks r = true)
    (spared : ∀ r' ∈ rs, r' ≠ r → b.marks r' = true → r ∉ foot r') (touched : x ∈ foot r) :
    (visitAll foot b rs).marks x = false := by
  induction rs generalizing b with
  | nil => cases mem
  | cons r₀ rs ih =>
      rw [visitAll_cons]
      by_cases now : r₀ = r
      · subst now
        have cleared : (visit foot b r₀).marks x = false := by
          rw [visit_marks, used, marked]
          simp [touched]
        cases after : (visitAll foot (visit foot b r₀) rs).marks x with
        | false => rfl
        | true =>
            rw [visitAll_marks_le after] at cleared
            cases cleared
      · rcases List.mem_cons.mp mem with equal | inside
        · exact absurd equal.symm now
        · apply ih inside
          · rw [visit_used, used]
            simp [Ne.symm now]
          · rw [visit_marks, marked]
            cases marked₀ : b.marks r₀ with
            | false => simp
            | true => simp [spared r₀ List.mem_cons_self now marked₀]
          · intro r' mem' ne' marked'
            exact spared r' (List.mem_cons_of_mem r₀ mem') ne'
              (visit_marks_le marked')

end AkLisp.Sweeping
