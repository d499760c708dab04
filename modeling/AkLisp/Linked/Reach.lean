import Mathlib.Data.Set.Basic
import Mathlib.Logic.Relation

/-!
# What can be reached

The objects that can be reached from one along a relation stay inside every set that the
relation does not leave, and they depend on the relation at these objects only.
-/

namespace AkLisp.Linked

universe u

variable {α : Type u} {r r' : α → α → Prop} {a b : α}

/-- A set that the relation does not leave has everything that can be reached. -/
theorem reach_subset {S : Set α} (closed : ∀ a ∈ S, ∀ b, r a b → b ∈ S) (start : a ∈ S)
    (reach : Relation.ReflTransGen r a b) : b ∈ S := by
  induction reach with
  | refl => exact start
  | tail _ step ih => exact closed _ ih _ step

theorem reach_mono (same : ∀ c, Relation.ReflTransGen r a c → ∀ d, r c d → r' c d)
    (reach : Relation.ReflTransGen r a b) : Relation.ReflTransGen r' a b := by
  induction reach with
  | refl => exact .refl
  | tail before step ih => exact ih.tail (same _ before _ step)

/-- What can be reached depends on the relation at what can be reached. -/
theorem reach_congr (same : ∀ c, Relation.ReflTransGen r a c → ∀ d, r' c d ↔ r c d) :
    Relation.ReflTransGen r' a b ↔ Relation.ReflTransGen r a b := by
  constructor
  · intro reach
    induction reach with
    | refl => exact .refl
    | tail _ step ih => exact ih.tail ((same _ ih _).mp step)
  · exact reach_mono fun c before d step => (same c before d).mpr step

end AkLisp.Linked
