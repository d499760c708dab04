import Mathlib.Computability.StateTransition

/-!
# The first state of a kind

A deterministic run up to the first state that meets a goal.  There is at most one
such state, so what a run has done by then can be compared with what another run
has done.
-/

namespace AkLisp

universe u

/-- The run from the first state comes to the second one, which is the first one that
meets the goal. -/
inductive Arrives {σ : Type u} (next : σ → Option σ) (goal : σ → Prop) : σ → σ → Prop where
  | here {s} (met : goal s) : Arrives next goal s s
  | step {s s₁ s'} (open_ : ¬goal s) (stepEq : next s = some s₁)
      (others : Arrives next goal s₁ s') : Arrives next goal s s'

section Reaches

variable {σ : Type u} {next : σ → Option σ} {s s₁ t : σ}

/-- What is reached is the state itself, or it is reached from the next one. -/
theorem reaches_next (stepEq : next s = some s₁) (reaches : StateTransition.Reaches next s t) :
    t = s ∨ StateTransition.Reaches next s₁ t := by
  rcases Relation.ReflTransGen.cases_head reaches with rfl | ⟨s₂, stepEq', later⟩
  · exact .inl rfl
  · obtain rfl := Option.mem_unique stepEq' stepEq
    exact .inr later

/-- Where the machine has stopped, nothing else is reached. -/
theorem reaches_stopped (stopped : next s = none) (reaches : StateTransition.Reaches next s t) :
    t = s := by
  rcases Relation.ReflTransGen.cases_head reaches with rfl | ⟨s₂, stepEq, -⟩
  · rfl
  · exact absurd stepEq (by simp [stopped])

end Reaches

namespace Arrives

variable {σ : Type u} {next : σ → Option σ} {goal : σ → Prop} {s s' s'' : σ}

theorem met (arrives : Arrives next goal s s') : goal s' := by
  induction arrives with
  | here met => exact met
  | step _ _ _ ih => exact ih

/-- The run comes to one such state only. -/
theorem unique (first : Arrives next goal s s') (second : Arrives next goal s s'') :
    s' = s'' := by
  induction first with
  | here met =>
      cases second with
      | here => rfl
      | step open_ => exact absurd met open_
  | step open_ stepEq _ ih =>
      cases second with
      | here met => exact absurd met open_
      | step _ stepEq' others' =>
          rw [stepEq] at stepEq'
          cases stepEq'
          exact ih others'

/-- A state that meets the goal is not reached before. -/
theorem reaches_later {t : σ} (arrives : Arrives next goal s s')
    (reaches : StateTransition.Reaches next s t) (met : goal t) :
    StateTransition.Reaches next s' t := by
  induction arrives with
  | here => exact reaches
  | step open_ stepEq _ ih =>
      rcases reaches_next stepEq reaches with rfl | later
      · exact absurd met open_
      · exact ih later

end Arrives

end AkLisp
