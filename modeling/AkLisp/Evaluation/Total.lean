import Mathlib.Order.Monotone.Basic

/-!
# Tasks that come to a result

A task takes a state to a result and to a later state.  The states are preordered: what
is monotone in them holds for good once it holds.  `Total` says that a task comes to a
result, and what is known of the result and of the state then.  There is a rule for a
task followed by another one, for one that calls itself with a smaller measure, and for
a loop over a list.
-/

namespace AkLisp.Evaluation

universe u v w

variable {σ : Type u} [Preorder σ] {α β γ : Type v} {κ : Type w}

/-- The task comes to a result in a later state, and the condition holds of these. -/
def Total (task : σ → α → σ → Prop) (s : σ) (Q : α → σ → Prop) : Prop :=
  ∃ a s', task s a s' ∧ s ≤ s' ∧ Q a s'

section

variable {task : σ → α → σ → Prop} {s : σ} {Q Q' : α → σ → Prop}

theorem Total.of_run {a : α} {s' : σ} (run : task s a s') (later : s ≤ s') (holds : Q a s') :
    Total task s Q :=
  ⟨a, s', run, later, holds⟩

theorem Total.imp (total : Total task s Q) (weaker : ∀ a s', s ≤ s' → Q a s' → Q' a s') :
    Total task s Q' := by
  rcases total with ⟨a, s', run, later, holds⟩
  exact ⟨a, s', run, later, weaker a s' later holds⟩

/-- What is monotone is kept. -/
theorem Total.frame {I : σ → Prop} (total : Total task s Q) (kept : Monotone I) (here : I s) :
    Total task s fun a s' => Q a s' ∧ I s' :=
  total.imp fun _ _ later holds => ⟨holds, kept later here⟩

/-- A task that does what another one does. -/
theorem Total.via {task' : σ → α → σ → Prop} (total : Total task s Q)
    (does : ∀ a s', task s a s' → task' s a s') : Total task' s Q := by
  rcases total with ⟨a, s', run, later, holds⟩
  exact ⟨a, s', does a s' run, later, holds⟩

/-- A task and another one behind it, which may depend on the result of the first one. -/
theorem Total.bind {next : α → σ → β → σ → Prop} {whole : σ → γ → σ → Prop} {join : α → β → γ}
    {R : γ → σ → Prop}
    (total : Total task s fun a s₁ => Total (next a) s₁ fun b s₂ => R (join a b) s₂)
    (composed : ∀ a s₁ b s₂, task s a s₁ → next a s₁ b s₂ → whole s (join a b) s₂) :
    Total whole s R := by
  rcases total with ⟨a, s₁, first, later, b, s₂, second, later', holds⟩
  exact ⟨join a b, s₂, composed a s₁ b s₂ first second, later.trans later', holds⟩

end

/-- Tasks that call each other with a smaller measure meet their conditions if they do
when the tasks they call do. -/
theorem Total.recursion {task : κ → σ → α → σ → Prop} (measure : κ → ℕ) {P : κ → σ → Prop}
    {Q : κ → σ → α → σ → Prop}
    (body : ∀ k, (∀ j, measure j < measure k → ∀ s, P j s → Total (task j) s (Q j s)) →
      ∀ s, P k s → Total (task k) s (Q k s)) :
    ∀ k s, P k s → Total (task k) s (Q k s) := by
  intro k
  induction size : measure k using Nat.strongRecOn generalizing k with
  | ind n ih =>
      apply body
      intro j smaller
      apply ih (measure j)
      · rw [← size]
        exact smaller
      · rfl

/-- A loop over a list keeps an invariant about the elements that are left. -/
theorem Total.fold {loop : List κ → α → σ → α → σ → Prop} {step : κ → α → σ → α → σ → Prop}
    (ends : ∀ a s, loop [] a s a s)
    (goesOn : ∀ x xs a s b s₁ c s₂, step x a s b s₁ → loop xs b s₁ c s₂ →
      loop (x :: xs) a s c s₂)
    {I : List κ → α → σ → Prop}
    (keeps : ∀ x xs a s, I (x :: xs) a s → Total (step x a) s (I xs))
    (xs : List κ) (a : α) (s : σ) (start : I xs a s) : Total (loop xs a) s (I []) := by
  induction xs generalizing a s with
  | nil => exact .of_run (ends a s) le_rfl start
  | cons x xs ih =>
      apply Total.bind ((keeps x xs a s start).imp fun b s₁ _ left => ih b s₁ left)
      intro b s₁ c s₂ first others
      exact goesOn x xs a s b s₁ c s₂ first others

end AkLisp.Evaluation
