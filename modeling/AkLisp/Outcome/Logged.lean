import AkLisp.Outcome.Results

/-!
# Computations with a log

A computation that logs what it does may be compared with one that does not.
`Mirrors` says that it has the same result, that this is not a certain error, and
that the entries of the log lead from one state to another, step by step.  It
passes through `bind`, so that the two computations are compared call by call.
-/

namespace AkLisp.Outcome

universe u

variable {ε σ τ α β : Type u}

/-- A fallible computation with the entries it logs, also if it fails. -/
structure Logged (ε σ α : Type u) where
  result : Except ε α
  log : List σ

namespace Logged

/-- The result with nothing logged. -/
def quiet (x : Except ε α) : Logged ε σ α := ⟨x, []⟩

/-- If the computation returns, an entry is logged. -/
def noting (x : Except ε α) (entry : α → σ) : Logged ε σ α :=
  match x with
  | .ok a => ⟨.ok a, [entry a]⟩
  | .error e => ⟨.error e, []⟩

/-- One computation behind another. -/
def bind (x : Logged ε σ α) (f : α → Logged ε σ β) : Logged ε σ β :=
  match x.result with
  | .ok a => ⟨(f a).result, x.log ++ (f a).log⟩
  | .error e => ⟨.error e, x.log⟩

instance : Monad (Logged ε σ) where
  pure a := ⟨.ok a, []⟩
  bind := bind

instance : MonadLift (Except ε) (Logged ε σ) where
  monadLift := quiet

end Logged

/-- The entries lead from one state to another. -/
inductive Leads (step : τ → σ → τ → Prop) : τ → List σ → τ → Prop where
  | nil {t} : Leads step t [] t
  | cons {t s t₁ log t'} (first : step t s t₁) (others : Leads step t₁ log t') :
      Leads step t (s :: log) t'

theorem Leads.append {step : τ → σ → τ → Prop} {t t₁ t' : τ} {log others : List σ}
    (first : Leads step t log t₁) (second : Leads step t₁ others t') :
    Leads step t (log ++ others) t' := by
  induction first with
  | nil => exact second
  | cons step _ ih => exact .cons step (ih second)

/-- The states on the way. -/
theorem Leads.split {step : τ → σ → τ → Prop} {t t' : τ} {before : List σ} {s : σ}
    {others : List σ} (leads : Leads step t (before ++ s :: others) t') :
    ∃ t₁ t₂, Leads step t before t₁ ∧ step t₁ s t₂ ∧ Leads step t₂ others t' := by
  induction before generalizing t with
  | nil =>
      cases leads with
      | cons first others => exact ⟨t, _, .nil, first, others⟩
  | cons entry before ih =>
      cases leads with
      | cons first rest =>
          obtain ⟨t₁, t₂, leads₁, found, leads₂⟩ := ih rest
          exact ⟨t₁, t₂, .cons first leads₁, found, leads₂⟩

/-- The computation with a log has the result of the other one.  The result is not
the error, and the log leads to a state that the value returned fits. -/
structure Mirrors (e : ε) (step : τ → σ → τ → Prop) (t : τ) (Q : α → τ → Prop)
    (x : Logged ε σ α) (y : Except ε α) : Prop where
  same : x.result = y
  avoids : y ≠ .error e
  leads : ∃ t', Leads step t x.log t' ∧ ∀ a, y = .ok a → Q a t'

namespace Mirrors

variable {e : ε} {step : τ → σ → τ → Prop} {t : τ} {Q : α → τ → Prop} {R : β → τ → Prop}

theorem pure {a : α} (fits : Q a t) :
    Mirrors e step t Q (Pure.pure a : Logged ε σ α) (.ok a) where
  same := rfl
  avoids := fun equal => by cases equal
  leads := by
    refine ⟨t, .nil, fun b equal => ?_⟩
    cases equal
    exact fits

theorem fail {f : ε} (other : f ≠ e) :
    Mirrors e step t Q (Logged.quiet (.error f) : Logged ε σ α) (.error f) where
  same := rfl
  avoids equal := other (Except.error.inj equal)
  leads := ⟨t, .nil, fun _ equal => by cases equal⟩

theorem bind {x : Logged ε σ α} {y : Except ε α} {f : α → Logged ε σ β} {g : α → Except ε β}
    (first : Mirrors e step t Q x y)
    (others : ∀ a t', Q a t' → Mirrors e step t' R (f a) (g a)) :
    Mirrors e step t R (x >>= f) (y >>= g) := by
  obtain ⟨t₁, leads₁, fits⟩ := first.leads
  cases y with
  | error fault =>
      have resultEq : x >>= f = ⟨.error fault, x.log⟩ := by
        simp only [Bind.bind, Logged.bind, first.same]
      rw [resultEq]
      exact ⟨rfl, fun equal => first.avoids (by cases equal; rfl), t₁, leads₁,
        fun _ equal => by cases equal⟩
  | ok a =>
      have resultEq : x >>= f = ⟨(f a).result, x.log ++ (f a).log⟩ := by
        simp only [Bind.bind, Logged.bind, first.same]
      have next := others a t₁ (fits a rfl)
      obtain ⟨t', leads', fits'⟩ := next.leads
      rw [resultEq]
      exact ⟨next.same, next.avoids, t', leads₁.append leads', fits'⟩

theorem mono {P : α → τ → Prop} {x : Logged ε σ α} {y : Except ε α}
    (mirrors : Mirrors e step t P x y) (weaker : ∀ a t', P a t' → Q a t') :
    Mirrors e step t Q x y where
  same := mirrors.same
  avoids := mirrors.avoids
  leads := by
    obtain ⟨t', leads, fits⟩ := mirrors.leads
    exact ⟨t', leads, fun a returned => weaker a t' (fits a returned)⟩

/-- A computation that logs nothing. -/
theorem lift {P : α → Prop} {y : Except ε α} (avoids : Avoids e P y) :
    Mirrors e step t (fun a t' => t' = t ∧ P a) (liftM y : Logged ε σ α) y where
  same := rfl
  avoids := avoids.ne
  leads := ⟨t, .nil, fun _ returned => ⟨rfl, avoids.ok returned⟩⟩

/-- A computation that logs one step. -/
theorem noting {P : α → Prop} {y : Except ε α} {entry : α → σ} (avoids : Avoids e P y)
    (steps : ∀ a, P a → ∃ t', step t (entry a) t' ∧ Q a t') :
    Mirrors e step t Q (Logged.noting y entry) y where
  same := by cases y <;> rfl
  avoids := avoids.ne
  leads := by
    cases y with
    | error fault => exact ⟨t, .nil, fun _ equal => by cases equal⟩
    | ok a =>
        obtain ⟨t', first, fits⟩ := steps a avoids
        refine ⟨t', .cons first .nil, fun b equal => ?_⟩
        cases equal
        exact fits

/-- What follows a computation that is one of two. -/
theorem bindIte {c : Prop} [Decidable c] {x₁ x₂ : Logged ε σ α} {y₁ y₂ : Except ε α}
    {f : α → Logged ε σ β} {g : α → Except ε β} (first : Mirrors e step t Q x₁ y₁)
    (second : Mirrors e step t Q x₂ y₂)
    (others : ∀ a t', Q a t' → Mirrors e step t' R (f a) (g a)) :
    Mirrors e step t R (if c then x₁ >>= f else x₂ >>= f) (if c then y₁ >>= g else y₂ >>= g) := by
  by_cases choice : c
  · rw [if_pos choice, if_pos choice]
    exact first.bind others
  · rw [if_neg choice, if_neg choice]
    exact second.bind others

/-- Two branches of a choice. -/
theorem ite {c : Prop} [Decidable c] {x₁ x₂ : Logged ε σ α} {y₁ y₂ : Except ε α}
    (first : c → Mirrors e step t Q x₁ y₁) (second : ¬c → Mirrors e step t Q x₂ y₂) :
    Mirrors e step t Q (if c then x₁ else x₂) (if c then y₁ else y₂) := by
  by_cases choice : c
  · rw [if_pos choice, if_pos choice]
    exact first choice
  · rw [if_neg choice, if_neg choice]
    exact second choice

end Mirrors

end AkLisp.Outcome
