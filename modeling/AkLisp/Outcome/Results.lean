import Mathlib.Init

/-!
# Results of fallible computations

Two computations agree up to a relation when both fail with the same error or
both return and the results are related.  A computation avoids an error when it
does not fail with it and, if it returns, its result has a property.  Both pass
through `bind`, so that a program is compared with another one, or checked for
an error, call by call.  `Returns` says that a computation returns a result
with a property, `Ensures` that its result, if it returns one, has the property.
-/

namespace AkLisp.Outcome

universe u v

variable {ε : Type u} {α β γ δ : Type v}

/-- Both computations fail with one error, or return related results. -/
def Agree (R : α → β → Prop) : Except ε α → Except ε β → Prop
  | .ok a, .ok b => R a b
  | .error e, .error f => e = f
  | _, _ => False

/-- Equal results over related states. -/
def Beside (R : α → β → Prop) (x : γ × α) (y : γ × β) : Prop :=
  x.1 = y.1 ∧ R x.2 y.2

/-- Computations that agree may be followed by continuations that agree on
related results. -/
theorem Agree.bind {R : α → β → Prop} {S : γ → δ → Prop} {x : Except ε α} {y : Except ε β}
    {f : α → Except ε γ} {g : β → Except ε δ} (first : Agree R x y)
    (others : ∀ a b, R a b → Agree S (f a) (g b)) : Agree S (x >>= f) (y >>= g) := by
  cases x with
  | ok a =>
      cases y with
      | ok b => exact others a b first
      | error e => exact False.elim first
  | error e =>
      cases y with
      | ok b => exact False.elim first
      | error f => exact first

/-- The same for computations that return a value and a state. -/
theorem Agree.bindBeside {R : α → β → Prop} {S : γ → δ → Prop} {κ : Type v}
    {x : Except ε (κ × α)} {y : Except ε (κ × β)} {f : κ × α → Except ε γ}
    {g : κ × β → Except ε δ} (first : Agree (Beside R) x y)
    (others : ∀ k a b, R a b → Agree S (f (k, a)) (g (k, b))) : Agree S (x >>= f) (y >>= g) := by
  refine first.bind ?_
  rintro ⟨k, a⟩ ⟨l, b⟩ ⟨equal, related⟩
  obtain rfl : k = l := equal
  exact others k a b related

/-- The computation does not fail with the error, and its result has the property. -/
def Avoids (e : ε) (P : α → Prop) : Except ε α → Prop
  | .ok a => P a
  | .error f => f ≠ e

theorem Avoids.bind {e : ε} {P : α → Prop} {Q : β → Prop} {x : Except ε α} {f : α → Except ε β}
    (first : Avoids e P x) (others : ∀ a, P a → Avoids e Q (f a)) : Avoids e Q (x >>= f) := by
  cases x with
  | ok a => exact others a first
  | error f => exact first

/-- What follows a computation that is one of two. -/
theorem Avoids.bindIte {e : ε} {P : α → Prop} {Q : β → Prop} {c : Prop} [Decidable c]
    {x y : Except ε α} {f : α → Except ε β} (first : Avoids e P x) (second : Avoids e P y)
    (others : ∀ a, P a → Avoids e Q (f a)) : Avoids e Q (if c then x >>= f else y >>= f) := by
  by_cases choice : c
  · rw [if_pos choice]
    exact first.bind others
  · rw [if_neg choice]
    exact second.bind others

theorem Avoids.mono {e : ε} {P Q : α → Prop} {x : Except ε α} (avoids : Avoids e P x)
    (weaker : ∀ a, P a → Q a) : Avoids e Q x := by
  cases x with
  | ok a => exact weaker a avoids
  | error f => exact avoids

theorem Avoids.ne {e : ε} {P : α → Prop} {x : Except ε α} (avoids : Avoids e P x) :
    x ≠ .error e := by
  rintro rfl
  exact avoids rfl

theorem Avoids.of_ne {e : ε} {x : Except ε α} (other : x ≠ .error e) :
    Avoids e (fun a => x = .ok a) x := by
  cases x with
  | ok a => exact rfl
  | error f => exact fun equal => other (congrArg Except.error equal)

theorem Avoids.ok {e : ε} {P : α → Prop} {x : Except ε α} (avoids : Avoids e P x) {a : α}
    (returned : x = .ok a) : P a := by
  subst returned
  exact avoids

/-- The computation returns a result with the property. -/
def Returns (P : α → Prop) : Except ε α → Prop
  | .ok a => P a
  | .error _ => False

theorem Returns.bind {P : α → Prop} {Q : β → Prop} {x : Except ε α} {f : α → Except ε β}
    (first : Returns P x) (others : ∀ a, P a → Returns Q (f a)) : Returns Q (x >>= f) := by
  cases x with
  | ok a => exact others a first
  | error f => exact False.elim first

theorem Returns.mono {P Q : α → Prop} {x : Except ε α} (returns : Returns P x)
    (weaker : ∀ a, P a → Q a) : Returns Q x := by
  cases x with
  | ok a => exact weaker a returns
  | error f => exact returns

theorem Returns.exists {P : α → Prop} {x : Except ε α} (returns : Returns P x) :
    ∃ a, x = .ok a ∧ P a := by
  cases x with
  | ok a => exact ⟨a, rfl, returns⟩
  | error f => exact False.elim returns

/-- If the computation returns, its result has the property. -/
def Ensures (P : α → Prop) : Except ε α → Prop
  | .ok a => P a
  | .error _ => True

theorem Ensures.bind {P : α → Prop} {Q : β → Prop} {x : Except ε α} {f : α → Except ε β}
    (first : Ensures P x) (others : ∀ a, P a → Ensures Q (f a)) : Ensures Q (x >>= f) := by
  cases x with
  | ok a => exact others a first
  | error f => trivial

theorem Ensures.mono {P Q : α → Prop} {x : Except ε α} (ensures : Ensures P x)
    (weaker : ∀ a, P a → Q a) : Ensures Q x := by
  cases x with
  | ok a => exact weaker a ensures
  | error f => trivial

theorem Ensures.any {x : Except ε α} : Ensures (fun _ => True) x := by
  cases x with
  | ok a => trivial
  | error f => trivial

/-- What follows a computation that is one of two. -/
theorem Ensures.bindIte {P : α → Prop} {Q : β → Prop} {c : Prop} [Decidable c]
    {x y : Except ε α} {f : α → Except ε β} (first : Ensures P x) (second : Ensures P y)
    (others : ∀ a, P a → Ensures Q (f a)) : Ensures Q (if c then x >>= f else y >>= f) := by
  by_cases choice : c
  · rw [if_pos choice]
    exact first.bind others
  · rw [if_neg choice]
    exact second.bind others

theorem Ensures.ok {P : α → Prop} {x : Except ε α} (ensures : Ensures P x) {a : α}
    (returned : x = .ok a) : P a := by
  subst returned
  exact ensures

end AkLisp.Outcome
