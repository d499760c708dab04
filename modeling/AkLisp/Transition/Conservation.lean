import Mathlib.Data.Option.Basic

/-!
# What a run keeps

Steps with an input, each of which may be impossible.  A property that holds at the start of a run
holds in all its states if each step is made in a state in which it keeps the property, and in no
other run, if these are the only states in which it does.
-/

namespace AkLisp.Transition

universe u v

variable {ι : Type u} {σ : Type v}

/-- The state after all steps. -/
def runs (step : ι → σ → Option σ) : List ι → σ → Option σ
  | [], s => some s
  | i :: is, s => (step i s).bind (runs step is)

/-- The property holds in every state of the run. -/
def Throughout (step : ι → σ → Option σ) (P : σ → Prop) (is : List ι) (s : σ) : Prop :=
  ∀ before after s', is = before ++ after → runs step before s = some s' → P s'

/-- The relation holds of every step of the run and the state in which it is made. -/
def EachStep (step : ι → σ → Option σ) (R : ι → σ → Prop) (is : List ι) (s : σ) : Prop :=
  ∀ before i after s', is = before ++ i :: after → runs step before s = some s' → R i s'

section

variable {step : ι → σ → Option σ} {P : σ → Prop} {R : ι → σ → Prop} {is : List ι} {i : ι}
  {s s' : σ}

theorem runs_cons (stepped : step i s = some s') : runs step (i :: is) s = runs step is s' := by
  rw [runs, stepped, Option.bind_some]

theorem runs_append (js : List ι) :
    runs step (is ++ js) s = (runs step is s).bind (runs step js) := by
  induction is generalizing s with
  | nil => rfl
  | cons i is ih =>
      rw [List.cons_append, runs, runs, Option.bind_assoc]
      exact congrArg _ (funext fun _ => ih)

theorem runs_singleton : runs step [i] s = step i s := by
  rw [runs]
  cases step i s <;> rfl

theorem throughout_nil : Throughout step P [] s ↔ P s := by
  constructor
  · intro throughout
    exact throughout [] [] s rfl rfl
  · intro holds before after s' split ran
    obtain ⟨rfl, -⟩ := List.append_eq_nil_iff.mp split.symm
    cases ran
    exact holds

theorem throughout_cons (stepped : step i s = some s') :
    Throughout step P (i :: is) s ↔ P s ∧ Throughout step P is s' := by
  constructor
  · intro throughout
    refine ⟨throughout [] (i :: is) s rfl rfl, fun before after t split ran => ?_⟩
    refine throughout (i :: before) after t ?_ ((runs_cons stepped).trans ran)
    rw [split, List.cons_append]
  · rintro ⟨holds, throughout⟩ before after t split ran
    cases before with
    | nil =>
        cases ran
        exact holds
    | cons j before =>
        rw [List.cons_append, List.cons.injEq] at split
        obtain ⟨rfl, split⟩ := split
        rw [runs_cons stepped] at ran
        exact throughout before after t split ran

theorem eachStep_nil : EachStep step R [] s := by
  intro before i after s' split
  have joined : before ++ i :: after ≠ [] := List.append_ne_nil_of_right_ne_nil _ (by simp)
  exact absurd split.symm joined

theorem eachStep_cons (stepped : step i s = some s') :
    EachStep step R (i :: is) s ↔ R i s ∧ EachStep step R is s' := by
  constructor
  · intro each
    refine ⟨each [] i is s rfl rfl, fun before j after t split ran => ?_⟩
    refine each (i :: before) j after t ?_ ((runs_cons stepped).trans ran)
    rw [split, List.cons_append]
  · rintro ⟨holds, each⟩ before j after t split ran
    cases before with
    | nil =>
        cases ran
        rw [List.nil_append, List.cons.injEq] at split
        obtain ⟨rfl, -⟩ := split
        exact holds
    | cons k before =>
        rw [List.cons_append, List.cons.injEq] at split
        obtain ⟨rfl, split⟩ := split
        rw [runs_cons stepped] at ran
        exact each before j after t split ran

/-- Where a step keeps the property exactly under a condition, the property holds throughout a run
exactly if each of its steps meets the condition. -/
theorem throughout_iff
    (keeps : ∀ {i s s'}, P s → step i s = some s' → (P s' ↔ R i s)) {final : σ} (holds : P s)
    (ran : runs step is s = some final) : Throughout step P is s ↔ EachStep step R is s := by
  induction is generalizing s with
  | nil => exact iff_of_true (throughout_nil.mpr holds) eachStep_nil
  | cons i is ih =>
      obtain ⟨s', stepped, ran⟩ := Option.bind_eq_some_iff.mp ran
      rw [throughout_cons stepped, eachStep_cons stepped, and_iff_right holds]
      constructor
      · intro throughout
        have holds' : P s' := throughout [] is s' rfl rfl
        exact ⟨(keeps holds stepped).mp holds', (ih holds' ran).mp throughout⟩
      · rintro ⟨condition, each⟩
        exact (ih ((keeps holds stepped).mpr condition) ran).mpr each

end

end AkLisp.Transition
