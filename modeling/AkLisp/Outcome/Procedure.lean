import Mathlib.Logic.Relation
import Mathlib.Order.WellFounded

/-!
# Recursive procedures

A program is given by its calls, each with a body that makes further calls, one
after the other, and returns or raises an error.  From an equation that runs
each call by its body follow two rules: the recursion rule for preconditions and
postconditions, and that an error of a call is raised by the body of a call it
comes to.  A state that grows along every body grows along every call, and what
a call leaves is kept by the calls it belongs to.
-/

namespace AkLisp.Outcome

variable {ε C : Type} {R : C → Type}

/-- A computation that makes calls.  `R` is the type of the result of a call. -/
inductive Body (ε : Type) (C : Type) (R : C → Type) (α : Type) where
  | ret (a : α)
  | raise (e : ε)
  | call (c : C) (k : R c → Body ε C R α)

namespace Body

variable {α β : Type}

/-- A computation without calls, and what comes behind it. -/
def leaf (x : Except ε β) (k : β → Body ε C R α) : Body ε C R α :=
  match x with
  | .ok b => k b
  | .error e => .raise e

/-- Answer the calls by their results. -/
def run (answer : ∀ c, Except ε (R c)) : Body ε C R α → Except ε α
  | .ret a => .ok a
  | .raise e => .error e
  | .call c k => answer c >>= fun r => (k r).run answer

/-- The body comes to a call. -/
inductive Calls (answer : ∀ c, Except ε (R c)) : Body ε C R α → C → Prop where
  | here {c k} : Calls answer (.call c k) c
  | later {c k r c'} (returned : answer c = .ok r) (next : Calls answer (k r) c') :
      Calls answer (.call c k) c'

/-- The body itself raises an error. -/
inductive Raises (answer : ∀ c, Except ε (R c)) (e : ε) : Body ε C R α → Prop where
  | here : Raises answer e (.raise e)
  | later {c k r} (returned : answer c = .ok r) (next : Raises answer e (k r)) :
      Raises answer e (.call c k)

/-- The calls meet their preconditions, the result has a property and so has an
error that is raised, provided that the results of the calls meet the
postconditions. -/
def Respects (pre : C → Prop) (post : ∀ c, R c → Prop) (Q : α → Prop) (E : ε → Prop) :
    Body ε C R α → Prop
  | .ret a => Q a
  | .raise e => E e
  | .call c k => pre c ∧ ∀ r, post c r → (k r).Respects pre post Q E

variable {answer : ∀ c, Except ε (R c)} {e : ε}

@[simp] theorem run_ret (a : α) : (ret a : Body ε C R α).run answer = .ok a := rfl

@[simp] theorem run_raise (e : ε) : (raise e : Body ε C R α).run answer = .error e := rfl

theorem run_call (c : C) (k : R c → Body ε C R α) :
    (call c k).run answer = answer c >>= fun r => (k r).run answer := rfl

/-- A call whose result is returned. -/
@[simp] theorem run_call_ret (c : C) : (call c .ret).run answer = answer c := by
  cases returned : answer c <;> simp [run, returned, bind, Except.bind]

@[simp] theorem run_leaf (x : Except ε β) (k : β → Body ε C R α) :
    (leaf x k).run answer = x >>= fun b => (k b).run answer := by
  cases x <;> rfl

theorem respects_leaf {pre : C → Prop} {post : ∀ c, R c → Prop} {Q : α → Prop} {E : ε → Prop}
    {x : Except ε β} {k : β → Body ε C R α} (failing : ∀ e, x = .error e → E e)
    (others : ∀ b, x = .ok b → (k b).Respects pre post Q E) :
    (leaf x k).Respects pre post Q E := by
  cases x with
  | ok b => exact others b rfl
  | error e => exact failing e rfl

/-- A body ends with an error that it raises itself or that a call of it ends
with. -/
theorem run_eq_error_iff (body : Body ε C R α) :
    body.run answer = .error e ↔
      body.Raises answer e ∨ ∃ c, body.Calls answer c ∧ answer c = .error e := by
  induction body with
  | ret a =>
      constructor
      · rintro ⟨⟩
      · rintro (⟨⟨⟩⟩ | ⟨c, ⟨⟩, -⟩)
  | raise f =>
      constructor
      · rintro ⟨⟩
        exact .inl .here
      · rintro (⟨⟨⟩⟩ | ⟨c, ⟨⟩, -⟩)
        rfl
  | call c k ih =>
      cases returned : answer c with
      | error f =>
          simp only [run, returned]
          constructor
          · rintro ⟨⟩
            exact .inr ⟨c, .here, returned⟩
          · rintro (raises | ⟨c', calls, failed⟩)
            · cases raises with
              | later returned' _ => cases returned.symm.trans returned'
            · cases calls with
              | here =>
                  cases returned.symm.trans failed
                  rfl
              | later returned' _ => cases returned.symm.trans returned'
      | ok r =>
          have runEq : (call c k).run answer = (k r).run answer := by
            simp only [run, returned]
            rfl
          rw [runEq, ih r]
          constructor
          · rintro (raises | ⟨c', calls, failed⟩)
            · exact .inl (.later returned raises)
            · exact .inr ⟨c', .later returned calls, failed⟩
          · rintro (raises | ⟨c', calls, failed⟩)
            · cases raises with
              | later returned' next =>
                  cases returned.symm.trans returned'
                  exact .inl next
            · cases calls with
              | here => cases returned.symm.trans failed
              | later returned' next =>
                  cases returned.symm.trans returned'
                  exact .inr ⟨c', next, failed⟩

/-- A body comes to its first call, and when this returns, to what comes behind it. -/
theorem calls_call_iff {c c' : C} {r : R c} {k : R c → Body ε C R α} (returned : answer c = .ok r) :
    (call c k).Calls answer c' ↔ c' = c ∨ (k r).Calls answer c' := by
  constructor
  · intro calls
    cases calls with
    | here => exact .inl rfl
    | later returned' next =>
        cases returned.symm.trans returned'
        exact .inr next
  · rintro (rfl | next)
    · exact .here
    · exact .later returned next

theorem not_calls_ret {a : α} {c : C} : ¬(ret a : Body ε C R α).Calls answer c := by
  rintro ⟨⟩

/-- What a body that respects its obligations does when its calls keep their
postconditions. -/
theorem Respects.run {pre : C → Prop} {post : ∀ c, R c → Prop} {Q : α → Prop} {E : ε → Prop}
    {body : Body ε C R α} (respects : body.Respects pre post Q E)
    (kept : ∀ c, body.Calls answer c → pre c → ∀ r, answer c = .ok r → post c r) :
    (∀ a, body.run answer = .ok a → Q a) ∧ (∀ c, body.Calls answer c → pre c) ∧
      ∀ e, body.Raises answer e → E e := by
  induction body with
  | ret a =>
      refine ⟨?_, ?_, ?_⟩
      · rintro _ ⟨⟩
        exact respects
      · rintro c ⟨⟩
      · rintro e ⟨⟩
  | raise f =>
      refine ⟨?_, ?_, ?_⟩
      · rintro a ⟨⟩
      · rintro c ⟨⟩
      · rintro e ⟨⟩
        exact respects
  | call c k ih =>
      obtain ⟨first, others⟩ := respects
      have after (r : R c) (returned : answer c = .ok r) :=
        ih r (others r (kept c .here first r returned)) fun c' calls =>
          kept c' (.later returned calls)
      refine ⟨?_, ?_, ?_⟩
      · intro a ran
        cases returned : answer c with
        | error f =>
            simp only [Body.run, returned] at ran
            cases ran
        | ok r =>
            simp only [Body.run, returned] at ran
            exact (after r returned).1 a ran
      · intro c' calls
        cases calls with
        | here => exact first
        | later returned next => exact (after _ returned).2.1 c' next
      · intro e raises
        cases raises with
        | later returned next => exact (after _ returned).2.2 e next

section Growth

variable {S : Type}

/-- Along the body the state grows: up to the start of each call, and from what
the call leaves to what comes next.  `start` and `out` are the states a call
starts in and leaves, `last` the one the body leaves. -/
def Grows (le : S → S → Prop) (start : C → S) (out : ∀ c, R c → S) (last : α → S) :
    S → Body ε C R α → Prop
  | s, .ret a => le s (last a)
  | _, .raise _ => True
  | s, .call c k => le s (start c) ∧ ∀ r, (k r).Grows le start out last (out c r)

variable {le : S → S → Prop} {start : C → S} {out : ∀ c, R c → S} {last : α → S} {s : S}

theorem grows_leaf {x : Except ε β} {k : β → Body ε C R α}
    (others : ∀ b, x = .ok b → (k b).Grows le start out last s) :
    (leaf x k).Grows le start out last s := by
  cases x with
  | ok b => exact others b rfl
  | error e => trivial

/-- The state may be larger already. -/
theorem Grows.of_le (trans : ∀ ⦃s t u⦄, le s t → le t u → le s u) {t : S} (less : le s t)
    {body : Body ε C R α} (grows : body.Grows le start out last t) :
    body.Grows le start out last s := by
  cases body with
  | ret a => exact trans less grows
  | raise e => trivial
  | call c k => exact ⟨trans less grows.1, grows.2⟩

/-- A body that returns leaves a larger state, also than each of its calls, which
all return. -/
theorem Grows.run (trans : ∀ ⦃s t u⦄, le s t → le t u → le s u) {body : Body ε C R α}
    (grows : body.Grows le start out last s)
    (calls : ∀ c, body.Calls answer c → ∀ r, answer c = .ok r → le (start c) (out c r)) {a : α}
    (ran : body.run answer = .ok a) :
    le s (last a) ∧ ∀ c, body.Calls answer c → ∃ r, answer c = .ok r ∧ le (out c r) (last a) := by
  induction body generalizing s with
  | ret b =>
      cases ran
      refine ⟨grows, ?_⟩
      rintro c ⟨⟩
  | raise e => cases ran
  | call c k ih =>
      obtain ⟨first, others⟩ := grows
      cases returned : answer c with
      | error e =>
          simp only [Body.run, returned] at ran
          cases ran
      | ok r =>
          have runEq : (call c k).run answer = (k r).run answer := by
            simp only [Body.run, returned]
            rfl
          rw [runEq] at ran
          obtain ⟨larger, later⟩ := ih r (others r)
            (fun c' called => calls c' (.later returned called)) ran
          refine ⟨trans first (trans (calls c .here r returned) larger), ?_⟩
          intro c' called
          cases called with
          | here => exact ⟨r, returned, larger⟩
          | later returned' next =>
              cases returned.symm.trans returned'
              exact later c' next

end Growth

end Body

/-- Calls with their bodies, which run as the bodies say and come to smaller
calls only. -/
structure Procedures (ε C : Type) (R : C → Type) where
  run : ∀ c, Except ε (R c)
  body : ∀ c, Body ε C R (R c)
  unfolds : ∀ c, run c = (body c).run run
  rank : C → Nat
  smaller : ∀ c, (body c).Respects (fun c' => rank c' < rank c) (fun _ _ => True) (fun _ => True)
    fun _ => True

namespace Procedures

variable (P : Procedures ε C R)

/-- A call comes directly to another one. -/
def Calls (c c' : C) : Prop := (P.body c).Calls P.run c'

/-- A call comes to another one. -/
def ComesTo : C → C → Prop := Relation.ReflTransGen P.Calls

variable {P}

theorem Calls.rank_lt {c c' : C} (calls : P.Calls c c') : P.rank c' < P.rank c :=
  ((P.smaller c).run fun _ _ _ _ _ => trivial).2.1 c' calls

/-- Induction over the calls a call comes to. -/
theorem induction {motive : C → Prop}
    (step : ∀ c, (∀ c', P.Calls c c' → motive c') → motive c) (c : C) : motive c := by
  induction rankEq : P.rank c using Nat.strong_induction_on generalizing c with
  | _ n ih =>
    subst rankEq
    exact step c fun c' calls => ih (P.rank c') calls.rank_lt c' rfl

/-- An error is raised by the body of a call that is come to. -/
theorem run_eq_error_iff {c : C} {e : ε} :
    P.run c = .error e ↔ ∃ c', P.ComesTo c c' ∧ (P.body c').Raises P.run e := by
  constructor
  · induction c using P.induction with
    | step c ih =>
        rw [P.unfolds, Body.run_eq_error_iff]
        rintro (raises | ⟨c₁, calls, failed⟩)
        · exact ⟨c, .refl, raises⟩
        · obtain ⟨c', comes, raises⟩ := ih c₁ calls failed
          exact ⟨c', .head calls comes, raises⟩
  · rintro ⟨c', comes, raises⟩
    induction comes using Relation.ReflTransGen.head_induction_on with
    | refl =>
        rw [P.unfolds, Body.run_eq_error_iff]
        exact .inl raises
    | @head c c₁ calls _ ih =>
        rw [P.unfolds, Body.run_eq_error_iff]
        exact .inr ⟨c₁, calls, ih⟩

/-- The recursion rule: if bodies respect the obligations, calls return what
they promise, make calls that meet their preconditions, and fail with an error
that the body of such a call is allowed to raise. -/
theorem recursion {pre : C → Prop} {post : ∀ c, R c → Prop} {exc : C → ε → Prop}
    (bodies : ∀ c, pre c → (P.body c).Respects pre post (post c) (exc c)) (c : C) (met : pre c) :
    (∀ r, P.run c = .ok r → post c r) ∧ (∀ c', P.ComesTo c c' → pre c') ∧
      ∀ e, P.run c = .error e → ∃ c', P.ComesTo c c' ∧ pre c' ∧ exc c' e := by
  have returns : ∀ c, pre c → ∀ r, P.run c = .ok r → post c r := by
    intro c
    induction c using P.induction with
    | step c ih =>
        intro met r ran
        rw [P.unfolds] at ran
        exact ((bodies c met).run fun c' calls => ih c' calls).1 r ran
  have bodyRuns (c : C) (met : pre c) := (bodies c met).run fun c' _ met' => returns c' met'
  have comes : ∀ c', P.ComesTo c c' → pre c' := by
    intro c' comes
    induction comes with
    | refl => exact met
    | @tail c₁ c' _ calls ih => exact (bodyRuns c₁ ih).2.1 c' calls
  refine ⟨returns c met, comes, fun e failed => ?_⟩
  obtain ⟨c', comesTo, raises⟩ := run_eq_error_iff.mp failed
  exact ⟨c', comesTo, comes c' comesTo, (bodyRuns c' (comes c' comesTo)).2.2 e raises⟩

/-- An error of a call is one of every call that comes to it. -/
theorem ComesTo.error {c c' : C} (comes : P.ComesTo c c') {e : ε} (failed : P.run c' = .error e) :
    P.run c = .error e := by
  obtain ⟨c'', further, raises⟩ := run_eq_error_iff.mp failed
  exact run_eq_error_iff.mpr ⟨c'', comes.trans further, raises⟩

/-- If the state grows along every body, a call that returns leaves a larger state
than the one it starts in, and than the one each call leaves that it comes to. -/
theorem growth {S : Type} {le : S → S → Prop} {start : C → S} {out : ∀ c, R c → S}
    (refl : ∀ s, le s s) (trans : ∀ ⦃s t u⦄, le s t → le t u → le s u)
    (bodies : ∀ c, (P.body c).Grows le start out (out c) (start c)) {c : C} {r : R c}
    (ran : P.run c = .ok r) :
    le (start c) (out c r) ∧
      ∀ c', P.ComesTo c c' → ∃ r', P.run c' = .ok r' ∧ le (out c' r') (out c r) := by
  have larger : ∀ c r, P.run c = .ok r → le (start c) (out c r) := by
    intro c
    induction c using P.induction with
    | step c ih =>
        intro r ran
        rw [P.unfolds] at ran
        exact ((bodies c).run trans ih ran).1
  refine ⟨larger c r ran, fun c' comes => ?_⟩
  induction comes with
  | refl => exact ⟨r, ran, refl _⟩
  | @tail c₁ c' _ called ih =>
      obtain ⟨r₁, ran₁, le₁⟩ := ih
      rw [P.unfolds] at ran₁
      obtain ⟨r', ran', le'⟩ := ((bodies c₁).run trans (fun c _ => larger c) ran₁).2 c' called
      exact ⟨r', ran', trans le' le₁⟩

end Procedures

end AkLisp.Outcome
