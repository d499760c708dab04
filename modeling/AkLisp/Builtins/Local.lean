import AkLisp.Builtins.Arguments
import AkLisp.Semantics.Logic

/-!
# C functions without callbacks

Most C functions take their arguments off the frame, look at the data and change them,
raise errors and return a value.  What such a function does with its frame and the data
makes it a C function of the machine, and what is known of every call with some arguments
is known of an application to them.
-/

namespace AkLisp

open Linked Evaluation

/-- What a C function does in the context of its call. -/
abbrev LocalFn := CallState → Except Fault (VRef × CallState)

/-- A call with these arguments and nothing below them. -/
def CallState.ofArgs (name : String) (d : Data) (args : List VRef) : CallState :=
  start name (args.foldl aklStackPush default) args.length d []

theorem StackState.Holds.pushed (args : List VRef) : ∃ cells : List (Cell VRef),
    (args.foldl aklStackPush (default : StackState VRef)).Holds cells ∧
      cells.map Prod.snd = args := by
  induction args using List.reverseRecOn with
  | nil => exact ⟨[], StackState.Holds.empty, rfl⟩
  | append_singleton args v ih =>
      rcases ih with ⟨cells, holds, valuesEq⟩
      rw [List.foldl_append]
      refine ⟨_, holds.push v, ?_⟩
      rw [List.map_append, valuesEq]
      rfl

theorem CallState.On.ofArgs (name : String) (d : Data) {args : List VRef}
    (few : args.length < 2 ^ 31) : (CallState.ofArgs name d args).On args := by
  rcases StackState.Holds.pushed args with ⟨cells, holds, valuesEq⟩
  have countEq : cells.length = args.length := by rw [← valuesEq, List.length_map]
  have called := CallState.On.call (show StackState.Holds _ ([] ++ cells) from holds)
    (by rw [countEq]; exact few) name d []
  rw [countEq, valuesEq] at called
  exact called

namespace CProg

/-- The arguments are taken one after the other, as far as they are there: behind the last
one `akl_frame_shift` returns `NULL`. -/
def takeArgs : Nat → (List VRef → CProg) → CProg
  | 0, k => k []
  | argc + 1, k => .shift fun
      | none => k []
      | some v => takeArgs argc fun vs => k (v :: vs)

/-- Errors are raised one after the other. -/
def raiseAll : List (Level × (String → String)) → CProg → CProg
  | [], k => k
  | (level, message) :: errors, k => .raise level message (raiseAll errors k)

/-- The C function of the machine.  The messages may contain the name it is called by. -/
def ofLocal (fn : LocalFn) (argc : Nat) : CProg :=
  takeArgs argc fun args => .read fun d =>
    match fn (.ofArgs "" d args) with
    | .error _ => .abort
    | .ok (v, ctx) =>
        let message (i : Nat) (name : String) : String :=
          match fn (.ofArgs name d args) with
          | .error _ => ""
          | .ok (_, ctx) => (ctx.errors[i]?.map AklError.message).getD ""
        .write (fun _ => ctx.data)
          (raiseAll (ctx.errors.mapIdx fun i error => (error.level, message i)) (.ret (some v)))

/-- So does one that always returns. -/
def ofTotal (fn : CallState → VRef × CallState) : Nat → CProg := ofLocal fun cx => .ok (fn cx)

theorem outcome_takeArgs (vs : List VRef) (k : List VRef → CProg) (d : Data) :
    (takeArgs vs.length k).outcome vs d = (k vs).outcome [] d := by
  induction vs generalizing k with
  | nil => rfl
  | cons v vs ih => exact ih fun vs => k (v :: vs)

theorem outcome_raiseAll (errors : List (Level × (String → String))) (k : CProg)
    (vs : List VRef) (d : Data) : (raiseAll errors k).outcome vs d = k.outcome vs d := by
  induction errors with
  | nil => rfl
  | cons error errors ih => exact ih

theorem outcome_ofLocal {fn : LocalFn} {vs : List VRef} {d : Data} {v : VRef} {ctx : CallState}
    (result : fn (.ofArgs "" d vs) = .ok (v, ctx)) :
    (ofLocal fn vs.length).outcome vs d = some (v, ctx.data) := by
  rw [ofLocal, outcome_takeArgs]
  simp only [outcome, result, outcome_raiseAll]

end CProg

/-- An application of a C function without callbacks to arguments, for which every call
returns. -/
theorem total_local {Γ : Program} {f : FRef} {fn : LocalFn} {vs : List VRef} {d : Data}
    {Q : VRef → Data → Prop} (callee : Γ f = some (.cfun (CProg.ofLocal fn)))
    (few : vs.length < 2 ^ 31)
    (spec : ∀ ctx : CallState, ctx.data = d → ctx.On vs →
      ∃ v ctx', fn ctx = .ok (v, ctx') ∧ d ≤ ctx'.data ∧ Q v ctx'.data) :
    Total (Γ.apply f vs) d Q := by
  rcases spec _ rfl (CallState.On.ofArgs "" d few) with ⟨v, ctx', result, later, holds⟩
  exact total_applyCfun callee few (total_outcome (CProg.outcome_ofLocal result) later holds)

end AkLisp
