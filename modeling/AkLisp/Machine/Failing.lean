import AkLisp.Machine.Tally

/-!
# Calls that cannot be carried out

A call instruction fails when its name is undefined, when the value of the name
is not a function, and when the C function it calls returns a null pointer.
None of these exits pushes a value, and the first two leave the arguments where
they are.
-/

namespace AkLisp

open Linked

namespace Machine

/-- A call instruction that is reached with its arguments on top of `below`. -/
structure AtCall (m : Machine) (cx : Context) (ip : EntryRef) (rest : List Activation)
    (sym : Symbol) (fn : Option FRef) (below args : List (Cell VRef)) : Prop where
  control_eq : m.control = .branch cx (some ip) :: rest
  fetched : fetch m.funs ip = some (.call sym fn args.length)
  holds : m.stack.Holds (below ++ args)
  intArgc : args.length < 2 ^ 31

/-- The ways a call instruction fails: the machine in which the failure shows,
and the number of values above those below the call that it leaves. -/
inductive CallFails (m : Machine) (cx : Context) (ip : EntryRef) (rest : List Activation)
    (sym : Symbol) (argc : Nat) : Option FRef → Machine → Nat → Prop where
  /-- `akl_bound_function` does not find the variable -/
  | undefined (unbound : m.data.globals sym = none) : CallFails m cx ip rest sym argc none m argc
  /-- `akl_bound_function` finds something else than a function -/
  | notFunction {v} (bound : m.data.globals sym = some v) (other : m.data.function? v = none) :
      CallFails m cx ip rest sym argc none m argc
  /-- a C function comes to its `return NULL` -/
  | null {fn fcx m₁ left} (run : Tallied m [argc] m₁ [left, 0])
      (returns : m₁.control =
        .cfun fcx (.ret none) :: .branch cx (some (ip.1, ip.2 + 1)) :: rest) :
      CallFails m cx ip rest sym argc fn m₁ left

/-- The machine goes on behind the call with one value, `NIL`, in its place. -/
def Balanced (m : Machine) (cx : Context) (ip : EntryRef) (rest : List Activation)
    (below : List (Cell VRef)) : Prop :=
  m.control = .branch cx (some (ip.1, ip.2 + 1)) :: rest ∧
    ∃ c, m.stack.Holds (below ++ [c]) ∧ m.isNil (some c.2) = true

section Failing

variable {m m₁ : Machine} {cx : Context} {ip : EntryRef} {rest : List Activation} {sym : Symbol}
  {fn : Option FRef} {below args : List (Cell VRef)} {left : Nat}

theorem AtCall.layered (call : m.AtCall cx ip rest sym fn below args) :
    Layered cx rest below m [args.length] := by
  refine ⟨below ++ args, ?_, call.holds⟩
  rw [call.control_eq]
  exact .body

/-- What a failing call leaves on the stack, and where the machine goes on. -/
theorem CallFails.leaves (call : m.AtCall cx ip rest sym fn below args)
    (fails : m.CallFails cx ip rest sym args.length fn m₁ left) :
    ∃ m' own, step m₁ = some m' ∧
      m'.control = .branch cx (some (ip.1, ip.2 + 1)) :: rest ∧ m'.data = m₁.data ∧
      own.length = left ∧ m'.stack.Holds (below ++ own) ∧
      ∀ c, own = [c] → aklStackTop m₁.stack = some c.2 := by
  have unresolved (message : String) (bound : m.aklBoundFunction sym fn = .error message) :
      ∃ m' own, step m = some m' ∧
        m'.control = .branch cx (some (ip.1, ip.2 + 1)) :: rest ∧ m'.data = m.data ∧
        own.length = args.length ∧ m'.stack.Holds (below ++ own) ∧
        ∀ c, own = [c] → aklStackTop m.stack = some c.2 := by
    refine ⟨(m.aklRaiseError .error message).goto cx (some (ip.1, ip.2 + 1)) rest, args, ?_, rfl,
      rfl, rfl, call.holds, ?_⟩
    · simp only [step, call.control_eq, call.fetched, execInstr, bound]
    · rintro c rfl
      simp [call.holds.top]
  cases fails with
  | undefined unbound =>
      exact unresolved ("Variable '" ++ sym.text ++ "' is not a found.")
        (by rw [aklBoundFunction, unbound])
  | notFunction bound other =>
      exact unresolved ("Variable '" ++ sym.text ++ "' is not a function")
        (by simp only [aklBoundFunction, bound, other])
  | @null _ fcx _ _ run returns =>
      obtain ⟨cells, layers, holds⟩ := run.layered call.layered
      rw [returns] at layers
      obtain ⟨base, taken, own, rfl, lengthEq, on, caller⟩ := layers.cfun
      obtain ⟨ip', top, -, rfl, topLength⟩ := caller.only
      cases List.length_eq_zero_iff.mp topLength
      obtain ⟨stack, frame, destroyEq, holds'⟩ := Covers.aklFrameDestroy ⟨holds, on⟩
      have stepEq : step m₁ =
          some (m₁.returnCfun fcx (.branch cx (some (ip.1, ip.2 + 1)) :: rest) none) := by
        simp only [step, returns, execCfun]
      refine ⟨_, own, stepEq, rfl, rfl, lengthEq, ?_, ?_⟩
      · have stackEq : (m₁.returnCfun fcx (.branch cx (some (ip.1, ip.2 + 1)) :: rest) none).stack =
            stack := congrArg Prod.fst destroyEq
        rw [stackEq]
        simpa using holds'
      · rintro c rfl
        simp [holds.top]

/-- A failing call is balanced exactly when what it leaves is one `NIL`. -/
theorem failing_call_balanced (call : m.AtCall cx ip rest sym fn below args)
    (fails : m.CallFails cx ip rest sym args.length fn m₁ left) :
    ∃ m', step m₁ = some m' ∧
      (m'.Balanced cx ip rest below ↔ left = 1 ∧ m₁.isNil (aklStackTop m₁.stack) = true) := by
  obtain ⟨m', own, stepEq, controlEq, dataEq, lengthEq, holds, topEq⟩ := fails.leaves call
  refine ⟨m', stepEq, ?_⟩
  constructor
  · rintro ⟨-, c, balanced, nil⟩
    have single : own = [c] := List.append_cancel_left (holds.unique balanced)
    subst single
    rw [isNil, dataEq] at nil
    rw [topEq c rfl]
    exact ⟨lengthEq.symm, nil⟩
  · rintro ⟨rfl, nil⟩
    obtain ⟨c, rfl⟩ := List.length_eq_one_iff.mp lengthEq
    rw [topEq c rfl] at nil
    refine ⟨controlEq, c, holds, ?_⟩
    rw [isNil, dataEq]
    exact nil

end Failing

/-- A machine that comes to a call of the undefined name `foo`, over an argument of the
enclosing call. -/
def fooCall (args : List VRef) : Machine where
  funs := [.user ⟨[], [.call (symbolOf "foo") none args.length], []⟩]
  data := .init
  stack := args.foldl aklStackPush (aklStackPush default Data.aklTrue)
  errors := []
  control := [.branch ⟨"", aklInitList⟩ (some (0, 0))]

theorem fooCall_atCall : (fooCall [Data.aklTrue, Data.aklNil]).AtCall ⟨"", aklInitList⟩ (0, 0) []
    (symbolOf "foo") none [(0, Data.aklTrue)] [(1, Data.aklTrue), (2, Data.aklNil)] where
  control_eq := rfl
  fetched := rfl
  holds := ((StackState.Holds.empty.push _).push _).push _
  intArgc := by decide

theorem fooCall_atCall_nil : (fooCall [Data.aklNil]).AtCall ⟨"", aklInitList⟩ (0, 0) []
    (symbolOf "foo") none [(0, Data.aklTrue)] [(1, Data.aklNil)] where
  control_eq := rfl
  fetched := rfl
  holds := (StackState.Holds.empty.push _).push _
  intArgc := by decide

/-- The call with one argument that is `NIL` is balanced, the one with two is not. -/
theorem failing_call_balanced_foo :
    (∃ m', step (fooCall [Data.aklNil]) = some m' ∧
      m'.Balanced ⟨"", aklInitList⟩ (0, 0) [] [(0, Data.aklTrue)]) ∧
    ∃ m', step (fooCall [Data.aklTrue, Data.aklNil]) = some m' ∧
      ¬m'.Balanced ⟨"", aklInitList⟩ (0, 0) [] [(0, Data.aklTrue)] := by
  constructor
  · rcases failing_call_balanced fooCall_atCall_nil (.undefined rfl) with ⟨m', stepEq, balanced⟩
    exact ⟨m', stepEq, balanced.mpr ⟨rfl, by decide⟩⟩
  · rcases failing_call_balanced fooCall_atCall (.undefined rfl) with ⟨m', stepEq, balanced⟩
    refine ⟨m', stepEq, fun both => ?_⟩
    cases (balanced.mp both).1

/-- The call of `foo` leaves its two arguments to the enclosing call. -/
theorem failing_call_unbalanced :
    ∃ m', step (fooCall [Data.aklTrue, Data.aklNil]) = some m' ∧
      m'.stack.Holds [(0, Data.aklTrue), (1, Data.aklTrue), (2, Data.aklNil)] ∧
      ¬m'.Balanced ⟨"", aklInitList⟩ (0, 0) [] [(0, Data.aklTrue)] := by
  refine ⟨_, rfl, fooCall_atCall.holds, ?_⟩
  rintro ⟨-, c, balanced, -⟩
  have equal := fooCall_atCall.holds.unique balanced
  simp at equal

end Machine

end AkLisp
