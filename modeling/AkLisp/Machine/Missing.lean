import AkLisp.Machine.Tally

/-!
# Parameters without an argument

`LOAD` counts from the first argument of the running function along the chain
of the stack.  Behind the last argument it comes to what the function has
pushed itself; without any argument it counts from the bottom of the stack.
-/

namespace AkLisp

open Linked

namespace Machine

/-- The entry that `akl_frame_at` comes to, for a frame over `args`. -/
def entryAt (below args above : List (Cell VRef)) (ind : Nat) : Option (Cell VRef) :=
  if args ≠ [] then (args ++ above)[ind]?
  else if below ≠ [] then (below ++ above)[ind]?
  else none

theorem entryAt_given {below args above : List (Cell VRef)} {ind : Nat}
    (given : ind < args.length) : entryAt below args above ind = args[ind]? := by
  have nonempty : args ≠ [] := by
    rintro rfl
    simp at given
  rw [entryAt, if_pos nonempty, List.getElem?_append_left given]

/-- Where `akl_frame_at` ends through a frame made before `above` was pushed. -/
theorem frameEntry_eq {s s' : StackState VRef} {below args above : List (Cell VRef)}
    (holds : s.Holds (below ++ args)) (intArgc : args.length < 2 ^ 31)
    (holds' : s'.Holds (below ++ args ++ above)) (ind : Nat) :
    aklListIndexEntry s'.mem (aklInitFrame s args.length) ind =
      (entryAt below args above ind).map Prod.fst := by
  have covers := holds.aklInitFrame intArgc
  rw [entryAt]
  by_cases nonempty : args ≠ []
  · rw [if_pos nonempty]
    exact Covers.entry ⟨holds', covers.on⟩ nonempty ind
  · rw [if_neg nonempty]
    rw [not_not] at nonempty
    subst nonempty
    rw [List.append_nil] at holds holds'
    have headEq : (aklInitFrame s ([] : List (Cell VRef)).length).liHead =
        below.head?.map Prod.fst := holds.aklInitFrame_zero
    cases below with
    | nil =>
        simp only [aklListIndexEntry, headEq]
        rfl
    | cons c below =>
        have holds'' : s'.Holds ([] ++ c :: (below ++ above)) := holds'
        simpa using holds''.indexedEntry headEq ind

/-- The entry is one of the stack. -/
theorem mem_of_entryAt {below args above : List (Cell VRef)} {ind : Nat} {c : Cell VRef}
    (entry : entryAt below args above ind = some c) : c ∈ below ++ args ++ above := by
  unfold entryAt at entry
  split at entry
  · have := List.mem_of_getElem? entry
    simp only [List.mem_append] at this ⊢
    tauto
  · split at entry
    · have := List.mem_of_getElem? entry
      simp only [List.mem_append] at this ⊢
      tauto
    · cases entry

/-- Behind the last argument the count comes to what is no argument. -/
theorem entryAt_missing {below args above : List (Cell VRef)} {ind : Nat} {c : Cell VRef}
    (missing : args.length ≤ ind) (entry : entryAt below args above ind = some c) :
    c ∈ below ++ above := by
  unfold entryAt at entry
  split at entry
  · rw [List.getElem?_append_right missing] at entry
    exact List.mem_append_right _ (List.mem_of_getElem? entry)
  · split at entry
    · exact List.mem_of_getElem? entry
    · cases entry

/-- What `akl_frame_at` finds there. -/
theorem aklFrameAt_eq {s s' : StackState VRef} {below args above : List (Cell VRef)}
    (holds : s.Holds (below ++ args)) (intArgc : args.length < 2 ^ 31)
    (holds' : s'.Holds (below ++ args ++ above)) (ind : Nat) :
    aklFrameAt s' (aklInitFrame s args.length) ind =
      (entryAt below args above ind).map Prod.snd := by
  rw [aklFrameAt, aklListIndex, frameEntry_eq holds intArgc holds']
  cases entry : entryAt below args above ind with
  | none => rfl
  | some c => exact holds'.data c (mem_of_entryAt entry)

/-- The entry of the stack that a reference to parameter `ind` of the running function
takes its value from. -/
def loadedEntry (m : Machine) (ind : Nat) : Option Addr :=
  match m.control with
  | .branch cx _ :: _ => aklListIndexEntry m.stack.mem cx.cxFrame ind
  | _ => none

/-- A reference to parameter `ind` pushes the argument, or `NIL` if none was given, and it
returns neither an entry below the arguments nor one that the body has pushed. -/
structure LoadsParameter (m : Machine) (below args above : List (Cell VRef)) (ind : Nat) :
    Prop where
  pushes : ∃ m' c, step m = some m' ∧ m'.stack.Holds (below ++ args ++ above ++ [c]) ∧
    match args[ind]? with
    | some arg => c.2 = arg.2
    | none => m.isNil (some c.2) = true
  leaksNothing : ∀ c ∈ below ++ above, m.loadedEntry ind ≠ some c.1

section Missing

variable {m m' : Machine} {below args cells : List (Cell VRef)} {cx : Context} {ip : EntryRef}
  {rest : List Activation} {ind own : Nat}

/-- What a `LOAD` does to the stack. -/
theorem step_load (controlEq : m.control = .branch cx (some ip) :: rest)
    (load : fetch m.funs ip = some (.load ind)) (holds : m.stack.Holds cells) :
    ∃ m', step m = some m' ∧
      match aklFrameAt m.stack cx.cxFrame ind with
      | some v => ∃ a, m'.stack.Holds (cells ++ [(a, v)])
      | none => m'.stack.Holds cells := by
  refine ⟨m.execInstr cx ip rest (.load ind), ?_, ?_⟩
  · simp only [step, controlEq, load]
  · simp only [execInstr]
    cases aklFrameAt m.stack cx.cxFrame ind with
    | none => exact holds
    | some v => exact ⟨_, holds.push v⟩

/-- At every point of a tallied run of a user function the arguments are where the
call left them. -/
theorem Tallied.body {name : String} {fn : FRef} {ufun : LispFun}
    (holds : m.stack.Holds (below ++ args)) (user : m.funs[fn]? = some (.user ufun))
    (run : Tallied (m.aklCallFunctionBound name fn args.length rest) [0] m' [own])
    (controlEq : m'.control = .branch cx (some ip) :: rest) :
    cx = ⟨name, aklInitFrame m.stack args.length⟩ ∧
      ∃ above, above.length = own ∧ m'.stack.Holds (below ++ args ++ above) := by
  have calledEq : m.aklCallFunctionBound name fn args.length rest =
      { m with control :=
          .branch ⟨name, aklInitFrame m.stack args.length⟩ (some (fn, 0)) :: rest } := by
    simp only [aklCallFunctionBound, user]
  have began : Layered ⟨name, aklInitFrame m.stack args.length⟩ rest (below ++ args)
      (m.aklCallFunctionBound name fn args.length rest) [0] := by
    rw [calledEq]
    exact ⟨below ++ args, .begin _, holds⟩
  obtain ⟨cells, layers, holds'⟩ := run.layered began
  obtain ⟨ip', above, controlEq', rfl, lengthEq⟩ := layers.only
  rw [controlEq] at controlEq'
  cases controlEq'
  exact ⟨rfl, above, lengthEq, holds'⟩

/-- A reference to a parameter that was given pushes the argument. -/
theorem loadsParameter_given {above : List (Cell VRef)} {name : String}
    (holds : m.stack.Holds (below ++ args)) (intArgc : args.length < 2 ^ 31)
    (controlEq : m'.control =
      .branch ⟨name, aklInitFrame m.stack args.length⟩ (some ip) :: rest)
    (load : fetch m'.funs ip = some (.load ind))
    (holds' : m'.stack.Holds (below ++ args ++ above)) (given : ind < args.length) :
    m'.LoadsParameter below args above ind := by
  have entry : entryAt below args above ind = some args[ind] := by
    rw [entryAt_given given, List.getElem?_eq_getElem given]
  constructor
  · obtain ⟨m'', stepEq, loaded⟩ := step_load controlEq load holds'
    rw [aklFrameAt_eq holds intArgc holds', entry] at loaded
    rcases loaded with ⟨a, loaded⟩
    refine ⟨m'', (a, args[ind].2), stepEq, loaded, ?_⟩
    rw [List.getElem?_eq_getElem given]
  · intro c mem returned
    have same : args[ind].1 = c.1 := by
      simp only [loadedEntry, controlEq] at returned
      rw [frameEntry_eq holds intArgc holds', entry] at returned
      exact Option.some.inj returned
    have nodup := holds'.nodup
    rw [List.map_append, List.map_append] at nodup
    have argument : args[ind].1 ∈ args.map Prod.fst := List.mem_map_of_mem (List.getElem_mem given)
    rcases List.mem_append.mp mem with inBelow | inAbove
    · exact (List.nodup_append.mp (List.nodup_append.mp nodup).1).2.2 c.1
        (List.mem_map_of_mem inBelow) _ argument same.symm
    · exact (List.nodup_append.mp nodup).2.2 _ (List.mem_append_right _ argument) c.1
        (List.mem_map_of_mem inAbove) same

/-- At every point of a tallied run of a user function that was called with `args` on top
of `below`, a reference to a parameter does what it should exactly if the argument was
given: behind the last argument it comes to what lies below the arguments or was pushed by
the body, or to nothing. -/
theorem missing_arguments {name : String} {fn : FRef} {ufun : LispFun}
    (holds : m.stack.Holds (below ++ args)) (intArgc : args.length < 2 ^ 31)
    (user : m.funs[fn]? = some (.user ufun))
    (run : Tallied (m.aklCallFunctionBound name fn args.length rest) [0] m' [own])
    (controlEq : m'.control = .branch cx (some ip) :: rest)
    (load : fetch m'.funs ip = some (.load ind)) :
    ∃ above, above.length = own ∧ m'.stack.Holds (below ++ args ++ above) ∧
      (m'.LoadsParameter below args above ind ↔ ind < args.length) := by
  obtain ⟨rfl, above, lengthEq, holds'⟩ := run.body holds user controlEq
  refine ⟨above, lengthEq, holds', ?_, loadsParameter_given holds intArgc controlEq load holds'⟩
  intro loads
  by_contra missing
  rcases loads.pushes with ⟨last, c, stepEq, pushed, -⟩
  obtain ⟨m'', stepEq', loaded⟩ := step_load controlEq load holds'
  cases stepEq'.symm.trans stepEq
  rw [aklFrameAt_eq holds intArgc holds'] at loaded
  cases entry : entryAt below args above ind with
  | none =>
      -- nothing is pushed
      rw [entry] at loaded
      have equal := loaded.unique pushed
      simp at equal
  | some d =>
      apply loads.leaksNothing d (entryAt_missing (Nat.le_of_not_lt missing) entry)
      simp only [loadedEntry, controlEq]
      rw [frameEntry_eq holds intArgc holds', entry]
      rfl

end Missing

/-- A function of two parameters, which refers to both. -/
def twoParameters : AklFunction :=
  .user ⟨[symbolOf "x", symbolOf "y"], [.load 0, .load 1, .nop], []⟩

/-- A machine in front of a call, with `T` and `NIL` on the stack. -/
def twoPushed : Machine where
  funs := [twoParameters]
  data := .init
  stack := aklStackPush (aklStackPush default Data.aklTrue) Data.aklNil
  errors := []
  control := []

theorem twoPushed_holds :
    twoPushed.stack.Holds ([(0, Data.aklTrue)] ++ [(1, Data.aklNil)]) :=
  (StackState.Holds.empty.push _).push _

/-- It calls the function with the last `argc` of these values. -/
def parameterCall (argc : Nat) : Machine := twoPushed.aklCallFunctionBound "f" 0 argc []

/-- The frame of the call with one argument. -/
def oneArgument : Context := ⟨"f", aklInitFrame twoPushed.stack 1⟩

/-- The call behind its first reference. -/
def behindReference : Machine := (parameterCall 1).execInstr oneArgument (0, 0) [] (.load 0)

/-- With one argument the first parameter is the argument; for the second one the value
that was pushed for the first one is pushed again. -/
theorem missing_arguments_one :
    step (parameterCall 1) = some behindReference ∧
      (∃ above, above.length = 0 ∧
        (parameterCall 1).LoadsParameter [(0, Data.aklTrue)] [(1, Data.aklNil)] above 0) ∧
      ∃ above, above.length = 1 ∧
        ¬behindReference.LoadsParameter [(0, Data.aklTrue)] [(1, Data.aklNil)] above 1 := by
  have user : twoPushed.funs[0]? = some twoParameters := rfl
  refine ⟨rfl, ?_, ?_⟩
  · have running : (parameterCall 1).control = .branch oneArgument (some (0, 0)) :: [] := rfl
    have load : fetch (parameterCall 1).funs (0, 0) = some (.load 0) := rfl
    rcases missing_arguments twoPushed_holds (by decide) user .refl running load with
      ⟨above, lengthEq, -, iff⟩
    exact ⟨above, lengthEq, iff.mpr (by decide)⟩
  · have running : behindReference.control = .branch oneArgument (some (0, 1)) :: [] := rfl
    have load : fetch behindReference.funs (0, 1) = some (.load 1) := rfl
    have run : Tallied (parameterCall 1) [0] behindReference [1] := .head rfl rfl .refl
    rcases missing_arguments twoPushed_holds (by decide) user run running load with
      ⟨above, lengthEq, -, iff⟩
    exact ⟨above, lengthEq, fun loads => absurd (iff.mp loads) (by decide)⟩

/-- Without an argument the reference pushes the value of the enclosing call, also where
this is `NIL`. -/
theorem missing_argument_leaks :
    (∃ m', step (parameterCall 0) = some m' ∧
      m'.stack.Holds [(0, Data.aklTrue), (1, Data.aklNil), (2, Data.aklTrue)]) ∧
      ¬(parameterCall 0).LoadsParameter [(0, Data.aklTrue), (1, Data.aklNil)] [] [] 0 := by
  constructor
  · exact ⟨_, rfl, twoPushed_holds.push Data.aklTrue⟩
  · intro loads
    exact loads.leaksNothing (0, Data.aklTrue) List.mem_cons_self rfl

end Machine

end AkLisp
