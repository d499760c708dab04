import AkLisp.List.CallProtocol
import AkLisp.State.Code

/-!
# What a C function does with its frame

A C function takes its arguments from the frame of its context, reports errors and
leaves what it has not taken for `akl_frame_destroy`.  The specifications are about
the values of the entries that the frame still covers.
-/

namespace AkLisp

open Linked

/-- The context of a C function during its call, with the parts of the interpreter
that it works on. -/
structure CallState where
  cxFuncName : String
  cxFrame : AklList
  stack : StackState VRef
  data : Data
  errors : List AklError

namespace CallState

/-- How `akl_call_function_bound` starts a C function with the last `argc` values of
the stack. -/
def start (name : String) (stack : StackState VRef) (argc : Nat) (d : Data)
    (errors : List AklError) : CallState :=
  ⟨name, aklInitFrame stack argc, stack, d, errors⟩

/-- `akl_frame_shift` -/
def aklFrameShift (c : CallState) : Option VRef × CallState :=
  let (v, stack, cxFrame) := AkLisp.aklFrameShift c.stack c.cxFrame
  (v, { c with stack, cxFrame })

/-- `akl_frame_pop` -/
def aklFramePop (c : CallState) : Option VRef × CallState :=
  let (v, stack, cxFrame) := AkLisp.aklFramePop c.stack c.cxFrame
  (v, { c with stack, cxFrame })

/-- `akl_raise_error`; `errors` is the log of its calls, whether or not an equal error was
raised before. -/
def aklRaiseError (c : CallState) (level : Level) (message : String) : CallState :=
  { c with errors := c.errors ++ [⟨level, message⟩] }

/-- The loop of `akl_get_args`, from the `cnt`th argument on; `none` for -1. -/
def getArgsLoop : Nat → Nat → CallState → Option (List VRef) × CallState
  | 0, _, c => (some [], c)
  | ac + 1, cnt, c =>
      match c.aklFrameShift with
      | (none, c) =>
          (none, c.aklRaiseError .error
            ("Bug in the interpreter (NULL in stack) at the " ++ toString cnt ++ ". argument"))
      | (some v, c) =>
          match getArgsLoop ac (cnt + 1) c with
          | (none, c) => (none, c)
          | (some vs, c) => (some (v :: vs), c)

/-- The report of `akl_get_args` about the number of the arguments. -/
def countMessage (name : String) (argc count : Nat) : String :=
  name ++ ": Expected " ++ toString argc ++ " argument" ++ (if argc > 1 then "s" else "") ++
    ", but got " ++ toString count

/-- `akl_get_args`: the first `argc` arguments, `none` for the error code -1. -/
def aklGetArgs (c : CallState) (argc : Nat) : Option (List VRef) × CallState :=
  let count := (aklFrameGetCount c.cxFrame).toNat
  if argc ≠ count then
    (none, c.aklRaiseError .error (countMessage c.cxFuncName argc count))
  else c.getArgsLoop argc 1

/-- The frame still covers entries with these values. -/
def On (c : CallState) (args : List VRef) : Prop :=
  ∃ below cells above, Covers c.stack c.cxFrame below cells above ∧ cells.map Prod.snd = args

/-- The two states differ in the stack and the frame only. -/
structure SameButFrame (c c' : CallState) : Prop where
  name : c'.cxFuncName = c.cxFuncName
  data : c'.data = c.data
  errors : c'.errors = c.errors

theorem SameButFrame.trans {c c' c'' : CallState} (first : c.SameButFrame c')
    (second : c'.SameButFrame c'') : c.SameButFrame c'' :=
  ⟨second.name.trans first.name, second.data.trans first.data, second.errors.trans first.errors⟩

namespace On

variable {c : CallState} {args : List VRef}

/-- The frame of a call covers the arguments on top of the stack. -/
theorem call {stack : StackState VRef} {below cells : List (Cell VRef)}
    (holds : stack.Holds (below ++ cells)) (intArgc : cells.length < 2 ^ 31) (name : String)
    (d : Data) (errors : List AklError) :
    (start name stack cells.length d errors).On (cells.map Prod.snd) :=
  ⟨below, cells, [], holds.aklInitFrame intArgc, rfl⟩

/-- Any few arguments can be passed. -/
theorem exists_call (d : Data) (args : List VRef) (intArgc : args.length < 2 ^ 31) :
    ∃ c : CallState, c.data = d ∧ c.On args := by
  have pushed : ∃ (stack : StackState VRef) (cells : List (Cell VRef)),
      stack.Holds ([] ++ cells) ∧ cells.map Prod.snd = args := by
    clear intArgc
    induction args using List.reverseRecOn with
    | nil => exact ⟨default, [], StackState.Holds.empty, rfl⟩
    | append_singleton args v ih =>
        obtain ⟨stack, cells, holds, rfl⟩ := ih
        refine ⟨aklStackPush stack v, cells ++ [(stack.mem.top, v)], holds.push v, ?_⟩
        simp
  obtain ⟨stack, cells, holds, rfl⟩ := pushed
  rw [List.length_map] at intArgc
  exact ⟨_, rfl, On.call holds intArgc "" d []⟩

theorem count (on : c.On args) : (aklFrameGetCount c.cxFrame).toNat = args.length := by
  obtain ⟨below, cells, above, covers, rfl⟩ := on
  rw [aklFrameGetCount, covers.on.count_toNat, List.length_map]

theorem shift {v : VRef} (on : c.On (v :: args)) :
    ∃ c', c.aklFrameShift = (some v, c') ∧ c'.On args ∧ c.SameButFrame c' := by
  obtain ⟨below, cells, above, covers, valuesEq⟩ := on
  cases cells with
  | nil => cases valuesEq
  | cons cell cells =>
      cases valuesEq
      obtain ⟨stack, cxFrame, shiftEq, covers'⟩ := covers.shift
      refine ⟨{ c with stack, cxFrame }, ?_, ⟨below, cells, above, covers', rfl⟩, rfl, rfl, rfl⟩
      simp only [aklFrameShift, shiftEq]

theorem pop {v : VRef} (on : c.On (args ++ [v])) :
    ∃ c', c.aklFramePop = (some v, c') ∧ c'.On args ∧ c.SameButFrame c' := by
  obtain ⟨below, cells, above, covers, valuesEq⟩ := on
  obtain ⟨front, behind, rfl, frontEq, behindEq⟩ := List.map_eq_append_iff.mp valuesEq
  obtain ⟨cell, cellEq, rfl⟩ := List.map_eq_singleton_iff.mp behindEq
  subst cellEq
  obtain ⟨stack, cxFrame, popEq, covers'⟩ := covers.pop
  refine ⟨{ c with stack, cxFrame }, ?_, ⟨below, front, above, covers', frontEq⟩, rfl, rfl, rfl⟩
  simp only [aklFramePop, popEq]

/-- An exhausted frame gives `NULL`. -/
theorem shift_nil (on : c.On []) : c.aklFrameShift = (none, c) := by
  obtain ⟨below, cells, above, covers, valuesEq⟩ := on
  rw [List.map_eq_nil_iff.mp valuesEq] at covers
  simp only [aklFrameShift, covers.shift_nil]

theorem pop_nil (on : c.On []) : c.aklFramePop = (none, c) := by
  obtain ⟨below, cells, above, covers, valuesEq⟩ := on
  rw [List.map_eq_nil_iff.mp valuesEq] at covers
  simp only [aklFramePop, covers.pop_nil]

theorem getArgsLoop (on : c.On args) (cnt : Nat) :
    ∃ c', c.getArgsLoop args.length cnt = (some args, c') ∧ c'.On [] ∧ c.SameButFrame c' := by
  induction args generalizing c cnt with
  | nil => exact ⟨c, rfl, on, rfl, rfl, rfl⟩
  | cons v args ih =>
      obtain ⟨c₁, shiftEq, on₁, same₁⟩ := on.shift
      obtain ⟨c₂, loopEq, on₂, same₂⟩ := ih on₁ (cnt + 1)
      refine ⟨c₂, ?_, on₂, same₁.trans same₂⟩
      simp only [List.length_cons, CallState.getArgsLoop, shiftEq, loopEq]

/-- With the right number of arguments `akl_get_args` gives them all. -/
theorem aklGetArgs (on : c.On args) :
    ∃ c', c.aklGetArgs args.length = (some args, c') ∧ c'.On [] ∧ c.SameButFrame c' := by
  obtain ⟨c', loopEq, on', same⟩ := on.getArgsLoop 1
  refine ⟨c', ?_, on', same⟩
  simp only [CallState.aklGetArgs, on.count, ne_eq, not_true_eq_false, if_false, loopEq]

/-- With another number it raises an error and leaves them in the frame. -/
theorem aklGetArgs_wrong (on : c.On args) {argc : Nat} (wrong : args.length ≠ argc) :
    c.aklGetArgs argc =
      (none, c.aklRaiseError .error (countMessage c.cxFuncName argc args.length)) := by
  simp only [CallState.aklGetArgs, on.count, ne_eq, Ne.symm wrong, not_false_eq_true, if_true]

end On

end CallState

end AkLisp
