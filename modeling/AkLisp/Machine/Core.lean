import AkLisp.List.CallProtocol
import AkLisp.State.Code
import Mathlib.Computability.StateTransition

/-!
# The virtual machine

`akl_ir_exec_branch` runs one function body; a call instruction makes it call
itself through `akl_call_function_bound`, and C functions may call back.  The
nesting of these C calls is an explicit stack of activations, so that the whole
machine takes one step at a time.
-/

namespace AkLisp

/-- The fields of a `struct akl_context` that execution reads.  `cx_stack` is
the same for all contexts of a run. -/
structure Context where
  cxFuncName : String
  cxFrame : AklList

/-- A C call in progress. -/
inductive Activation where
  /-- `akl_ir_exec_branch` at an entry, `none` for a null `ip` -/
  | branch (cx : Context) (ip : Option EntryRef)
  /-- a C function with the rest of its run -/
  | cfun (cx : Context) (prog : CProg)
  /-- a C function that waits for `akl_call_function_bound` -/
  | await (cx : Context) (k : Option VRef → CProg)

/-- The interpreter during a run.  The code does not change. -/
structure Machine where
  funs : List AklFunction
  data : Data
  stack : StackState VRef
  errors : List AklError
  control : List Activation

namespace Machine

/-- `akl_raise_error`; `errors` is the log of its calls, without the search for an equal
error that `ErrorState` has. -/
def aklRaiseError (m : Machine) (level : Level) (message : String) : Machine :=
  { m with errors := m.errors ++ [⟨level, message⟩] }

/-- The user function behind a pointer. -/
def ufun? (funs : List AklFunction) (f : FRef) : Option LispFun :=
  funs[f]?.bind AklFunction.ufun?

/-- The instruction at an entry; past the last one `ip` is null. -/
def fetch (funs : List AklFunction) (ip : EntryRef) : Option Instr :=
  (ufun? funs ip.1).bind fun ufun => ufun.ufBody[ip.2]?

/-- `la_branch` of a label, null if the label is unbound. -/
def target (funs : List AklFunction) (l : LabelRef) : Option EntryRef :=
  ((ufun? funs l.fn).bind fun ufun => ufun.ufLabels[l.ind]?).bind Label.laBranch

/-- The C call on top returns a pointer to its caller.  The call instruction
ignores it. -/
def resume (value : Option VRef) : List Activation → List Activation
  | .await cx k :: rest => .cfun cx (k value) :: rest
  | control => control

/-- `akl_call_function_bound` up to the body of the function.  A special form
is not called; its frame is destroyed at once. -/
def aklCallFunctionBound (m : Machine) (name : String) (fn : FRef) (argc : Nat)
    (rest : List Activation) : Machine :=
  let cx : Context := ⟨name, aklInitFrame m.stack argc⟩
  match m.funs[fn]? with
  | some (.cfun cfun) => { m with control := .cfun cx (cfun argc) :: rest }
  | some (.user _) => { m with control := .branch cx (some (fn, 0)) :: rest }
  | _ =>
      { m with
        stack := (aklFrameDestroy m.stack cx.cxFrame).1
        control := resume none rest }

/-- `akl_call_function_bound` behind the body of a user function. -/
def returnBranch (m : Machine) (cx : Context) (rest : List Activation) : Machine :=
  { m with
    stack := (aklFrameDestroy m.stack cx.cxFrame).1
    control := resume (aklStackTop m.stack) rest }

/-- `akl_call_function_bound` behind a C function. -/
def returnCfun (m : Machine) (cx : Context) (rest : List Activation) : Option VRef → Machine
  | none =>
      let m := m.aklRaiseError .error ("Function '" ++ cx.cxFuncName ++ "' gave back NULL")
      { m with
        stack := (aklFrameDestroy m.stack cx.cxFrame).1
        control := resume none rest }
  | some value =>
      let stack := aklStackPush m.stack value
      { m with
        stack := (aklFrameDestroy stack cx.cxFrame).1
        control := resume (some value) rest }

/-- `akl_bound_function` for a call instruction: the prefetched function, or
the one the symbol is bound to now. -/
def aklBoundFunction (m : Machine) (sym : Symbol) (fn : Option FRef) : Except String FRef :=
  match fn with
  | some fn => .ok fn
  | none =>
      match m.data.globals sym with
      | none => .error ("Variable '" ++ sym.text ++ "' is not a found.")
      | some v =>
          match m.data.function? v with
          | none => .error ("Variable '" ++ sym.text ++ "' is not a function")
          | some fn => .ok fn

/-- `AKL_IS_NIL` -/
def isNil (m : Machine) (v : Option VRef) : Bool := m.data.isNil v

/-- The machine with its top activation at `ip`. -/
def goto (m : Machine) (cx : Context) (ip : Option EntryRef) (rest : List Activation) : Machine :=
  { m with control := .branch cx ip :: rest }

/-- One round of the loop of `akl_ir_exec_branch`; `next` is `MOVE_IP`. -/
def execInstr (m : Machine) (cx : Context) (ip : EntryRef) (rest : List Activation)
    (instr : Instr) : Machine :=
  let next := some (ip.1, ip.2 + 1)
  match instr with
  | .nop | .ret => m.goto cx next rest
  | .set sym =>
      match aklStackTop m.stack with
      | some v => { m with data := m.data.aklSetGlobalVar sym v }.goto cx next rest
      | none => m.goto cx next rest
  | .get sym =>
      match m.data.globals sym with
      | none =>
          let (nil, data) := m.data.newNilValue
          let m := m.aklRaiseError .error ("Variable '" ++ sym.text ++ "' is undefined.")
          { m with data, stack := aklStackPush m.stack nil }.goto cx next rest
      | some v => { m with stack := aklStackPush m.stack v }.goto cx next rest
  | .push none =>
      -- the loop is left
      (m.aklRaiseError .warning "Interpreter error: NULL pushed to stack.").returnBranch cx rest
  | .push (some v) => { m with stack := aklStackPush m.stack v }.goto cx next rest
  | .load ind =>
      match aklFrameAt m.stack cx.cxFrame ind with
      | some v => { m with stack := aklStackPush m.stack v }.goto cx next rest
      | none => m.goto cx next rest
  | .call sym fn argc =>
      match m.aklBoundFunction sym fn with
      | .error message => (m.aklRaiseError .error message).goto cx next rest
      | .ok fn => m.aklCallFunctionBound sym.text fn argc (.branch cx next :: rest)
  | .jmp l => m.goto cx (target m.funs l) rest
  | .jt l =>
      let (v, stack) := aklStackPop m.stack
      { m with stack }.goto cx (if m.isNil v then next else target m.funs l) rest
  | .jn l =>
      let (v, stack) := aklStackPop m.stack
      { m with stack }.goto cx (if m.isNil v then target m.funs l else next) rest
  | .branch lt _ =>
      -- the source reads the first operand for both targets
      let (_, stack) := aklStackPop m.stack
      { m with stack }.goto cx (target m.funs lt) rest

/-- One step of a C function. -/
def execCfun (m : Machine) (cx : Context) (rest : List Activation) : CProg → Machine
  | .ret value => m.returnCfun cx rest value
  | .shift k =>
      let (v, stack, cxFrame) := aklFrameShift m.stack cx.cxFrame
      { m with stack, control := .cfun { cx with cxFrame } (k v) :: rest }
  | .pop k =>
      let (v, stack, cxFrame) := aklFramePop m.stack cx.cxFrame
      { m with stack, control := .cfun { cx with cxFrame } (k v) :: rest }
  | .push value k =>
      { m with stack := aklStackPush m.stack value, control := .cfun cx k :: rest }
  | .stackPop k =>
      let (v, stack) := aklStackPop m.stack
      { m with stack, control := .cfun cx (k v) :: rest }
  | .read k => { m with control := .cfun cx (k m.data) :: rest }
  | .write f k => { m with data := f m.data, control := .cfun cx k :: rest }
  | .call name fn argc k =>
      m.aklCallFunctionBound ((name.map Symbol.text).getD "lambda") fn argc (.await cx k :: rest)
  | .raise level message k =>
      let m := m.aklRaiseError level (message cx.cxFuncName)
      { m with control := .cfun cx k :: rest }
  | .abort => { m with control := .await cx (fun _ => .abort) :: rest }

/-- One step of the interpreter, `none` when no C call is left. -/
def step (m : Machine) : Option Machine :=
  match m.control with
  | [] | .await _ _ :: _ => none
  | .branch cx ip :: rest =>
      match ip with
      | none => some (m.returnBranch cx rest)
      | some ip =>
          match fetch m.funs ip with
          | none => some (m.returnBranch cx rest)
          | some instr => some (m.execInstr cx ip rest instr)
  | .cfun cx prog :: rest => some (m.execCfun cx rest prog)

/-- A run of the interpreter. -/
abbrev Reaches (m m' : Machine) : Prop := StateTransition.Reaches step m m'

end Machine

end AkLisp
