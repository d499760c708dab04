import AkLisp.State.Data

/-!
# Functions and their intermediate representation

A user function owns its instruction list and its label table.  A label names
an entry of an instruction list by the function that owns the list and the
entry's position in it.  A C function is given by what it does to its frame, to
the stack and to the data, one operation after the other.
-/

namespace AkLisp

/-- Pointer to a `struct akl_label`: the function whose `uf_labels` holds it
and its index there. -/
structure LabelRef where
  fn : FRef
  ind : Nat
  deriving DecidableEq, Repr

/-- Pointer to an entry of an instruction list. -/
abbrev EntryRef := FRef × Nat

/-- `struct akl_label`. -/
structure Label where
  laIr : Option FRef
  laBranch : Option EntryRef
  laInd : Nat
  deriving DecidableEq, Repr

/-- `struct akl_ir_instruction`: the operation with its operands.  The operations
that only the assembler can emit, which is compiled out, are left out. -/
inductive Instr where
  | nop
  | push (value : Option VRef)
  | load (uiNum : Nat)
  | call (symbol : Symbol) (inFun : Option FRef) (uiNum : Nat)
  | get (symbol : Symbol)
  | set (symbol : Symbol)
  | branch (lt lf : LabelRef)
  | jmp (label : LabelRef)
  | jt (label : LabelRef)
  | jn (label : LabelRef)
  | ret
  deriving DecidableEq

/-- `struct akl_lisp_fun`. -/
structure LispFun where
  ufArgs : List Symbol
  ufBody : List Instr
  ufLabels : List Label
  deriving DecidableEq

instance : Inhabited LispFun := ⟨⟨[], [], []⟩⟩

/-- The special forms of `akl_spec_forms`. -/
inductive SForm where
  | sif
  | lambda
  | when
  | swhile
  | defun
  | set
  deriving DecidableEq, Repr

/-- Severity of a report. -/
inductive Level where
  | warning
  | error
  deriving DecidableEq, Repr

/-- The rest of the run of a C function, up to its `return`. -/
inductive CProg where
  /-- return a value, or `NULL` -/
  | ret (value : Option VRef)
  /-- `akl_frame_shift` -/
  | shift (k : Option VRef → CProg)
  /-- `akl_frame_pop` -/
  | pop (k : Option VRef → CProg)
  /-- `akl_stack_push` -/
  | push (value : VRef) (k : CProg)
  /-- `akl_stack_pop` -/
  | stackPop (k : Option VRef → CProg)
  /-- look at the data -/
  | read (k : Data → CProg)
  /-- change the data -/
  | write (f : Data → Data) (k : CProg)
  /-- `akl_call_function_bound` on a context bound to a function -/
  | call (name : Option Symbol) (fn : FRef) (argc : Nat) (k : Option VRef → CProg)
  /-- `akl_raise_error` with a message that may contain `cx_func_name` -/
  | raise (level : Level) (message : String → String) (k : CProg)
  /-- a failed assertion, behind which nothing happens -/
  | abort

/-- `fn_type` together with `fn_body`. -/
inductive AklFunction where
  | cfun (cfun : Nat → CProg)
  | special (form : SForm)
  | user (ufun : LispFun)

instance : Inhabited AklFunction := ⟨.user default⟩

/-- The body of a user function, `none` for another function. -/
def AklFunction.ufun? : AklFunction → Option LispFun
  | .user ufun => some ufun
  | _ => none

/-- A call of `akl_raise_error`. -/
structure AklError where
  level : Level
  message : String
  deriving DecidableEq, Repr

/-- The name of a symbol inside a message. -/
def Symbol.text (sym : Symbol) : String :=
  String.ofList (sym.sbName.map fun ch => Char.ofNat ch.toNat)

end AkLisp
