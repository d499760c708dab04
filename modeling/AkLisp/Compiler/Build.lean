import AkLisp.Reader.Parser

/-!
# Building the intermediate representation

The last entry of a non-empty instruction list is a placeholder.  The next
instruction is written into it and a new placeholder is appended, so that the
entry a label is bound to becomes the instruction emitted next.
-/

namespace AkLisp

/-- The part of a compile context the builders read: the function that owns the
instruction list `cx_ir`, and the function under compilation. -/
structure CompContext where
  cxIr : FRef
  cxCompFunc : FRef
  deriving DecidableEq, Repr

/-- `create_or_get_instr` on a list that is empty. -/
def createOrGetInstr (ir : List Instr) : List Instr :=
  if ir = [] then [.nop] else ir

theorem createOrGetInstr_ne_nil (ir : List Instr) : createOrGetInstr ir ≠ [] := by
  unfold createOrGetInstr
  split
  · exact List.cons_ne_nil _ _
  · assumption

/-- `create_instr`, with the operation the caller writes into the entry. -/
def createInstr (ir : List Instr) (instr : Instr) : List Instr :=
  (createOrGetInstr ir).dropLast ++ [instr, .nop]

namespace CompState

variable {σ : Type}

/-- The user function behind a pointer. -/
def ufun (st : CompState σ) (f : FRef) : LispFun :=
  ((st.funs[f]?.bind AklFunction.ufun?).getD default)

/-- Change a user function. -/
def modifyUfun (st : CompState σ) (f : FRef) (g : LispFun → LispFun) : CompState σ :=
  { st with funs := st.funs.modify f fun fn =>
      match fn with
      | .user ufun => .user (g ufun)
      | fn => fn }

/-- Emit an instruction. -/
def emit (cx : CompContext) (st : CompState σ) (instr : Instr) : CompState σ :=
  st.modifyUfun cx.cxIr fun ufun => { ufun with ufBody := createInstr ufun.ufBody instr }

end CompState

variable {σ : Type}

/-- `argument_finder` -/
def argumentFinder (ufun : LispFun) (sym : Symbol) : Option Nat :=
  ufun.ufArgs.findIdx? (· = sym)

def aklBuildPush (cx : CompContext) (st : CompState σ) (arg : Option VRef) : CompState σ :=
  st.emit cx (.push arg)

def aklBuildSet (cx : CompContext) (st : CompState σ) (sym : Symbol) : CompState σ :=
  st.emit cx (.set sym)

def aklBuildGet (cx : CompContext) (st : CompState σ) (sym : Symbol) : CompState σ :=
  st.emit cx (.get sym)

/-- `akl_build_load`: a parameter is loaded, anything else is a global. -/
def aklBuildLoad (cx : CompContext) (st : CompState σ) (sym : Symbol) : CompState σ :=
  match st.funs[cx.cxCompFunc]? with
  | some (.user ufun) =>
      match argumentFinder ufun sym with
      | some ind => st.emit cx (.load ind)
      | none => aklBuildGet cx st sym
  | _ => st

def aklBuildCall (cx : CompContext) (st : CompState σ) (sym : Symbol) (fn : Option FRef)
    (argc : Nat) : CompState σ :=
  st.emit cx (.call sym fn argc)

/-- `akl_build_label`: bind a label to the placeholder, which is created if the
list is still empty. -/
def aklBuildLabel (cx : CompContext) (st : CompState σ) (l : LabelRef) : CompState σ :=
  let st := st.modifyUfun cx.cxIr fun ufun => { ufun with ufBody := createOrGetInstr ufun.ufBody }
  let branch := (st.ufun cx.cxIr).ufBody.length - 1
  st.modifyUfun l.fn fun ufun =>
    { ufun with ufLabels := ufun.ufLabels.modify l.ind fun label =>
        { label with laIr := some cx.cxIr, laBranch := some (cx.cxIr, branch) } }

/-- The operations of `akl_jump_t`. -/
inductive JumpOp where
  | jmp
  | jmpTrue
  | jmpFalse
  deriving DecidableEq, Repr

def JumpOp.instr (l : LabelRef) : JumpOp → Instr
  | .jmp => .jmp l
  | .jmpTrue => .jt l
  | .jmpFalse => .jn l

def aklBuildJump (cx : CompContext) (st : CompState σ) (jt : JumpOp) (l : LabelRef) :
    CompState σ :=
  st.emit cx (jt.instr l)

def aklBuildBranch (cx : CompContext) (st : CompState σ) (lt lf : LabelRef) : CompState σ :=
  st.emit cx (.branch lt lf)

def aklBuildRet (cx : CompContext) (st : CompState σ) : CompState σ :=
  st.emit cx .ret

def aklBuildNop (cx : CompContext) (st : CompState σ) : CompState σ :=
  st.emit cx .nop

/-- `akl_new_labels`: `n` unbound labels of the function under compilation and
the index of the first one. -/
def aklNewLabels (cx : CompContext) (st : CompState σ) (n : Nat) : Nat × CompState σ :=
  let cnt := (st.ufun cx.cxCompFunc).ufLabels.length
  (cnt, st.modifyUfun cx.cxCompFunc fun ufun =>
    { ufun with ufLabels := ufun.ufLabels ++ (List.range n).map fun i => ⟨none, none, i + cnt⟩ })

/-- `akl_new_function` with the fields of a user function initialised. -/
def aklNewUserFunction (st : CompState σ) : FRef × CompState σ :=
  (st.funs.length, { st with funs := st.funs ++ [.user default] })

end AkLisp
