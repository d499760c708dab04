import AkLisp.Compiler.Build

/-!
# The special forms

Each form pulls its operands from the device itself, compiling them with
`akl_compile_next`, and emits its own jumps.  A form works on a copy of the
context it is called in.
-/

namespace AkLisp

variable {σ : Type} [TokenSource σ]

/-- `akl_compile_next`: the token it read and, for an operand that is a list,
the function that `akl_compile_list` returned. -/
abbrev CompileNext (σ : Type) :=
  CompContext → CompState σ → Except Fault ((Token × Option FRef) × CompState σ)

/-- The `when` form. -/
def when (aklCompileNext : CompileNext σ) (cx : CompContext) (st : CompState σ) :
    Except Fault (Option FRef × CompState σ) := do
  let (loff, st) := aklNewLabels cx st 1
  let (_, st) ← aklCompileNext cx st
  let st := aklBuildJump cx st .jmpFalse ⟨cx.cxCompFunc, loff⟩
  let (_, st) ← aklCompileNext cx st
  let st := aklBuildLabel cx st ⟨cx.cxCompFunc, loff⟩
  return (none, st)

/-- The `set!` form. -/
def set (aklCompileNext : CompileNext σ) (cx : CompContext) (st : CompState σ) :
    Except Fault (Option FRef × CompState σ) := do
  let (tok, st) ← st.aklLex
  if tok ≠ .tATOM then
    return (none, st.aklRaiseError .error "Unexpected token, (need a valid atom for set!)")
  let (sym, st) ← st.aklLexGetSymbol
  let ((_, fn), st) ← aklCompileNext cx st
  let st :=
    match fn with
    | some fn =>
        let (value, data) := st.data.newFunctionValue fn
        aklBuildPush cx { st with data } (some value)
    | none => st
  return (none, aklBuildSet cx st sym)

/-- The `if` form. -/
def sif (aklCompileNext : CompileNext σ) (cx : CompContext) (st : CompState σ) :
    Except Fault (Option FRef × CompState σ) := do
  let (loff, st) := aklNewLabels cx st 2
  let (_, st) ← aklCompileNext cx st
  let st := aklBuildJump cx st .jmpFalse ⟨cx.cxCompFunc, loff + 1⟩
  let (_, st) ← aklCompileNext cx st
  let st := aklBuildJump cx st .jmp ⟨cx.cxCompFunc, loff⟩
  let st := aklBuildLabel cx st ⟨cx.cxCompFunc, loff + 1⟩
  let (_, st) ← aklCompileNext cx st
  return (none, aklBuildLabel cx st ⟨cx.cxCompFunc, loff⟩)

/-- The `while` form. -/
def swhile (aklCompileNext : CompileNext σ) (cx : CompContext) (st : CompState σ) :
    Except Fault (Option FRef × CompState σ) := do
  let (loff, st) := aklNewLabels cx st 2
  let st := aklBuildLabel cx st ⟨cx.cxCompFunc, loff⟩
  let (_, st) ← aklCompileNext cx st
  let st := aklBuildJump cx st .jmpFalse ⟨cx.cxCompFunc, loff + 1⟩
  let (_, st) ← aklCompileNext cx st
  let st := aklBuildJump cx st .jmp ⟨cx.cxCompFunc, loff⟩
  return (none, aklBuildLabel cx st ⟨cx.cxCompFunc, loff + 1⟩)

/-- The loop of `akl_parse_params`: everything up to the closing parenthesis is
skipped except for atoms. -/
def parseParamsLoop (func : FRef) : Nat → CompState σ → Except Fault (CompState σ)
  | 0, _ => throw .outOfFuel
  | fuel + 1, st => do
      let (tok, st) ← st.aklLex
      match tok with
      | .tRBRACE => return st
      | .tATOM =>
          let (sym, st) ← st.aklLexGetSymbol
          parseParamsLoop func fuel
            (st.modifyUfun func fun ufun => { ufun with ufArgs := ufun.ufArgs ++ [sym] })
      | _ => parseParamsLoop func fuel st

/-- `akl_parse_params` -/
def aklParseParams (fuel : Nat) (st : CompState σ) (fname : String) (func : FRef) :
    Except Fault (CompState σ) := do
  let (tok, st) ← st.aklLex
  match tok with
  | .tNIL => return st
  | .tLBRACE => parseParamsLoop func fuel st
  | _ =>
      return st.aklRaiseError .error
        ("Expected an argument list for function definition '" ++ fname ++ "'")

/-- The part `defun!` and `lambda` share: a string in front of the body is a
documentation string and the token behind it is dropped, any other token is put
back. -/
def skipDocstring (st : CompState σ) : Except Fault (CompState σ) := do
  let (tok, st) ← st.aklLex
  if tok = .tSTRING then
    let (_, st) ← st.takeText
    let (_, st) ← st.aklLex
    return st
  else
    return st.aklLexPutback tok

/-- The `defun!` form. -/
def defun (fuel : Nat) (aklCompileNext : CompileNext σ) (cx : CompContext)
    (st : CompState σ) : Except Fault (Option FRef × CompState σ) := do
  let (func, st) := aklNewUserFunction st
  let (fval, data) := st.data.newFunctionValue func
  let (tok, st) ← CompState.aklLex { st with data }
  if tok ≠ .tATOM then
    return (none, st.aklRaiseError .error
      "Unexpected token, defun! needs a parameter list and a function body")
  let (fsym, st) ← st.aklLexGetSymbol
  let st ← aklParseParams fuel st fsym.text func
  let st ← skipDocstring st
  let st := { st with data := st.data.aklSetGlobalVar fsym fval }
  let (_, st) ← aklCompileNext ⟨func, func⟩ st
  let (value, data) := st.data.newSymValue fsym
  return (some func, aklBuildPush ⟨cx.cxIr, func⟩ { st with data } (some value))

/-- The `lambda` form. -/
def lambda (fuel : Nat) (aklCompileNext : CompileNext σ) (_cx : CompContext)
    (st : CompState σ) : Except Fault (Option FRef × CompState σ) := do
  let (func, st) := aklNewUserFunction st
  let st ← aklParseParams fuel st "lambda" func
  let st ← skipDocstring st
  let (_, st) ← aklCompileNext ⟨func, func⟩ st
  return (some func, st)

/-- `akl_call_sform` -/
def aklCallSform (fuel : Nat) (aklCompileNext : CompileNext σ) (cx : CompContext)
    (st : CompState σ) : SForm → Except Fault (Option FRef × CompState σ)
  | .sif => sif aklCompileNext cx st
  | .lambda => lambda fuel aklCompileNext cx st
  | .when => when aklCompileNext cx st
  | .swhile => swhile aklCompileNext cx st
  | .defun => defun fuel aklCompileNext cx st
  | .set => set aklCompileNext cx st

end AkLisp
