import AkLisp.Compiler.Program
import AkLisp.Outcome.Procedure

/-!
# The calls of the front end

Compiler and reader as recursive procedures: which calls each function makes,
in which states, and what it does with their results.  A call of a function
with a loop stands at the head of the loop.
-/

namespace AkLisp

open Outcome

/-- A call of the front end.  The first number is the bound on the recursion. -/
inductive FrontCall (σ : Type) where
  /-- `akl_lex` -/
  | lex (st : CompState σ)
  /-- `akl_parse_token` -/
  | token (fuel : Nat) (st : CompState σ) (tok : Token) (isQuoted : Bool)
  /-- `akl_parse_value` -/
  | value (fuel : Nat) (st : CompState σ)
  /-- the loop of `akl_parse_list` -/
  | items (fuel : Nat) (list : LRef) (st : CompState σ)
  /-- `akl_compile_next` -/
  | next (fuel : Nat) (cx : CompContext) (st : CompState σ)
  /-- the loop of `akl_compile_list` -/
  | list (fuel : Nat) (cx : CompContext) (loc : ListLocals) (st : CompState σ)
  /-- the `switch` of `akl_compile_list` -/
  | switch (fuel : Nat) (cx : CompContext) (loc : ListLocals) (isQuoted : Bool) (tok : Token)
      (st : CompState σ)
  /-- a special form -/
  | form (fuel : Nat) (cx : CompContext) (form : SForm) (st : CompState σ)
  /-- `akl_parse_params` -/
  | args (fuel : Nat) (st : CompState σ) (fname : String) (func : FRef)
  /-- the loop of `akl_parse_params` -/
  | params (fuel : Nat) (func : FRef) (st : CompState σ)
  /-- the skipping of a documentation string -/
  | docstring (st : CompState σ)
  /-- the loop of `akl_compile` -/
  | forms (fuel : Nat) (cx : CompContext) (st : CompState σ)

namespace FrontCall

variable {σ : Type}

/-- The type of what a call returns. -/
abbrev Result : FrontCall σ → Type
  | .lex _ => Token × CompState σ
  | .token _ _ _ _ | .value _ _ => Option VRef × CompState σ
  | .items _ _ _ => LRef × CompState σ
  | .next _ _ _ => (Token × Option FRef) × CompState σ
  | .list _ _ _ _ | .form _ _ _ _ => Option FRef × CompState σ
  | .switch _ _ _ _ _ _ => Round σ
  | .args _ _ _ _ | .params _ _ _ | .docstring _ | .forms _ _ _ => CompState σ

/-- The depth of a call: it decreases from a call to the calls it makes. -/
def rank : FrontCall σ → Nat
  | .lex _ => 0
  | .docstring _ => 1
  | .items fuel _ _ | .list fuel _ _ _ | .params fuel _ _ | .forms fuel _ _ => 7 * fuel + 1
  | .token fuel _ _ _ | .args fuel _ _ _ => 7 * fuel + 2
  | .value fuel _ | .next fuel _ _ => 7 * fuel + 3
  | .form fuel _ _ _ => 7 * fuel + 4
  | .switch fuel _ _ _ _ _ => 7 * fuel + 5

variable [TokenSource σ] [Libc]

/-- What a call computes. -/
def run : (c : FrontCall σ) → Except Fault c.Result
  | .lex st => st.aklLex
  | .token fuel st tok isQuoted => aklParseToken (aklParseList fuel) st tok isQuoted
  | .value fuel st => aklParseValue (aklParseList fuel) st
  | .items fuel l st => parseListLoop fuel l st
  | .next fuel cx st => aklCompileNext fuel cx st
  | .list fuel cx loc st => compileLoop fuel cx loc st
  | .switch fuel cx loc isQuoted tok st =>
      compileToken fuel (aklCompileList fuel) (aklCompileNext fuel) cx loc isQuoted tok st
  | .form fuel cx sform st => aklCallSform fuel (aklCompileNext fuel) cx st sform
  | .args fuel st fname func => aklParseParams fuel st fname func
  | .params fuel func st => parseParamsLoop func fuel st
  | .docstring st => skipDocstring st
  | .forms fuel cx st => compileForms fuel cx st

/-- A computation of the front end over its calls. -/
abbrev Body (σ α : Type) := Outcome.Body Fault (FrontCall σ) Result α

open Outcome.Body

/-- `akl_parse_list`, and a value for its list. -/
def tokenBody (fuel : Nat) (st : CompState σ) (isQuoted : Bool) :
    Token → Body σ (Option VRef × CompState σ)
  | .tLBRACE =>
      .call (.items fuel st.data.newList.1 { st with data := st.data.newList.2 }) fun (l, st) =>
        .ret (some (st.newValue (.list l) isQuoted false).1,
          (st.newValue (.list l) isQuoted false).2)
  | tok => leaf (aklParseToken (aklParseList fuel) st tok isQuoted) .ret

def valueBody (fuel : Nat) (st : CompState σ) : Body σ (Option VRef × CompState σ) :=
  .call (.lex st) fun (tok, st) =>
    if tok = .tQUOTE then
      .call (.lex st) fun (tok, st) => .call (.token fuel st tok true) .ret
    else .call (.token fuel st tok false) .ret

def itemsBody (l : LRef) (st : CompState σ) : Nat → Body σ (LRef × CompState σ)
  | 0 => .raise .outOfFuel
  | fuel + 1 =>
      .call (.value fuel st) fun (v, st) =>
        match v with
        | none =>
            .ret (l, { st with data := st.data.modifyList l fun header =>
              { header with isQuoted := true } })
        | some v =>
            .call (.items fuel l
              { st with data := (reparent st.data l v).listAppendValue l v }) .ret

def nextBody (fuel : Nat) (cx : CompContext) (st : CompState σ) :
    Body σ ((Token × Option FRef) × CompState σ) :=
  .call (.lex st) fun (tok, st) =>
    match tok with
    | .tLBRACE => .call (.list fuel cx .init st) fun (f, st) => .ret ((.tLBRACE, f), st)
    | .tQUOTE =>
        .call (.lex st) fun (tok, st) =>
          .call (.token fuel st tok true) fun (v, st) =>
            .ret ((tok, none), aklBuildPush cx st v)
    | .tEOF => .ret ((.tEOF, none), st)
    | tok =>
        .call (.token fuel st tok false) fun (v, st) => .ret ((tok, none), aklBuildPush cx st v)

/-- The end of a round of the list loop. -/
def roundBody (fuel : Nat) (cx : CompContext) : Round σ → Body σ (Option FRef × CompState σ)
  | .done fn st => .ret (fn, st)
  | .again loc st => .call (.list fuel cx loc st) .ret

def listBody (cx : CompContext) (loc : ListLocals) (st : CompState σ) :
    Nat → Body σ (Option FRef × CompState σ)
  | 0 => .raise .outOfFuel
  | fuel + 1 =>
      .call (.lex st) fun (tok, st) =>
        if tok = .tEOF then .ret (none, st)
        else if tok = .tQUOTE then
          .call (.lex st) fun (tok, st) =>
            .call (.switch fuel cx loc true tok st) (roundBody fuel cx)
        else .call (.switch fuel cx loc false tok st) (roundBody fuel cx)

/-- The head of a list: a special form is called at once. -/
def headBody (fuel : Nat) (cx : CompContext) (loc : ListLocals) (st : CompState σ)
    (sym : Symbol) : Body σ (Round σ) :=
  match prefetchFunction st sym with
  | (.sform, fun_) =>
      match fun_.bind st.sform? with
      | some sform =>
          .call (.form fuel cx sform st) fun (fun_, st) =>
            .ret (.again { loc with pfSt := .sform, fun_, felem := false } st)
      | none => .ret (.again { loc with pfSt := .sform, fun_ := none, felem := false } st)
  | (.notFn, fun_) => .ret (.again { loc with pfSt := .notFn, fun_, felem := false } st)
  | (pfSt, fun_) => .ret (.again { loc with pfSt, fun_, felem := false, sym := some sym } st)

def switchBody (fuel : Nat) (cx : CompContext) (loc : ListLocals) (isQuoted : Bool)
    (st : CompState σ) : Token → Body σ (Round σ)
  | .tATOM =>
      leaf st.aklLexGetSymbol fun (sym, st) =>
        let (v, st) := st.newValue (.symbol sym) isQuoted false
        if loc.felem then headBody fuel cx loc st sym
        else .ret (.again loc.countArg (compileAtom cx isQuoted v sym st))
  | .tLBRACE =>
      if isQuoted then
        .call (.token fuel st .tLBRACE true) fun (v, st) =>
          .ret (.again loc.countArg (aklBuildPush cx st v))
      else
        .call (.list fuel cx .init st) fun (f, st) =>
          .ret (.again (compileInner cx loc f st).1 (compileInner cx loc f st).2)
  | .tRBRACE => .ret (.done (compileEnd cx loc st).1 (compileEnd cx loc st).2)
  | tok =>
      .call (.token fuel st tok true) fun (v, st) =>
        match v with
        | none => .raise .nullDeref
        | some v => .ret (.again loc.countArg (aklBuildPush cx st (some v)))

def whenBody (fuel : Nat) (cx : CompContext) (st : CompState σ) :
    Body σ (Option FRef × CompState σ) :=
  let (loff, st) := aklNewLabels cx st 1
  .call (.next fuel cx st) fun (_, st) =>
    .call (.next fuel cx (aklBuildJump cx st .jmpFalse ⟨cx.cxCompFunc, loff⟩)) fun (_, st) =>
      .ret (none, aklBuildLabel cx st ⟨cx.cxCompFunc, loff⟩)

def setBody (fuel : Nat) (cx : CompContext) (st : CompState σ) :
    Body σ (Option FRef × CompState σ) :=
  .call (.lex st) fun (tok, st) =>
    if tok ≠ .tATOM then
      .ret (none, st.aklRaiseError .error "Unexpected token, (need a valid atom for set!)")
    else
      leaf st.aklLexGetSymbol fun (sym, st) =>
        .call (.next fuel cx st) fun ((_, fn), st) =>
          let st :=
            match fn with
            | some fn =>
                aklBuildPush cx { st with data := (st.data.newFunctionValue fn).2 }
                  (some (st.data.newFunctionValue fn).1)
            | none => st
          .ret (none, aklBuildSet cx st sym)

def sifBody (fuel : Nat) (cx : CompContext) (st : CompState σ) :
    Body σ (Option FRef × CompState σ) :=
  let (loff, st) := aklNewLabels cx st 2
  .call (.next fuel cx st) fun (_, st) =>
    .call (.next fuel cx (aklBuildJump cx st .jmpFalse ⟨cx.cxCompFunc, loff + 1⟩)) fun (_, st) =>
      .call (.next fuel cx (aklBuildLabel cx (aklBuildJump cx st .jmp ⟨cx.cxCompFunc, loff⟩)
          ⟨cx.cxCompFunc, loff + 1⟩)) fun (_, st) =>
        .ret (none, aklBuildLabel cx st ⟨cx.cxCompFunc, loff⟩)

def swhileBody (fuel : Nat) (cx : CompContext) (st : CompState σ) :
    Body σ (Option FRef × CompState σ) :=
  let (loff, st) := aklNewLabels cx st 2
  .call (.next fuel cx (aklBuildLabel cx st ⟨cx.cxCompFunc, loff⟩)) fun (_, st) =>
    .call (.next fuel cx (aklBuildJump cx st .jmpFalse ⟨cx.cxCompFunc, loff + 1⟩)) fun (_, st) =>
      .ret (none, aklBuildLabel cx (aklBuildJump cx st .jmp ⟨cx.cxCompFunc, loff⟩)
        ⟨cx.cxCompFunc, loff + 1⟩)

def paramsBody (func : FRef) (st : CompState σ) : Nat → Body σ (CompState σ)
  | 0 => .raise .outOfFuel
  | fuel + 1 =>
      .call (.lex st) fun (tok, st) =>
        match tok with
        | .tRBRACE => .ret st
        | .tATOM =>
            leaf st.aklLexGetSymbol fun (sym, st) =>
              .call (.params fuel func (st.modifyUfun func fun ufun =>
                { ufun with ufArgs := ufun.ufArgs ++ [sym] })) .ret
        | _ => .call (.params fuel func st) .ret

def argsBody (fuel : Nat) (st : CompState σ) (fname : String) (func : FRef) :
    Body σ (CompState σ) :=
  .call (.lex st) fun (tok, st) =>
    match tok with
    | .tNIL => .ret st
    | .tLBRACE => .call (.params fuel func st) .ret
    | _ => .ret (st.aklRaiseError .error
        ("Expected an argument list for function definition '" ++ fname ++ "'"))

def docstringBody (st : CompState σ) : Body σ (CompState σ) :=
  .call (.lex st) fun (tok, st) =>
    if tok = .tSTRING then
      leaf st.takeText fun (_, st) => .call (.lex st) fun (_, st) => .ret st
    else .ret (st.aklLexPutback tok)

def defunBody (fuel : Nat) (cx : CompContext) (st : CompState σ) :
    Body σ (Option FRef × CompState σ) :=
  let (func, st) := aklNewUserFunction st
  let (fval, data) := st.data.newFunctionValue func
  .call (.lex { st with data }) fun (tok, st) =>
    if tok ≠ .tATOM then
      .ret (none, st.aklRaiseError .error
        "Unexpected token, defun! needs a parameter list and a function body")
    else
      leaf st.aklLexGetSymbol fun (fsym, st) =>
        .call (.args fuel st fsym.text func) fun (st : CompState σ) =>
          .call (.docstring st) fun (st : CompState σ) =>
            .call (.next fuel ⟨func, func⟩
                { st with data := st.data.aklSetGlobalVar fsym fval }) fun (_, st) =>
              .ret (some func, aklBuildPush ⟨cx.cxIr, func⟩
                { st with data := (st.data.newSymValue fsym).2 }
                (some (st.data.newSymValue fsym).1))

def lambdaBody (fuel : Nat) (st : CompState σ) : Body σ (Option FRef × CompState σ) :=
  let (func, st) := aklNewUserFunction st
  .call (.args fuel st "lambda" func) fun (st : CompState σ) =>
    .call (.docstring st) fun (st : CompState σ) =>
      .call (.next fuel ⟨func, func⟩ st) fun (_, st) => .ret (some func, st)

def formBody (fuel : Nat) (cx : CompContext) (st : CompState σ) :
    SForm → Body σ (Option FRef × CompState σ)
  | .sif => sifBody fuel cx st
  | .lambda => lambdaBody fuel st
  | .when => whenBody fuel cx st
  | .swhile => swhileBody fuel cx st
  | .defun => defunBody fuel cx st
  | .set => setBody fuel cx st

def formsBody (cx : CompContext) (st : CompState σ) : Nat → Body σ (CompState σ)
  | 0 => .raise .outOfFuel
  | fuel + 1 =>
      .call (.next fuel cx st) fun ((tok, _), st) =>
        if tok = .tEOF then .ret st else .call (.forms fuel cx st) .ret

/-- The body of each function. -/
def body : (c : FrontCall σ) → Body σ c.Result
  | .lex st => leaf st.aklLex .ret
  | .token fuel st tok isQuoted => tokenBody fuel st isQuoted tok
  | .value fuel st => valueBody fuel st
  | .items fuel l st => itemsBody l st fuel
  | .next fuel cx st => nextBody fuel cx st
  | .list fuel cx loc st => listBody cx loc st fuel
  | .switch fuel cx loc isQuoted tok st => switchBody fuel cx loc isQuoted st tok
  | .form fuel cx sform st => formBody fuel cx st sform
  | .args fuel st fname func => argsBody fuel st fname func
  | .params fuel func st => paramsBody func st fuel
  | .docstring st => docstringBody st
  | .forms fuel cx st => formsBody cx st fuel

theorem tokenBody_leaf (fuel : Nat) (st : CompState σ) (isQuoted : Bool) {tok : Token}
    (notList : tok ≠ .tLBRACE) :
    tokenBody fuel st isQuoted tok =
      leaf (aklParseToken (aklParseList fuel) st tok isQuoted) .ret := by
  cases tok with
  | tLBRACE => exact absurd rfl notList
  | _ => rfl

theorem tokenBody_run (fuel : Nat) (st : CompState σ) (isQuoted : Bool) (tok : Token) :
    aklParseToken (aklParseList fuel) st tok isQuoted =
      (tokenBody fuel st isQuoted tok).run run := by
  by_cases list : tok = .tLBRACE
  · subst list
    rfl
  · rw [tokenBody_leaf fuel st isQuoted list, run_leaf]
    exact (bind_pure _).symm

theorem valueBody_run (fuel : Nat) (st : CompState σ) :
    aklParseValue (aklParseList fuel) st = (valueBody fuel st).run run := by
  rw [valueBody, run_call]
  refine bind_congr fun (tok, st) => ?_
  by_cases mark : tok = .tQUOTE
  · simp only [if_pos mark]
    refine bind_congr fun (tok, st) => ?_
    exact (run_call_ret _).symm
  · simp only [if_neg mark]
    exact (run_call_ret _).symm

theorem itemsBody_run (l : LRef) (st : CompState σ) (fuel : Nat) :
    parseListLoop fuel l st = (itemsBody l st fuel).run run := by
  cases fuel with
  | zero => rfl
  | succ fuel =>
      rw [itemsBody, run_call]
      refine bind_congr fun (v, st) => ?_
      cases v with
      | none => rfl
      | some v => exact (run_call_ret _).symm

theorem nextBody_run (fuel : Nat) (cx : CompContext) (st : CompState σ) :
    aklCompileNext fuel cx st = (nextBody fuel cx st).run run := by
  rw [nextBody, run_call]
  refine bind_congr fun (tok, st) => ?_
  cases tok <;> rfl

theorem listBody_run (cx : CompContext) (loc : ListLocals) (st : CompState σ) (fuel : Nat) :
    compileLoop fuel cx loc st = (listBody cx loc st fuel).run run := by
  cases fuel with
  | zero => rfl
  | succ fuel =>
      have round (isQuoted : Bool) (tok : Token) (st : CompState σ) :
          (compileToken fuel (aklCompileList fuel) (aklCompileNext fuel) cx loc isQuoted tok st >>=
            fun round => match round with
              | .done fn st => .ok (fn, st)
              | .again loc st => compileLoop fuel cx loc st) =
            (call (.switch fuel cx loc isQuoted tok st) (roundBody fuel cx)).run run := by
        refine bind_congr fun round => ?_
        cases round with
        | done fn st => rfl
        | again loc st => exact (run_call_ret _).symm
      rw [listBody, run_call, compileLoop]
      simp only [compileRound, bind_assoc]
      refine bind_congr fun (tok, st) => ?_
      by_cases ended : tok = .tEOF
      · simp only [if_pos ended]
        rfl
      · by_cases mark : tok = .tQUOTE
        · simp only [if_neg ended, if_pos mark, bind_assoc]
          refine bind_congr fun (tok, st) => ?_
          exact round true tok st
        · simp only [if_neg ended, if_neg mark]
          exact round false tok st

theorem headBody_run (fuel : Nat) (cx : CompContext) (loc : ListLocals) (st : CompState σ)
    (sym : Symbol) :
    compileHead fuel (aklCompileNext fuel) cx loc st sym =
      (headBody fuel cx loc st sym).run run := by
  rw [compileHead, headBody]
  obtain ⟨pfSt, fun_⟩ := prefetchFunction st sym
  cases pfSt with
  | sform =>
      dsimp only
      cases fun_.bind st.sform? <;> rfl
  | _ => rfl

theorem switchBody_run (fuel : Nat) (cx : CompContext) (loc : ListLocals) (isQuoted : Bool)
    (st : CompState σ) (tok : Token) :
    compileToken fuel (aklCompileList fuel) (aklCompileNext fuel) cx loc isQuoted tok st =
      (switchBody fuel cx loc isQuoted st tok).run run := by
  cases tok with
  | tATOM =>
      rw [switchBody, run_leaf]
      refine bind_congr fun (sym, st) => ?_
      by_cases first : loc.felem
      · simp only [if_pos first]
        exact headBody_run fuel cx loc _ sym
      · simp only [if_neg first]
        rfl
  | tLBRACE => cases isQuoted <;> rfl
  | tRBRACE => rfl
  | _ =>
      refine bind_congr fun (v, st) => ?_
      cases v <;> rfl

theorem whenBody_run (fuel : Nat) (cx : CompContext) (st : CompState σ) :
    AkLisp.when (aklCompileNext fuel) cx st = (whenBody fuel cx st).run run := rfl

theorem sifBody_run (fuel : Nat) (cx : CompContext) (st : CompState σ) :
    AkLisp.sif (aklCompileNext fuel) cx st = (sifBody fuel cx st).run run := rfl

theorem swhileBody_run (fuel : Nat) (cx : CompContext) (st : CompState σ) :
    AkLisp.swhile (aklCompileNext fuel) cx st = (swhileBody fuel cx st).run run := rfl

theorem setBody_run (fuel : Nat) (cx : CompContext) (st : CompState σ) :
    AkLisp.set (aklCompileNext fuel) cx st = (setBody fuel cx st).run run := by
  refine bind_congr ?_
  rintro ⟨tok, st⟩
  by_cases atom : tok ≠ .tATOM
  · simp only [if_pos atom]
    rfl
  · simp only [if_neg atom, run_leaf]
    refine bind_congr fun sym => bind_congr ?_
    rintro ⟨⟨tok, fn⟩, st⟩
    cases fn <;> rfl

theorem paramsBody_run (func : FRef) (st : CompState σ) (fuel : Nat) :
    parseParamsLoop func fuel st = (paramsBody func st fuel).run run := by
  cases fuel with
  | zero => rfl
  | succ fuel =>
      refine bind_congr fun (tok, st) => ?_
      cases tok with
      | tRBRACE => rfl
      | tATOM =>
          simp only [run_leaf]
          exact bind_congr fun (sym, st) => (run_call_ret _).symm
      | _ => exact (run_call_ret _).symm

theorem argsBody_run (fuel : Nat) (st : CompState σ) (fname : String) (func : FRef) :
    aklParseParams fuel st fname func = (argsBody fuel st fname func).run run := by
  refine bind_congr fun (tok, st) => ?_
  cases tok with
  | tLBRACE => exact (run_call_ret _).symm
  | _ => rfl

theorem docstringBody_run (st : CompState σ) :
    skipDocstring st = (docstringBody st).run run := by
  refine bind_congr fun (tok, st) => ?_
  by_cases string : tok = .tSTRING
  · simp only [if_pos string, run_leaf]
    rfl
  · simp only [if_neg string]
    rfl

theorem defunBody_run (fuel : Nat) (cx : CompContext) (st : CompState σ) :
    AkLisp.defun fuel (aklCompileNext fuel) cx st = (defunBody fuel cx st).run run := by
  refine bind_congr fun (tok, st) => ?_
  by_cases atom : tok ≠ .tATOM
  · simp only [if_pos atom]
    rfl
  · simp only [if_neg atom, run_leaf]
    rfl

theorem lambdaBody_run (fuel : Nat) (cx : CompContext) (st : CompState σ) :
    AkLisp.lambda fuel (aklCompileNext fuel) cx st = (lambdaBody fuel st).run run := rfl

theorem formBody_run (fuel : Nat) (cx : CompContext) (st : CompState σ) (sform : SForm) :
    aklCallSform fuel (aklCompileNext fuel) cx st sform = (formBody fuel cx st sform).run run := by
  cases sform with
  | sif => exact sifBody_run fuel cx st
  | lambda => exact lambdaBody_run fuel cx st
  | when => exact whenBody_run fuel cx st
  | swhile => exact swhileBody_run fuel cx st
  | defun => exact defunBody_run fuel cx st
  | set => exact setBody_run fuel cx st

theorem formsBody_run (cx : CompContext) (st : CompState σ) (fuel : Nat) :
    compileForms fuel cx st = (formsBody cx st fuel).run run := by
  cases fuel with
  | zero => rfl
  | succ fuel =>
      refine bind_congr fun ((tok, fn), st) => ?_
      by_cases ended : tok = .tEOF
      · simp only [if_pos ended]
        rfl
      · simp only [if_neg ended]
        exact (run_call_ret _).symm

/-- The functions of the front end run as their bodies say. -/
theorem run_unfolds (c : FrontCall σ) : c.run = c.body.run run := by
  cases c with
  | lex st =>
      rw [body, run_leaf]
      exact (bind_pure _).symm
  | token fuel st tok isQuoted => exact tokenBody_run fuel st isQuoted tok
  | value fuel st => exact valueBody_run fuel st
  | items fuel l st => exact itemsBody_run l st fuel
  | next fuel cx st => exact nextBody_run fuel cx st
  | list fuel cx loc st => exact listBody_run cx loc st fuel
  | switch fuel cx loc isQuoted tok st => exact switchBody_run fuel cx loc isQuoted st tok
  | form fuel cx sform st => exact formBody_run fuel cx st sform
  | args fuel st fname func => exact argsBody_run fuel st fname func
  | params fuel func st => exact paramsBody_run func st fuel
  | docstring st => exact docstringBody_run st
  | forms fuel cx st => exact formsBody_run cx st fuel

/-- The calls a body makes are smaller. -/
theorem body_smaller (c : FrontCall σ) :
    c.body.Respects (fun c' => c'.rank < c.rank) (fun _ _ => True) (fun _ => True)
      fun _ => True := by
  cases c with
  | lex st => exact respects_leaf (fun _ _ => trivial) fun _ _ => trivial
  | token fuel st tok isQuoted =>
      by_cases list : tok = .tLBRACE
      · subst list
        simp [body, tokenBody, Respects, rank]
      · rw [body, tokenBody_leaf fuel st isQuoted list]
        exact respects_leaf (fun _ _ => trivial) fun _ _ => trivial
  | value fuel st =>
      simp only [body, valueBody, Respects, rank]
      refine ⟨by omega, fun (tok, st) _ => ?_⟩
      by_cases mark : tok = .tQUOTE <;> simp [mark, Respects]
  | items fuel l st =>
      cases fuel with
      | zero => trivial
      | succ fuel =>
          simp only [body, itemsBody, Respects, rank]
          refine ⟨by omega, fun (v, st) _ => ?_⟩
          cases v <;> simp [Respects]
  | next fuel cx st =>
      simp only [body, nextBody, Respects, rank]
      refine ⟨by omega, fun (tok, st) _ => ?_⟩
      cases tok <;> simp [Respects]
  | list fuel cx loc st =>
      cases fuel with
      | zero => trivial
      | succ fuel =>
          have round (round : Round σ) : (roundBody fuel cx round).Respects
              (fun c' => c'.rank < 7 * (fuel + 1) + 1) (fun _ _ => True) (fun _ => True)
              fun _ => True := by
            cases round with
            | done fn st => trivial
            | again loc st =>
                refine ⟨?_, fun _ _ => trivial⟩
                simp only [rank]
                omega
          simp only [body, listBody, Respects, rank]
          refine ⟨by omega, fun (tok, st) _ => ?_⟩
          by_cases ended : tok = .tEOF
          · simp [ended, Respects]
          · by_cases mark : tok = .tQUOTE
            · simp only [if_neg ended, if_pos mark, Respects]
              exact ⟨by omega, fun _ _ => ⟨by omega, fun r _ => round r⟩⟩
            · simp only [if_neg ended, if_neg mark, Respects]
              exact ⟨by omega, fun r _ => round r⟩
  | switch fuel cx loc isQuoted tok st =>
      cases tok with
      | tATOM =>
          refine respects_leaf (fun _ _ => trivial) fun (sym, st) _ => ?_
          by_cases first : loc.felem
          · simp only [if_pos first, headBody]
            generalize prefetchFunction _ sym = fetched
            obtain ⟨pfSt, fun_⟩ := fetched
            cases pfSt with
            | sform =>
                dsimp only
                cases fun_.bind _ with
                | some sform => simp [Respects, rank]
                | none => trivial
            | _ => trivial
          · simp only [if_neg first]
            trivial
      | tLBRACE => cases isQuoted <;> simp [body, switchBody, Respects, rank]
      | tRBRACE => trivial
      | _ =>
          simp only [body, switchBody, Respects, rank]
          refine ⟨by omega, fun (v, st) _ => ?_⟩
          cases v <;> trivial
  | form fuel cx sform st =>
      cases sform with
      | set =>
          simp only [body, formBody, setBody, Respects, rank]
          refine ⟨by omega, fun (tok, st) _ => ?_⟩
          by_cases atom : tok ≠ .tATOM
          · simp only [if_pos atom]
            trivial
          · simp only [if_neg atom]
            refine respects_leaf (fun _ _ => trivial) fun (sym, st) _ => ?_
            simp [Respects]
      | defun =>
          simp only [body, formBody, defunBody, Respects, rank]
          refine ⟨by omega, fun (tok, st) _ => ?_⟩
          by_cases atom : tok ≠ .tATOM
          · simp only [if_pos atom]
            trivial
          · simp only [if_neg atom]
            refine respects_leaf (fun _ _ => trivial) fun (sym, st) _ => ?_
            simp [Respects]
      | _ => simp [body, formBody, sifBody, lambdaBody, whenBody, swhileBody, Respects, rank]
  | args fuel st fname func =>
      simp only [body, argsBody, Respects, rank]
      refine ⟨by omega, fun (tok, st) _ => ?_⟩
      cases tok <;> simp [Respects]
  | params fuel func st =>
      cases fuel with
      | zero => trivial
      | succ fuel =>
          simp only [body, paramsBody, Respects, rank]
          refine ⟨by omega, fun (tok, st) _ => ?_⟩
          cases tok with
          | tATOM =>
              refine respects_leaf (fun _ _ => trivial) fun (sym, st) _ => ?_
              simp [Respects]
          | _ => simp [Respects]
  | docstring st =>
      simp only [body, docstringBody, Respects, rank]
      refine ⟨by omega, fun (tok, st) _ => ?_⟩
      by_cases string : tok = .tSTRING
      · simp only [if_pos string]
        refine respects_leaf (fun _ _ => trivial) fun (text, st) _ => ?_
        simp [Respects]
      · simp only [if_neg string]
        trivial
  | forms fuel cx st =>
      cases fuel with
      | zero => trivial
      | succ fuel =>
          simp only [body, formsBody, Respects, rank]
          refine ⟨by omega, fun ((tok, fn), st) _ => ?_⟩
          by_cases ended : tok = .tEOF <;> simp [ended, Respects]

end FrontCall

/-- The front end as recursive procedures. -/
def frontEnd (σ : Type) [TokenSource σ] [Libc] :
    Procedures Fault (FrontCall σ) FrontCall.Result where
  run := FrontCall.run
  body := FrontCall.body
  unfolds := FrontCall.run_unfolds
  rank := FrontCall.rank
  smaller := FrontCall.body_smaller

end AkLisp
