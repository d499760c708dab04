import AkLisp.Compiler.Forms

/-!
# The compiler

`akl_compile_list` compiles what stands behind an opening parenthesis,
`akl_compile_next` one expression in any other position.  They call each other,
also through the special forms; the depth of the recursion and the rounds of
the list loop are bounded by a number the caller chooses.
-/

namespace AkLisp

variable {σ : Type} [TokenSource σ] [Libc]

/-- `enum PREFETCH_STATUS` -/
inductive PrefetchStatus where
  | notFound
  | normal
  | sform
  | notFn
  deriving DecidableEq, Repr

/-- `prefetch_function`: what the head of a list is bound to at this moment. -/
def prefetchFunction (st : CompState σ) (sym : Symbol) : PrefetchStatus × Option FRef :=
  match st.data.globals sym with
  | none => (.notFound, none)
  | some val =>
      match st.data.function? val with
      | none => (.notFn, none)
      | some f =>
          match st.funs[f]? with
          | some (.special _) => (.sform, some f)
          | _ => (.normal, some f)

/-- The special form a function pointer names. -/
def CompState.sform? (st : CompState σ) (f : FRef) : Option SForm :=
  match st.funs[f]? with
  | some (.special form) => some form
  | _ => none

/-- The local variables of `akl_compile_list` that live from one round of its
loop to the next. -/
structure ListLocals where
  pfSt : PrefetchStatus
  argc : Nat
  felem : Bool
  fun_ : Option FRef
  sym : Option Symbol
  deriving DecidableEq

def ListLocals.init : ListLocals := ⟨.notFound, 0, true, none, none⟩

/-- What one round of the loop of `akl_compile_list` ends with: a `return`, or
another round. -/
inductive Round (σ : Type) where
  | done (fn : Option FRef) (st : CompState σ)
  | again (loc : ListLocals) (st : CompState σ)

/-- The end of a round that took an argument. -/
def ListLocals.countArg (loc : ListLocals) : ListLocals :=
  { loc with argc := loc.argc + 1, felem := false }

/-- The case of an atom at the first place of the list. -/
def compileHead (fuel : Nat) (aklCompileNext : CompileNext σ) (cx : CompContext)
    (loc : ListLocals) (st : CompState σ) (sym : Symbol) : Except Fault (Round σ) := do
  let (pfSt, fun_) := prefetchFunction st sym
  let loc := { loc with pfSt, fun_, felem := false }
  match pfSt with
  | .sform =>
      match fun_.bind st.sform? with
      | some form =>
          let (fun_, st) ← aklCallSform fuel aklCompileNext cx st form
          return .again { loc with fun_ } st
      | none => return .again { loc with fun_ := none } st
  | .normal | .notFound => return .again { loc with sym := some sym } st
  | .notFn => return .again loc st

/-- The case of an atom at another place. -/
def compileAtom (cx : CompContext) (isQuoted : Bool) (v : VRef) (sym : Symbol)
    (st : CompState σ) : CompState σ :=
  if isQuoted then aklBuildPush cx st (some v) else aklBuildLoad cx st sym

/-- The end of the case of an inner list: what becomes of a function it
evaluates to. -/
def compileInner (cx : CompContext) (loc : ListLocals) (f : Option FRef) (st : CompState σ) :
    ListLocals × CompState σ :=
  match f with
  | none => (loc.countArg, st)
  | some f =>
      if loc.felem then ({ loc with fun_ := some f }.countArg, st)
      else
        let (value, data) := st.data.newFunctionValue f
        (loc.countArg, aklBuildPush cx { st with data } (some value))

/-- The case of a closing parenthesis. -/
def compileEnd (cx : CompContext) (loc : ListLocals) (st : CompState σ) :
    Option FRef × CompState σ :=
  match loc.sym with
  | some sym => (none, aklBuildCall cx st sym loc.fun_ loc.argc)
  | none =>
      match loc.fun_ with
      | some f => (some f, st)
      | none =>
          if loc.pfSt ≠ .sform then
            let (value, data) := st.data.newNilValue
            let st := aklBuildPush cx { st with data } (some value)
            (none, st.aklRaiseError .warning "No function to call.")
          else (none, st)

/-- The `switch` of `akl_compile_list`.  A null value is dereferenced in the
last case. -/
def compileToken (fuel : Nat)
    (aklCompileList : CompContext → CompState σ → Except Fault (Option FRef × CompState σ))
    (aklCompileNext : CompileNext σ) (cx : CompContext) (loc : ListLocals) (isQuoted : Bool)
    (tok : Token) (st : CompState σ) : Except Fault (Round σ) := do
  match tok with
  | .tATOM =>
      let (sym, st) ← st.aklLexGetSymbol
      let (v, st) := st.newValue (.symbol sym) isQuoted false
      if loc.felem then compileHead fuel aklCompileNext cx loc st sym
      else return .again loc.countArg (compileAtom cx isQuoted v sym st)
  | .tLBRACE =>
      if isQuoted then
        let (v, st) ← aklParseToken (aklParseList fuel) st tok true
        return .again loc.countArg (aklBuildPush cx st v)
      else
        let (f, st) ← aklCompileList cx st
        let (loc, st) := compileInner cx loc f st
        return .again loc st
  | .tRBRACE =>
      let (fn, st) := compileEnd cx loc st
      return .done fn st
  | tok =>
      let (v, st) ← aklParseToken (aklParseList fuel) st tok true
      match v with
      | none => throw .nullDeref
      | some v => return .again loc.countArg (aklBuildPush cx st (some v))

/-- One round of the loop of `akl_compile_list`; `is_quoted` is false again at
its end. -/
def compileRound (fuel : Nat)
    (aklCompileList : CompContext → CompState σ → Except Fault (Option FRef × CompState σ))
    (aklCompileNext : CompileNext σ) (cx : CompContext) (loc : ListLocals)
    (st : CompState σ) : Except Fault (Round σ) := do
  let (tok, st) ← st.aklLex
  if tok = .tEOF then return .done none st
  if tok = .tQUOTE then
    let (tok, st) ← st.aklLex
    compileToken fuel aklCompileList aklCompileNext cx loc true tok st
  else compileToken fuel aklCompileList aklCompileNext cx loc false tok st

/-- `akl_compile_next` over a given `akl_compile_list`. -/
def compileNextWith (fuel : Nat)
    (aklCompileList : CompContext → CompState σ → Except Fault (Option FRef × CompState σ)) :
    CompileNext σ := fun cx st => do
  let (tok, st) ← st.aklLex
  match tok with
  | .tLBRACE =>
      let (f, st) ← aklCompileList cx st
      return ((tok, f), st)
  | .tQUOTE =>
      let (tok, st) ← st.aklLex
      let (v, st) ← aklParseToken (aklParseList fuel) st tok true
      return ((tok, none), aklBuildPush cx st v)
  | .tEOF => return ((tok, none), st)
  | tok =>
      let (v, st) ← aklParseToken (aklParseList fuel) st tok false
      return ((tok, none), aklBuildPush cx st v)

/-- The loop of `akl_compile_list`. -/
def compileLoop : Nat → CompContext → ListLocals → CompState σ →
    Except Fault (Option FRef × CompState σ)
  | 0, _, _, _ => throw .outOfFuel
  | fuel + 1, cx, loc, st => do
      let list (cx : CompContext) (st : CompState σ) := compileLoop fuel cx .init st
      match ← compileRound fuel list (compileNextWith fuel list) cx loc st with
      | .done fn st => return (fn, st)
      | .again loc st => compileLoop fuel cx loc st

/-- `akl_compile_list`: the function the list evaluates to, if it is one that
the compiler has just built. -/
def aklCompileList (fuel : Nat) (cx : CompContext) (st : CompState σ) :
    Except Fault (Option FRef × CompState σ) :=
  compileLoop fuel cx .init st

/-- `akl_compile_next` -/
def aklCompileNext (fuel : Nat) : CompileNext σ :=
  compileNextWith fuel (aklCompileList fuel)

end AkLisp
