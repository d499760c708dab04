import AkLisp.Compiler.Growth
import AkLisp.Compiler.NullDeref
import AkLisp.Machine.Missing
import AkLisp.Machine.Session
import AkLisp.Source.Form

/-!
# Parameters

A parameter in operand position is compiled to a `LOAD` of its place in the
parameter list of the function under compilation, whatever is bound to its name;
so in a call of the function it is the argument passed for it.  At the head of a
list the name is looked up among the globals.
-/

namespace AkLisp

open Outcome

/-- The place the next instruction of a function is written to. -/
def CompState.place {σ : Type} (st : CompState σ) (f : FRef) : Nat :=
  (createOrGetInstr (st.ufun f).ufBody).length - 1

section Compiled

variable {σ : Type} {st : CompState σ} {f : FRef} {ufun : LispFun}

theorem CompState.ufun_of_getElem? (found : st.funs[f]? = some (.user ufun)) :
    st.ufun f = ufun := by
  simp [CompState.ufun, found, AklFunction.ufun?]

/-- A function that has a parameter is a user function. -/
theorem user_of_argumentFinder {sym : Symbol} {k : Nat}
    (param : argumentFinder (st.ufun f) sym = some k) :
    st.funs[f]? = some (.user (st.ufun f)) := by
  have absent : argumentFinder default sym = none := rfl
  cases found : st.funs[f]? with
  | none =>
      rw [CompState.ufun, found] at param
      exact absurd (absent.symm.trans param) (Option.some_ne_none k).symm
  | some fn =>
      cases fn with
      | user ufun => rw [CompState.ufun_of_getElem? found]
      | _ =>
          rw [CompState.ufun, found] at param
          exact absurd (absent.symm.trans param) (Option.some_ne_none k).symm

theorem argumentFinder_of_prefix {ufun ufun' : LispFun} {sym : Symbol} {k : Nat}
    (args : ufun.ufArgs <+: ufun'.ufArgs) (param : argumentFinder ufun sym = some k) :
    argumentFinder ufun' sym = some k := by
  obtain ⟨others, argsEq⟩ := args
  unfold argumentFinder at param ⊢
  rw [← argsEq, List.findIdx?_append, param]
  rfl

/-- Taking off the placeholder leaves the instructions in front of it. -/
theorem popNop_getElem? {ir : List Instr} {pos : Nat} {instr : Instr}
    (found : ir.dropLast[pos]? = some instr) : (popNop ir)[pos]? = some instr := by
  unfold popNop
  split
  · exact found
  · rw [List.getElem?_dropLast] at found
    split at found
    · exact found
    · cases found

end Compiled

namespace Machine

theorem aklCallFunctionBound_funs (m : Machine) (name : String) (fn : FRef) (argc : Nat)
    (rest : List Activation) : (m.aklCallFunctionBound name fn argc rest).funs = m.funs := by
  unfold aklCallFunctionBound
  cases m.funs[fn]? with
  | none => rfl
  | some f => cases f <;> rfl

theorem execInstr_funs (m : Machine) (cx : Context) (ip : EntryRef) (rest : List Activation)
    (instr : Instr) : (m.execInstr cx ip rest instr).funs = m.funs := by
  cases instr with
  | set sym =>
      simp only [execInstr]
      cases aklStackTop m.stack <;> rfl
  | get sym =>
      simp only [execInstr]
      cases m.data.globals sym <;> rfl
  | push v => cases v <;> rfl
  | load ind =>
      simp only [execInstr]
      cases aklFrameAt m.stack cx.cxFrame ind <;> rfl
  | call sym fn argc =>
      simp only [execInstr]
      cases m.aklBoundFunction sym fn with
      | error message => rfl
      | ok fn => exact aklCallFunctionBound_funs m _ fn argc _
  | _ => rfl

theorem execCfun_funs (m : Machine) (cx : Context) (rest : List Activation) (prog : CProg) :
    (m.execCfun cx rest prog).funs = m.funs := by
  cases prog with
  | ret value => cases value <;> rfl
  | call name fn argc k => exact aklCallFunctionBound_funs m _ fn argc _
  | _ => rfl

/-- The code does not change. -/
theorem step_funs {m m' : Machine} (stepEq : step m = some m') : m'.funs = m.funs := by
  cases control : m.control with
  | nil => simp [step, control] at stepEq
  | cons act rest =>
      cases act with
      | branch cx ip =>
          cases ip with
          | none =>
              simp only [step, control, Option.some.injEq] at stepEq
              rw [← stepEq]
              rfl
          | some ip =>
              simp only [step, control] at stepEq
              cases fetched : fetch m.funs ip with
              | none =>
                  simp only [fetched, Option.some.injEq] at stepEq
                  rw [← stepEq]
                  rfl
              | some instr =>
                  simp only [fetched, Option.some.injEq] at stepEq
                  rw [← stepEq, execInstr_funs]
      | cfun cx prog =>
          simp only [step, control, Option.some.injEq] at stepEq
          rw [← stepEq, execCfun_funs]
      | await cx k => simp [step, control] at stepEq

theorem Tallied.funs {m m' : Machine} {owns owns' : List Nat} (run : Tallied m owns m' owns') :
    m'.funs = m.funs := by
  induction run with
  | refl => rfl
  | head stepEq _ _ ih => exact ih.trans (step_funs stepEq)

end Machine

section Operand

variable {σ : Type} [TokenSource σ] [Libc] {st stF at_ : CompState σ} {main : FRef}
  {fuel n k : Nat} {cx : CompContext} {loc : ListLocals} {text : List Chr} {dev : σ}

/-- A parameter in operand position is compiled to one `LOAD`. -/
theorem operand_emits (operand : loc.felem = false) (own : cx.cxIr = cx.cxCompFunc)
    (name : TokenSource.takeText at_.dev = .ok (text, dev))
    (param : argumentFinder (at_.ufun cx.cxCompFunc) (aklGetOrCreateSymbol text) = some k) :
    ∃ st' : CompState σ,
      (FrontCall.switch n cx loc false .tATOM at_).run = .ok (.again loc.countArg st') ∧
      st'.funs[cx.cxCompFunc]? = some (.user { at_.ufun cx.cxCompFunc with
        ufBody := createInstr (at_.ufun cx.cxCompFunc).ufBody (.load k) }) := by
  have found := user_of_argumentFinder param
  generalize symEq : aklGetOrCreateSymbol text = sym at param
  let st₁ : CompState σ := { at_ with dev }
  let st₂ := (st₁.newValue (.symbol sym) false false).2
  have symbol : at_.aklLexGetSymbol = .ok (sym, st₁) := by
    simp only [CompState.aklLexGetSymbol, CompState.takeText, name, bind, Except.bind, pure,
      Except.pure, symEq]
    rfl
  refine ⟨st₂.emit cx (.load k), ?_, ?_⟩
  · have later : ¬loc.felem = true := by simp [operand]
    have found₂ : st₂.funs[cx.cxCompFunc]? = some (.user (at_.ufun cx.cxCompFunc)) := found
    simp only [FrontCall.run, compileToken, symbol, bind, Except.bind, if_neg later, pure,
      Except.pure, compileAtom, Bool.false_eq_true, if_false]
    have loads : aklBuildLoad cx st₂ sym = st₂.emit cx (.load k) := by
      simp only [aklBuildLoad, found₂, param]
    rw [← loads]
  · have found₂ : st₂.funs[cx.cxCompFunc]? = some (.user (at_.ufun cx.cxCompFunc)) := found
    simp only [CompState.emit, CompState.modifyUfun, own, List.getElem?_modify, found₂, if_true,
      Option.map_eq_map, Option.map_some]

/-- In the finished code the parameter has kept its number, and the `LOAD` stands at
the place it was written to. -/
theorem operand_fetched (compiled : aklCompile fuel st = .ok (main, stF))
    (comes : (frontEnd σ).ComesTo (compileCall fuel st) (.switch n cx loc false .tATOM at_))
    (operand : loc.felem = false)
    (name : TokenSource.takeText at_.dev = .ok (text, dev))
    (param : argumentFinder (at_.ufun cx.cxCompFunc) (aklGetOrCreateSymbol text) = some k) :
    ∃ ufun, stF.funs[cx.cxCompFunc]? = some (.user ufun) ∧
      argumentFinder ufun (aklGetOrCreateSymbol text) = some k ∧
      ufun.ufBody[at_.place cx.cxCompFunc]? = some (.load k) := by
  obtain ⟨stC, ranEq, finalEq⟩ : ∃ stC : CompState σ,
      (compileCall fuel st).run = .ok stC ∧
      stF = stC.modifyUfun main fun ufun => { ufun with ufBody := popNop ufun.ufBody } := by
    have ranEq : aklCompile fuel st =
        ((compileCall fuel st).run : Except Fault (CompState σ)) >>= fun stC =>
          .ok ((aklNewUserFunction st).1, stC.modifyUfun (aklNewUserFunction st).1
            fun ufun => { ufun with ufBody := popNop ufun.ufBody }) := rfl
    rw [ranEq] at compiled
    cases ran : ((compileCall fuel st).run : Except Fault (CompState σ)) with
    | error e =>
        rw [ran] at compiled
        cases compiled
    | ok stC =>
        rw [ran] at compiled
        cases compiled
        exact ⟨stC, rfl, rfl⟩
  have own : cx.cxIr = cx.cxCompFunc :=
    ((frontEnd σ).recursion FrontCall.body_ownList (compileCall fuel st) rfl).2.1 _ comes
  obtain ⟨st', switchEq, emitted⟩ := operand_emits operand own name param
  obtain ⟨r', ran', grown⟩ := (FrontCall.code_grows ranEq).2 _ comes
  cases switchEq.symm.trans ran'
  obtain ⟨ufun, found, args, body⟩ := grown _ _ emitted
  have loaded : ufun.ufBody.dropLast[at_.place cx.cxCompFunc]? = some (.load k) := by
    obtain ⟨others, bodyEq⟩ := body
    rw [← bodyEq, createInstr_dropLast, List.append_assoc, CompState.place,
      ← List.length_dropLast]
    simp
  have found : stC.funs[cx.cxCompFunc]? = some (.user ufun) := found
  have kept := argumentFinder_of_prefix args param
  by_cases last : main = cx.cxCompFunc
  · refine ⟨{ ufun with ufBody := popNop ufun.ufBody }, ?_, kept, popNop_getElem? loaded⟩
    simp only [finalEq, CompState.modifyUfun, List.getElem?_modify, if_pos last, found,
      Option.map_eq_map, Option.map_some]
  · refine ⟨ufun, ?_, kept, ?_⟩
    · simp only [finalEq, CompState.modifyUfun, List.getElem?_modify, if_neg last, found,
        Option.map_eq_map, Option.map_some]
    · rw [List.getElem?_dropLast] at loaded
      split at loaded
      · exact loaded
      · cases loaded

/-- A parameter in operand position denotes the argument passed for it, whether or not a
global of the same name exists: the occurrence is compiled to one `LOAD` of the number of
the parameter, which stands in the finished code, and wherever a call of the compiled
function comes to it, its argument is pushed. -/
theorem parameter_operand {m m' : Machine} {below args : List (Cell VRef)} {own : Nat}
    {cx' : Context} {fname : String} {rest : List Activation}
    (compiled : aklCompile fuel st = .ok (main, stF))
    (comes : (frontEnd σ).ComesTo (compileCall fuel st) (.switch n cx loc false .tATOM at_))
    (operand : loc.felem = false)
    (name : TokenSource.takeText at_.dev = .ok (text, dev))
    (param : argumentFinder (at_.ufun cx.cxCompFunc) (aklGetOrCreateSymbol text) = some k)
    (code : m.funs[cx.cxCompFunc]? = stF.funs[cx.cxCompFunc]?)
    (holds : m.stack.Holds (below ++ args)) (intArgc : args.length < 2 ^ 31)
    (run : Machine.Tallied (m.aklCallFunctionBound fname cx.cxCompFunc args.length rest) [0] m'
      [own])
    (controlEq : m'.control =
      .branch cx' (some (cx.cxCompFunc, at_.place cx.cxCompFunc)) :: rest)
    (given : k < args.length) :
    (∃ st' : CompState σ,
      (FrontCall.switch n cx loc false .tATOM at_).run = .ok (.again loc.countArg st') ∧
      st'.funs[cx.cxCompFunc]? = some (.user { at_.ufun cx.cxCompFunc with
        ufBody := createInstr (at_.ufun cx.cxCompFunc).ufBody (.load k) })) ∧
    argumentFinder (stF.ufun cx.cxCompFunc) (aklGetOrCreateSymbol text) = some k ∧
    Machine.fetch m'.funs (cx.cxCompFunc, at_.place cx.cxCompFunc) = some (.load k) ∧
    ∃ above, m'.stack.Holds (below ++ args ++ above) ∧ m'.LoadsParameter below args above k := by
  have own : cx.cxIr = cx.cxCompFunc :=
    ((frontEnd σ).recursion FrontCall.body_ownList (compileCall fuel st) rfl).2.1 _ comes
  obtain ⟨ufun, found, kept, loaded⟩ := operand_fetched compiled comes operand name param
  have user : m.funs[cx.cxCompFunc]? = some (.user ufun) := code.trans found
  obtain ⟨rfl, above, -, holds'⟩ := run.body holds user controlEq
  have load : Machine.fetch m'.funs (cx.cxCompFunc, at_.place cx.cxCompFunc) = some (.load k) := by
    rw [run.funs, Machine.aklCallFunctionBound_funs]
    simp only [Machine.fetch, Machine.ufun?, user, Option.bind_some, AklFunction.ufun?]
    exact loaded
  refine ⟨operand_emits operand own name param, ?_, load, above, holds', ?_⟩
  · rwa [CompState.ufun_of_getElem? found]
  · exact Machine.loadsParameter_given holds intArgc controlEq load holds' given

end Operand

/-- The tokens of `(lambda (x) (g x))`. -/
def callerTokens : List Lexeme :=
  [⟨.tLBRACE, []⟩, ⟨.tATOM, SForm.lambda.text⟩, ⟨.tLBRACE, []⟩, ⟨.tATOM, [code 'x']⟩,
    ⟨.tRBRACE, []⟩, ⟨.tLBRACE, []⟩, ⟨.tATOM, [code 'g']⟩, ⟨.tATOM, [code 'x']⟩, ⟨.tRBRACE, []⟩,
    ⟨.tRBRACE, []⟩]

def callerState : CompState TokStream :=
  ⟨.ofList callerTokens, Machine.init.data, Machine.init.funs, []⟩

/-- The interpreter behind the compilation of `(lambda (x) (g x))`. -/
def callerCompiled : CompState TokStream :=
  match @aklCompile TokStream _ decimalLibc 6 callerState with
  | .ok (_, st) => st
  | .error _ => callerState

/-- A machine that calls this function. -/
def callerMachine : Machine :=
  { funs := callerCompiled.funs
    data := .init
    stack := aklStackPush default Data.aklTrue
    errors := []
    control := [] }

set_option maxRecDepth 10000 in
theorem parameter_operand_x :
    let _ : Libc := decimalLibc
    (∃ (n : Nat) (cx : CompContext) (loc : ListLocals) (at_ st' : CompState TokStream),
      cx.cxCompFunc = 8 ∧
      (FrontCall.switch n cx loc false .tATOM at_).run = .ok (.again loc.countArg st') ∧
      st'.funs[8]? = some (.user { at_.ufun 8 with
        ufBody := createInstr (at_.ufun 8).ufBody (.load 0) })) ∧
    argumentFinder (callerCompiled.ufun 8) (aklGetOrCreateSymbol [code 'x']) = some 0 ∧
    Machine.fetch (callerMachine.aklCallFunctionBound "f" 8 1 []).funs (8, 0) = some (.load 0) ∧
    ∃ above, (callerMachine.aklCallFunctionBound "f" 8 1 []).stack.Holds
        ([] ++ [(0, Data.aklTrue)] ++ above) ∧
      (callerMachine.aklCallFunctionBound "f" 8 1 []).LoadsParameter
        [] [(0, Data.aklTrue)] above 0 := by
  let libc := decimalLibc
  have compiled : aklCompile 6 callerState = .ok (7, callerCompiled) := rfl
  have calls (c c' : FrontCall TokStream) (called : c.body.Calls FrontCall.run c') :
      (frontEnd TokStream).Calls c c' := called
  have comes : (frontEnd TokStream).ComesTo (compileCall 6 callerState) _ :=
    .head (calls _ (.next 5 _ _) .here) <|
    .head (calls _ (.list 5 _ _ _) (.later rfl .here)) <|
    .head (calls _ (.switch 4 _ _ _ _ _) (.later rfl .here)) <|
    .head (calls _ (.form 4 _ _ _) .here) <|
    .head (calls _ (.next 4 _ _) (.later rfl (.later rfl .here))) <|
    .head (calls _ (.list 4 _ _ _) (.later rfl .here)) <|
    .head (calls _ (.list 3 _ _ _) (.later rfl (.later rfl .here))) <|
    .head (calls _ (.switch 2 _ _ _ _ _) (.later rfl .here)) .refl
  have holds : callerMachine.stack.Holds ([] ++ [(0, Data.aklTrue)]) :=
    StackState.Holds.empty.push _
  rcases parameter_operand compiled comes rfl rfl rfl rfl holds (by decide) .refl rfl (by decide)
    with ⟨⟨st', emits, grown⟩, found, load, above, holds', loads⟩
  exact ⟨⟨_, _, _, _, st', rfl, emits, grown⟩, found, load, above, holds', loads⟩

namespace Session

/-- A function called through a parameter: `h` calls the global `f`. -/
theorem parameter_head :
    outcome (@run Dev _ decimalLibc id 60 13
        (ofText "(defun! f () NIL) (defun! g () T) (defun! h (f) (f)) (h g)")) = some .nil ∧
      outcome (@run Dev _ decimalLibc id 60 9
        (ofText "(defun! f () NIL) (defun! g () T) (defun! h (f) (f)) (g)")) = some .true := by
  constructor
  · decide +kernel
  · decide +kernel

end Session

end AkLisp
