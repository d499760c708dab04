import AkLisp.Compiler.Program
import AkLisp.Outcome.Results

/-!
# Compiling without looking at prefetched functions

The compiler notes in a call instruction what the name is bound to at the
moment, but it never reads such a note.  So two states that differ in these
notes only are compiled into states that differ in these notes only.
-/

namespace AkLisp

open Outcome

/-- The instruction with the prefetched function of a call removed. -/
def Instr.withoutPrefetch : Instr → Instr
  | .call sym _ argc => .call sym none argc
  | instr => instr

/-- The function with the prefetched functions of its calls removed. -/
def LispFun.withoutPrefetch (ufun : LispFun) : LispFun :=
  { ufun with ufBody := ufun.ufBody.map Instr.withoutPrefetch }

def AklFunction.withoutPrefetch : AklFunction → AklFunction
  | .user ufun => .user ufun.withoutPrefetch
  | fn => fn

/-- The code with the prefetched function of every call removed. -/
def withoutPrefetch (funs : List AklFunction) : List AklFunction :=
  funs.map AklFunction.withoutPrefetch

@[simp] theorem withoutPrefetch_getElem? (funs : List AklFunction) (f : FRef) :
    (withoutPrefetch funs)[f]? = funs[f]?.map AklFunction.withoutPrefetch := by
  simp [withoutPrefetch]

@[simp] theorem withoutPrefetch_length (funs : List AklFunction) :
    (withoutPrefetch funs).length = funs.length := by
  simp [withoutPrefetch]

@[simp] theorem withoutPrefetch_idem (funs : List AklFunction) :
    withoutPrefetch (withoutPrefetch funs) = withoutPrefetch funs := by
  refine List.ext_getElem? fun f => ?_
  simp only [withoutPrefetch_getElem?, Option.map_map]
  congr 1
  funext fn
  cases fn with
  | user ufun =>
      have idem : Instr.withoutPrefetch ∘ Instr.withoutPrefetch = Instr.withoutPrefetch := by
        funext instr
        cases instr <;> rfl
      simp [AklFunction.withoutPrefetch, LispFun.withoutPrefetch, idem]
  | cfun c => rfl
  | special form => rfl

@[simp] theorem createOrGetInstr_withoutPrefetch (ir : List Instr) :
    createOrGetInstr (ir.map Instr.withoutPrefetch) =
      (createOrGetInstr ir).map Instr.withoutPrefetch := by
  cases ir <;> rfl

theorem createInstr_withoutPrefetch (ir : List Instr) (instr : Instr) :
    (createInstr ir instr).map Instr.withoutPrefetch =
      createInstr (ir.map Instr.withoutPrefetch) instr.withoutPrefetch := by
  simp [createInstr, Instr.withoutPrefetch]

section Equal

variable {u v : LispFun} (equal : u.withoutPrefetch = v.withoutPrefetch)

include equal

theorem LispFun.ufBody_of_withoutPrefetch :
    u.ufBody.map Instr.withoutPrefetch = v.ufBody.map Instr.withoutPrefetch := by
  simpa [withoutPrefetch] using congrArg LispFun.ufBody equal

theorem LispFun.ufArgs_of_withoutPrefetch : u.ufArgs = v.ufArgs := by
  simpa [withoutPrefetch] using congrArg LispFun.ufArgs equal

theorem LispFun.ufLabels_of_withoutPrefetch : u.ufLabels = v.ufLabels := by
  simpa [withoutPrefetch] using congrArg LispFun.ufLabels equal

end Equal

theorem popNop_withoutPrefetch (ir : List Instr) :
    (popNop ir).map Instr.withoutPrefetch = popNop (ir.map Instr.withoutPrefetch) := by
  have last : (ir.map Instr.withoutPrefetch).getLast? = some .nop ↔ ir.getLast? = some .nop := by
    rw [List.getLast?_map]
    cases ir.getLast? with
    | none => simp
    | some instr => cases instr <;> simp [Instr.withoutPrefetch]
  simp only [popNop, last]
  by_cases nop : ir.getLast? = some .nop
  · simp [nop]
  · simp [nop]

variable {σ : Type}

/-- The states differ in prefetched functions at most. -/
structure Alike (st t : CompState σ) : Prop where
  dev : st.dev = t.dev
  data : st.data = t.data
  errors : st.errors = t.errors
  funs : withoutPrefetch st.funs = withoutPrefetch t.funs

namespace Alike

variable {st t : CompState σ}

theorem getElem? (alike : Alike st t) (f : FRef) :
    st.funs[f]?.map AklFunction.withoutPrefetch = t.funs[f]?.map AklFunction.withoutPrefetch := by
  have equal := congrArg (·[f]?) alike.funs
  simpa using equal

/-- The functions behind one pointer are user functions alike, or one other
function. -/
theorem function (alike : Alike st t) (f : FRef) :
    (∃ u v : LispFun, st.funs[f]? = some (.user u) ∧ t.funs[f]? = some (.user v) ∧
      u.withoutPrefetch = v.withoutPrefetch) ∨
    st.funs[f]? = t.funs[f]? ∧ ∀ u, st.funs[f]? ≠ some (.user u) := by
  have equal := alike.getElem? f
  cases left : st.funs[f]? with
  | none =>
      cases right : t.funs[f]? with
      | none => exact .inr ⟨rfl, by simp⟩
      | some fn => simp [left, right] at equal
  | some fn =>
      cases right : t.funs[f]? with
      | none => simp [left, right] at equal
      | some fn' =>
          rw [left, right] at equal
          cases fn <;> cases fn' <;> simp_all [AklFunction.withoutPrefetch]

theorem length (alike : Alike st t) : st.funs.length = t.funs.length := by
  have equal := congrArg List.length alike.funs
  simpa using equal

theorem ufun (alike : Alike st t) (f : FRef) :
    (st.ufun f).withoutPrefetch = (t.ufun f).withoutPrefetch := by
  rcases alike.function f with ⟨u, v, left, right, equal⟩ | ⟨equal, -⟩
  · simpa [CompState.ufun, left, right, AklFunction.ufun?] using equal
  · simp only [CompState.ufun, equal]

/-- Change a user function in the same way on both sides. -/
theorem modifyUfun (alike : Alike st t) (f : FRef) {g h : LispFun → LispFun}
    (same : ∀ u v, u.withoutPrefetch = v.withoutPrefetch →
      (g u).withoutPrefetch = (h v).withoutPrefetch) :
    Alike (st.modifyUfun f g) (t.modifyUfun f h) := by
  refine ⟨alike.dev, alike.data, alike.errors, List.ext_getElem? fun i => ?_⟩
  simp only [CompState.modifyUfun, withoutPrefetch_getElem?, List.getElem?_modify]
  by_cases here : f = i
  · subst here
    rcases alike.function f with ⟨u, v, left, right, equal⟩ | ⟨equal, other⟩
    · simp [left, right, AklFunction.withoutPrefetch, same u v equal]
    · rw [← equal]
      cases left : st.funs[f]? with
      | none => rfl
      | some fn =>
          cases fn with
          | user u => exact absurd left (other u)
          | cfun c => rfl
          | special form => rfl
  · simpa [here] using alike.getElem? i

/-- Change a user function outside of its body. -/
theorem modifyUfun_self (alike : Alike st t) (f : FRef) {g : LispFun → LispFun}
    (commutes : ∀ u, (g u).withoutPrefetch = g u.withoutPrefetch) :
    Alike (st.modifyUfun f g) (t.modifyUfun f g) := by
  refine alike.modifyUfun f fun u v equal => ?_
  rw [commutes, commutes, equal]

theorem withDev (alike : Alike st t) (dev : σ) :
    Alike { st with dev } { t with dev } :=
  ⟨rfl, alike.data, alike.errors, alike.funs⟩

theorem withData (alike : Alike st t) {data data' : Data} (equal : data = data') :
    Alike { st with data } { t with data := data' } :=
  ⟨alike.dev, equal, alike.errors, alike.funs⟩

theorem aklRaiseError (alike : Alike st t) (level : Level) (message : String) :
    Alike (st.aklRaiseError level message) (t.aklRaiseError level message) := by
  refine ⟨alike.dev, alike.data, ?_, alike.funs⟩
  simp only [CompState.aklRaiseError, alike.errors]

/-- Emit instructions that differ in a prefetched function at most. -/
theorem emit (alike : Alike st t) (cx : CompContext) {instr instr' : Instr}
    (same : instr.withoutPrefetch = instr'.withoutPrefetch) :
    Alike (st.emit cx instr) (t.emit cx instr') := by
  refine alike.modifyUfun cx.cxIr fun u v equal => ?_
  simp only [LispFun.withoutPrefetch, createInstr_withoutPrefetch, same,
    LispFun.ufBody_of_withoutPrefetch equal, LispFun.ufArgs_of_withoutPrefetch equal,
    LispFun.ufLabels_of_withoutPrefetch equal]

theorem aklBuildPush (alike : Alike st t) (cx : CompContext) (v : Option VRef) :
    Alike (AkLisp.aklBuildPush cx st v) (AkLisp.aklBuildPush cx t v) :=
  alike.emit cx rfl

theorem aklBuildJump (alike : Alike st t) (cx : CompContext) (jt : JumpOp) (l : LabelRef) :
    Alike (AkLisp.aklBuildJump cx st jt l) (AkLisp.aklBuildJump cx t jt l) :=
  alike.emit cx rfl

theorem aklBuildLoad (alike : Alike st t) (cx : CompContext) (sym : Symbol) :
    Alike (AkLisp.aklBuildLoad cx st sym) (AkLisp.aklBuildLoad cx t sym) := by
  simp only [AkLisp.aklBuildLoad]
  rcases alike.function cx.cxCompFunc with ⟨u, v, left, right, equal⟩ | ⟨equal, other⟩
  · have finders : argumentFinder u sym = argumentFinder v sym := by
      rw [argumentFinder, argumentFinder, LispFun.ufArgs_of_withoutPrefetch equal]
    simp only [left, right, finders]
    cases argumentFinder v sym with
    | none => exact alike.emit cx rfl
    | some ind => exact alike.emit cx rfl
  · rw [← equal]
    cases left : st.funs[cx.cxCompFunc]? with
    | none => exact alike
    | some fn =>
        cases fn with
        | user u => exact absurd left (other u)
        | cfun c => exact alike
        | special form => exact alike

theorem aklBuildLabel (alike : Alike st t) (cx : CompContext) (l : LabelRef) :
    Alike (AkLisp.aklBuildLabel cx st l) (AkLisp.aklBuildLabel cx t l) := by
  have created := alike.modifyUfun_self cx.cxIr
    (g := fun ufun => { ufun with ufBody := createOrGetInstr ufun.ufBody }) fun u => by
      simp [LispFun.withoutPrefetch]
  have bodies := congrArg List.length (LispFun.ufBody_of_withoutPrefetch (created.ufun cx.cxIr))
  simp only [List.length_map] at bodies
  simp only [AkLisp.aklBuildLabel, bodies]
  exact created.modifyUfun_self l.fn fun u => rfl

theorem aklNewLabels (alike : Alike st t) (cx : CompContext) (n : Nat) :
    Beside Alike (AkLisp.aklNewLabels cx st n) (AkLisp.aklNewLabels cx t n) := by
  have labels : (st.ufun cx.cxCompFunc).ufLabels = (t.ufun cx.cxCompFunc).ufLabels :=
    LispFun.ufLabels_of_withoutPrefetch (alike.ufun cx.cxCompFunc)
  refine ⟨congrArg List.length labels, ?_⟩
  simp only [AkLisp.aklNewLabels, labels]
  exact alike.modifyUfun_self cx.cxCompFunc fun u => rfl

theorem aklNewUserFunction (alike : Alike st t) :
    Beside Alike (AkLisp.aklNewUserFunction st) (AkLisp.aklNewUserFunction t) := by
  refine ⟨alike.length, alike.dev, alike.data, alike.errors, ?_⟩
  have equal := alike.funs
  simp only [withoutPrefetch] at equal
  simp only [AkLisp.aklNewUserFunction, withoutPrefetch, List.map_append, equal]

end Alike

/-- Two runs of a part of the front end that return the same and leave states
alike. -/
abbrev Agrees {γ : Type} (x y : Except Fault (γ × CompState σ)) : Prop :=
  Agree (Beside Alike) x y

/-- The special forms and the list compiler are given `akl_compile_next`. -/
def NextAgrees (aklCompileNext : CompileNext σ) : Prop :=
  ∀ cx st t, Alike st t → Agrees (aklCompileNext cx st) (aklCompileNext cx t)

section Forms

variable {st t : CompState σ} {aklCompileNext : CompileNext σ} (next : NextAgrees aklCompileNext)

include next

theorem Alike.when (alike : Alike st t) (cx : CompContext) :
    Agrees (AkLisp.when aklCompileNext cx st) (AkLisp.when aklCompileNext cx t) := by
  obtain ⟨loffEq, labels⟩ := alike.aklNewLabels cx 1
  simp only [AkLisp.when, loffEq]
  refine (next cx _ _ labels).bindBeside fun _ st t alike => ?_
  refine (next cx _ _ (alike.aklBuildJump cx _ _)).bindBeside fun _ st t alike => ?_
  exact ⟨rfl, alike.aklBuildLabel cx _⟩

theorem Alike.sif (alike : Alike st t) (cx : CompContext) :
    Agrees (AkLisp.sif aklCompileNext cx st) (AkLisp.sif aklCompileNext cx t) := by
  obtain ⟨loffEq, labels⟩ := alike.aklNewLabels cx 2
  simp only [AkLisp.sif, loffEq]
  refine (next cx _ _ labels).bindBeside fun _ st t alike => ?_
  refine (next cx _ _ (alike.aklBuildJump cx _ _)).bindBeside fun _ st t alike => ?_
  refine (next cx _ _ ((alike.aklBuildJump cx _ _).aklBuildLabel cx _)).bindBeside
    fun _ st t alike => ?_
  exact ⟨rfl, alike.aklBuildLabel cx _⟩

theorem Alike.swhile (alike : Alike st t) (cx : CompContext) :
    Agrees (AkLisp.swhile aklCompileNext cx st) (AkLisp.swhile aklCompileNext cx t) := by
  obtain ⟨loffEq, labels⟩ := alike.aklNewLabels cx 2
  simp only [AkLisp.swhile, loffEq]
  refine (next cx _ _ (labels.aklBuildLabel cx _)).bindBeside fun _ st t alike => ?_
  refine (next cx _ _ (alike.aklBuildJump cx _ _)).bindBeside fun _ st t alike => ?_
  exact ⟨rfl, (alike.aklBuildJump cx _ _).aklBuildLabel cx _⟩

end Forms

variable [TokenSource σ]

section Reader

variable {st t : CompState σ}

theorem Alike.aklLex (alike : Alike st t) : Agrees st.aklLex t.aklLex := by
  simp only [CompState.aklLex, alike.dev]
  cases TokenSource.aklLex t.dev with
  | ok x => exact ⟨rfl, alike.withDev x.2⟩
  | error e => rfl

theorem Alike.takeText (alike : Alike st t) : Agrees st.takeText t.takeText := by
  simp only [CompState.takeText, alike.dev]
  cases TokenSource.takeText t.dev with
  | ok x => exact ⟨rfl, alike.withDev x.2⟩
  | error e => rfl

theorem Alike.aklLexGetSymbol (alike : Alike st t) :
    Agrees st.aklLexGetSymbol t.aklLexGetSymbol := by
  refine alike.takeText.bindBeside fun text st t alike => ?_
  exact ⟨rfl, alike⟩

omit [TokenSource σ] in
theorem Alike.newValue (alike : Alike st t) (payload : Payload) (isQuoted isNil : Bool) :
    Beside Alike (st.newValue payload isQuoted isNil) (t.newValue payload isQuoted isNil) := by
  simp only [CompState.newValue, alike.data]
  exact ⟨rfl, alike.withData rfl⟩

omit [TokenSource σ] in
/-- A new value is returned. -/
theorem Alike.returnValue (alike : Alike st t) (payload : Payload) (isQuoted isNil : Bool) :
    Agrees (.ok (some (st.newValue payload isQuoted isNil).1,
        (st.newValue payload isQuoted isNil).2))
      (.ok (some (t.newValue payload isQuoted isNil).1,
        (t.newValue payload isQuoted isNil).2)) := by
  obtain ⟨equal, after⟩ := alike.newValue payload isQuoted isNil
  exact ⟨congrArg some equal, after⟩

variable [Libc]

theorem Alike.aklParseToken (alike : Alike st t)
    {aklParseList : CompState σ → Except Fault (LRef × CompState σ)}
    (inner : ∀ st t, Alike st t → Agrees (aklParseList st) (aklParseList t)) (tok : Token)
    (isQuoted : Bool) :
    Agrees (AkLisp.aklParseToken aklParseList st tok isQuoted)
      (AkLisp.aklParseToken aklParseList t tok isQuoted) := by
  cases tok with
  | tEOF =>
      simp only [AkLisp.aklParseToken, alike.dev]
      exact ⟨rfl, alike.withDev _⟩
  | tRBRACE => exact ⟨rfl, alike⟩
  | tNIL => exact alike.returnValue _ _ _
  | tTRUE => exact alike.returnValue _ _ _
  | tQUOTE => rfl
  | tATOM =>
      refine alike.aklLexGetSymbol.bindBeside fun sym st t alike => ?_
      exact alike.returnValue _ _ _
  | tNUMBER =>
      refine alike.takeText.bindBeside fun text st t alike => ?_
      exact alike.returnValue _ _ _
  | tSTRING =>
      refine alike.takeText.bindBeside fun text st t alike => ?_
      exact alike.returnValue _ _ _
  | tLBRACE =>
      refine (inner st t alike).bindBeside fun l st t alike => ?_
      exact alike.returnValue _ _ _

theorem Alike.aklParseValue (alike : Alike st t)
    {aklParseList : CompState σ → Except Fault (LRef × CompState σ)}
    (inner : ∀ st t, Alike st t → Agrees (aklParseList st) (aklParseList t)) :
    Agrees (AkLisp.aklParseValue aklParseList st) (AkLisp.aklParseValue aklParseList t) := by
  refine alike.aklLex.bindBeside fun tok st t alike => ?_
  dsimp only
  by_cases mark : tok = .tQUOTE
  · rw [if_pos mark, if_pos mark]
    refine alike.aklLex.bindBeside fun tok st t alike => ?_
    exact alike.aklParseToken inner tok true
  · rw [if_neg mark, if_neg mark]
    exact alike.aklParseToken inner tok false

theorem Alike.parseListLoop (fuel : Nat) (list : LRef) (alike : Alike st t) :
    Agrees (AkLisp.parseListLoop fuel list st) (AkLisp.parseListLoop fuel list t) := by
  induction fuel generalizing list st t with
  | zero => rfl
  | succ fuel ih =>
      rw [AkLisp.parseListLoop, AkLisp.parseListLoop]
      refine Agree.bindBeside (alike.aklParseValue ?_) fun value st t alike => ?_
      · intro st t alike
        rw [alike.data]
        exact ih _ (alike.withData rfl)
      · cases value with
        | none => exact ⟨rfl, alike.withData (by rw [alike.data])⟩
        | some value => exact ih list (alike.withData (by rw [alike.data]))

theorem Alike.aklParseList (alike : Alike st t) (fuel : Nat) :
    Agrees (AkLisp.aklParseList fuel st) (AkLisp.aklParseList fuel t) := by
  rw [AkLisp.aklParseList, AkLisp.aklParseList, alike.data]
  exact (alike.withData rfl).parseListLoop fuel _

end Reader

section Params

variable {st t : CompState σ}

theorem Alike.parseParamsLoop (fuel : Nat) (func : FRef) (alike : Alike st t) :
    Agree Alike (AkLisp.parseParamsLoop func fuel st) (AkLisp.parseParamsLoop func fuel t) := by
  induction fuel generalizing st t with
  | zero => rfl
  | succ fuel ih =>
      refine alike.aklLex.bindBeside fun tok st t alike => ?_
      cases tok with
      | tRBRACE => exact alike
      | tATOM =>
          refine alike.aklLexGetSymbol.bindBeside fun sym st t alike => ?_
          exact ih (alike.modifyUfun_self func fun u => rfl)
      | _ => exact ih alike

theorem Alike.aklParseParams (fuel : Nat) (fname : String) (func : FRef) (alike : Alike st t) :
    Agree Alike (AkLisp.aklParseParams fuel st fname func)
      (AkLisp.aklParseParams fuel t fname func) := by
  refine alike.aklLex.bindBeside fun tok st t alike => ?_
  cases tok with
  | tNIL => exact alike
  | tLBRACE => exact alike.parseParamsLoop fuel func
  | _ => exact alike.aklRaiseError _ _

theorem Alike.skipDocstring (alike : Alike st t) :
    Agree Alike (AkLisp.skipDocstring st) (AkLisp.skipDocstring t) := by
  refine alike.aklLex.bindBeside fun tok st t alike => ?_
  dsimp only
  by_cases string : tok = .tSTRING
  · rw [if_pos string, if_pos string]
    refine alike.takeText.bindBeside fun text st t alike => ?_
    exact alike.aklLex.bindBeside fun tok st t alike => alike
  · rw [if_neg string, if_neg string]
    simp only [CompState.aklLexPutback, alike.dev]
    exact alike.withDev _

end Params

section Operands

variable {st t : CompState σ} {aklCompileNext : CompileNext σ} (next : NextAgrees aklCompileNext)

include next

theorem Alike.set (alike : Alike st t) (cx : CompContext) :
    Agrees (AkLisp.set aklCompileNext cx st) (AkLisp.set aklCompileNext cx t) := by
  refine alike.aklLex.bindBeside fun tok st t alike => ?_
  dsimp only
  by_cases atom : tok ≠ .tATOM
  · rw [if_pos atom, if_pos atom]
    exact ⟨rfl, alike.aklRaiseError _ _⟩
  · rw [if_neg atom, if_neg atom]
    refine alike.aklLexGetSymbol.bindBeside fun sym st t alike => ?_
    refine (next cx st t alike).bindBeside fun result st t alike => ?_
    cases result.2 with
    | none => exact ⟨rfl, alike.emit cx rfl⟩
    | some fn =>
        simp only [alike.data]
        exact ⟨rfl, ((alike.withData rfl).aklBuildPush cx _).emit cx rfl⟩

theorem Alike.lambda (alike : Alike st t) (fuel : Nat) (cx : CompContext) :
    Agrees (AkLisp.lambda fuel aklCompileNext cx st) (AkLisp.lambda fuel aklCompileNext cx t) := by
  obtain ⟨funcEq, new⟩ := alike.aklNewUserFunction
  simp only [AkLisp.lambda, funcEq]
  refine (new.aklParseParams fuel _ _).bind fun st t alike => ?_
  refine alike.skipDocstring.bind fun st t alike => ?_
  refine (next _ st t alike).bindBeside fun _ st t alike => ?_
  exact ⟨rfl, alike⟩

theorem Alike.defun (alike : Alike st t) (fuel : Nat) (cx : CompContext) :
    Agrees (AkLisp.defun fuel aklCompileNext cx st) (AkLisp.defun fuel aklCompileNext cx t) := by
  obtain ⟨funcEq, new⟩ := alike.aklNewUserFunction
  simp only [AkLisp.defun, funcEq, new.data]
  refine (new.withData rfl).aklLex.bindBeside fun tok st t alike => ?_
  dsimp only
  by_cases atom : tok ≠ .tATOM
  · rw [if_pos atom, if_pos atom]
    exact ⟨rfl, alike.aklRaiseError _ _⟩
  · rw [if_neg atom, if_neg atom]
    refine alike.aklLexGetSymbol.bindBeside fun sym st t alike => ?_
    refine (alike.aklParseParams fuel _ _).bind fun st t alike => ?_
    refine alike.skipDocstring.bind fun st t alike => ?_
    refine (next _ _ _ (alike.withData (by rw [alike.data]))).bindBeside fun _ st t alike => ?_
    rw [alike.data]
    exact ⟨rfl, (alike.withData rfl).aklBuildPush _ _⟩

theorem Alike.aklCallSform (alike : Alike st t) (fuel : Nat) (cx : CompContext) (form : SForm) :
    Agrees (AkLisp.aklCallSform fuel aklCompileNext cx st form)
      (AkLisp.aklCallSform fuel aklCompileNext cx t form) := by
  cases form with
  | sif => exact alike.sif next cx
  | lambda => exact alike.lambda next fuel cx
  | when => exact alike.when next cx
  | swhile => exact alike.swhile next cx
  | defun => exact alike.defun next fuel cx
  | set => exact alike.set next cx

end Operands

/-- The ends of two rounds of the list loop. -/
inductive RoundAlike : Round σ → Round σ → Prop where
  | done {fn st t} (alike : Alike st t) : RoundAlike (.done fn st) (.done fn t)
  | again {loc st t} (alike : Alike st t) : RoundAlike (.again loc st) (.again loc t)

section List

variable {st t : CompState σ}

omit [TokenSource σ] in
theorem Alike.prefetchFunction (alike : Alike st t) (sym : Symbol) :
    AkLisp.prefetchFunction st sym = AkLisp.prefetchFunction t sym := by
  simp only [AkLisp.prefetchFunction, alike.data]
  cases t.data.globals sym with
  | none => rfl
  | some val =>
      cases called : t.data.function? val with
      | none => simp only [called]
      | some f =>
          simp only [called]
          rcases alike.function f with ⟨u, v, left, right, -⟩ | ⟨equal, -⟩
          · rw [left, right]
          · rw [equal]

omit [TokenSource σ] in
theorem Alike.sform? (alike : Alike st t) (f : FRef) : st.sform? f = t.sform? f := by
  simp only [CompState.sform?]
  rcases alike.function f with ⟨u, v, left, right, -⟩ | ⟨equal, -⟩
  · rw [left, right]
  · rw [equal]

omit [TokenSource σ] in
theorem Alike.compileAtom (alike : Alike st t) (cx : CompContext) (isQuoted : Bool) (v : VRef)
    (sym : Symbol) :
    Alike (AkLisp.compileAtom cx isQuoted v sym st) (AkLisp.compileAtom cx isQuoted v sym t) := by
  cases isQuoted with
  | true => exact alike.aklBuildPush cx _
  | false => exact alike.aklBuildLoad cx sym

omit [TokenSource σ] in
theorem Alike.compileInner (alike : Alike st t) (cx : CompContext) (loc : ListLocals)
    (f : Option FRef) :
    Beside Alike (AkLisp.compileInner cx loc f st) (AkLisp.compileInner cx loc f t) := by
  cases f with
  | none => exact ⟨rfl, alike⟩
  | some f =>
      simp only [AkLisp.compileInner, alike.data]
      by_cases first : loc.felem
      · rw [if_pos first, if_pos first]
        exact ⟨rfl, alike⟩
      · rw [if_neg first, if_neg first]
        exact ⟨rfl, (alike.withData rfl).aklBuildPush cx _⟩

omit [TokenSource σ] in
/-- The call of a list: this is where the notes may differ. -/
theorem Alike.compileEnd (alike : Alike st t) (cx : CompContext) (loc : ListLocals) :
    Beside Alike (AkLisp.compileEnd cx loc st) (AkLisp.compileEnd cx loc t) := by
  simp only [AkLisp.compileEnd, alike.data]
  cases loc.sym with
  | some sym => exact ⟨rfl, alike.emit cx rfl⟩
  | none =>
      cases loc.fun_ with
      | some f => exact ⟨rfl, alike⟩
      | none =>
          dsimp only
          by_cases form : loc.pfSt ≠ .sform
          · rw [if_pos form, if_pos form]
            exact ⟨rfl, ((alike.withData rfl).aklBuildPush cx _).aklRaiseError _ _⟩
          · rw [if_neg form, if_neg form]
            exact ⟨rfl, alike⟩

variable {aklCompileNext : CompileNext σ} (next : NextAgrees aklCompileNext)

include next

theorem Alike.compileHead (alike : Alike st t) (fuel : Nat) (cx : CompContext)
    (loc : ListLocals) (sym : Symbol) :
    Agree RoundAlike (AkLisp.compileHead fuel aklCompileNext cx loc st sym)
      (AkLisp.compileHead fuel aklCompileNext cx loc t sym) := by
  simp only [AkLisp.compileHead, alike.prefetchFunction sym]
  obtain ⟨pfSt, fun_⟩ := AkLisp.prefetchFunction t sym
  cases pfSt with
  | sform =>
      have forms : fun_.bind st.sform? = fun_.bind t.sform? := by
        cases fun_ with
        | none => rfl
        | some f => exact alike.sform? f
      dsimp only
      rw [forms]
      cases fun_.bind t.sform? with
      | none => exact .again alike
      | some form =>
          refine (alike.aklCallSform next fuel cx form).bindBeside fun fun_ st t alike => ?_
          exact .again alike
  | _ => exact .again alike

variable [Libc] {aklCompileList : CompContext → CompState σ →
  Except Fault (Option FRef × CompState σ)} (list : ∀ cx st t, Alike st t →
  Agrees (aklCompileList cx st) (aklCompileList cx t))

omit next in
/-- A token that stands for a value. -/
theorem compileValue_agrees (alike : Alike st t) (fuel : Nat) (cx : CompContext)
    (loc : ListLocals) (tok : Token) :
    Agree RoundAlike
      (do
        let (v, st) ← aklParseToken (aklParseList fuel) st tok true
        match v with
        | none => throw Fault.nullDeref
        | some v => return .again loc.countArg (aklBuildPush cx st (some v)))
      (do
        let (v, st) ← aklParseToken (aklParseList fuel) t tok true
        match v with
        | none => throw Fault.nullDeref
        | some v => return .again loc.countArg (aklBuildPush cx st (some v))) := by
  have parsed := alike.aklParseToken (fun _ _ alike => alike.aklParseList fuel) tok true
  refine parsed.bindBeside fun v st t alike => ?_
  cases v with
  | none => rfl
  | some v => exact .again (alike.aklBuildPush cx _)

include list

theorem Alike.compileToken (alike : Alike st t) (fuel : Nat) (cx : CompContext)
    (loc : ListLocals) (isQuoted : Bool) (tok : Token) :
    Agree RoundAlike
      (AkLisp.compileToken fuel aklCompileList aklCompileNext cx loc isQuoted tok st)
      (AkLisp.compileToken fuel aklCompileList aklCompileNext cx loc isQuoted tok t) := by
  cases tok with
  | tATOM =>
      refine alike.aklLexGetSymbol.bindBeside fun sym st t alike => ?_
      obtain ⟨valueEq, value⟩ := alike.newValue (.symbol sym) isQuoted false
      simp only [valueEq]
      by_cases first : loc.felem
      · rw [if_pos first, if_pos first]
        exact value.compileHead next fuel cx loc sym
      · rw [if_neg first, if_neg first]
        exact .again (value.compileAtom cx _ _ _)
  | tLBRACE =>
      cases isQuoted with
      | true =>
          have parsed := alike.aklParseToken (fun _ _ alike => alike.aklParseList fuel) .tLBRACE
            true
          exact parsed.bindBeside fun v st t alike => .again (alike.aklBuildPush cx _)
      | false =>
          refine (list cx st t alike).bindBeside fun f st t alike => ?_
          obtain ⟨locEq, inner⟩ := alike.compileInner cx loc f
          simp only [locEq]
          exact .again inner
  | tRBRACE =>
      obtain ⟨fnEq, ended⟩ := alike.compileEnd cx loc
      simp only [AkLisp.compileToken, fnEq]
      exact .done ended
  | _ => exact compileValue_agrees alike fuel cx loc _

theorem Alike.compileRound (alike : Alike st t) (fuel : Nat) (cx : CompContext)
    (loc : ListLocals) :
    Agree RoundAlike (AkLisp.compileRound fuel aklCompileList aklCompileNext cx loc st)
      (AkLisp.compileRound fuel aklCompileList aklCompileNext cx loc t) := by
  refine alike.aklLex.bindBeside fun tok st t alike => ?_
  dsimp only
  by_cases ended : tok = .tEOF
  · rw [if_pos ended, if_pos ended]
    exact .done alike
  · rw [if_neg ended, if_neg ended]
    by_cases mark : tok = .tQUOTE
    · rw [if_pos mark, if_pos mark]
      refine alike.aklLex.bindBeside fun tok st t alike => ?_
      exact alike.compileToken next list fuel cx loc true tok
    · rw [if_neg mark, if_neg mark]
      exact alike.compileToken next list fuel cx loc false tok

omit next in
theorem NextAgrees.compileNextWith (fuel : Nat) :
    NextAgrees (AkLisp.compileNextWith fuel aklCompileList) := by
  intro cx st t alike
  have value (st t : CompState σ) (alike : Alike st t) (tok ret : Token) (isQuoted : Bool) :
      Agrees
        (do
          let (v, st) ← aklParseToken (aklParseList fuel) st tok isQuoted
          return ((ret, (none : Option FRef)), aklBuildPush cx st v))
        (do
          let (v, st) ← aklParseToken (aklParseList fuel) t tok isQuoted
          return ((ret, (none : Option FRef)), aklBuildPush cx st v)) := by
    have parsed := alike.aklParseToken (fun _ _ alike => alike.aklParseList fuel) tok isQuoted
    exact parsed.bindBeside fun v st t alike => ⟨rfl, alike.aklBuildPush cx _⟩
  refine alike.aklLex.bindBeside fun tok st t alike => ?_
  cases tok with
  | tLBRACE => exact (list cx st t alike).bindBeside fun f st t alike => ⟨rfl, alike⟩
  | tQUOTE => exact alike.aklLex.bindBeside fun tok st t alike => value st t alike tok tok true
  | tEOF => exact ⟨rfl, alike⟩
  | _ => exact value st t alike _ _ false

end List

variable [Libc] {st t : CompState σ}

theorem Alike.compileLoop (fuel : Nat) (cx : CompContext) (loc : ListLocals)
    (alike : Alike st t) :
    Agrees (AkLisp.compileLoop fuel cx loc st) (AkLisp.compileLoop fuel cx loc t) := by
  induction fuel generalizing cx loc st t with
  | zero => rfl
  | succ fuel ih =>
      have list (cx : CompContext) (st t : CompState σ) (alike : Alike st t) :
          Agrees (AkLisp.compileLoop fuel cx .init st) (AkLisp.compileLoop fuel cx .init t) :=
        ih cx .init alike
      rw [AkLisp.compileLoop, AkLisp.compileLoop]
      refine (alike.compileRound (.compileNextWith list fuel) list fuel cx loc).bind ?_
      intro round round' alike
      cases alike with
      | done alike => exact ⟨rfl, alike⟩
      | again alike => exact ih cx _ alike

theorem NextAgrees.aklCompileNext (fuel : Nat) :
    NextAgrees (AkLisp.aklCompileNext (σ := σ) fuel) :=
  .compileNextWith (fun cx _ _ alike => alike.compileLoop fuel cx .init) fuel

theorem Alike.compileForms (fuel : Nat) (cx : CompContext) (alike : Alike st t) :
    Agree Alike (AkLisp.compileForms fuel cx st) (AkLisp.compileForms fuel cx t) := by
  induction fuel generalizing st t with
  | zero => rfl
  | succ fuel ih =>
      refine (NextAgrees.aklCompileNext fuel cx st t alike).bindBeside fun result st t alike => ?_
      dsimp only
      by_cases ended : result.1 = .tEOF
      · rw [if_pos ended, if_pos ended]
        exact alike
      · rw [if_neg ended, if_neg ended]
        exact ih alike

/-- A source is compiled in the same way whatever functions the calls compiled
before are noted to call. -/
theorem Alike.aklCompile (fuel : Nat) (alike : Alike st t) :
    Agrees (AkLisp.aklCompile fuel st) (AkLisp.aklCompile fuel t) := by
  obtain ⟨mainEq, new⟩ := alike.aklNewUserFunction
  simp only [AkLisp.aklCompile, mainEq]
  refine (new.compileForms fuel _).bind fun st t alike => ?_
  refine ⟨rfl, alike.modifyUfun_self _ fun u => ?_⟩
  simp only [LispFun.withoutPrefetch, popNop_withoutPrefetch]

end AkLisp
