import AkLisp.Compiler.Prefetch
import AkLisp.Machine.Core
import AkLisp.Reader.Render

/-!
# Sessions

An interpreter compiles and executes one source after the other, keeping its
functions and its data.  A session takes one machine step at a time; when the
main function of a source is done, the next source is compiled.  What happens
to the code between `akl_compile` and `akl_execute` is a parameter, so that the
session of the program and the one without prefetched functions are two
instances of one definition.
-/

namespace AkLisp

namespace Machine

/-- The machine with the prefetched function of every call removed. -/
def withoutPrefetch (m : Machine) : Machine :=
  { m with funs := AkLisp.withoutPrefetch m.funs }

/-- The name and the prefetched function of the call instruction that is executed
next, if it is one with a prefetched function. -/
def notedCall (m : Machine) : Option (Symbol × FRef) :=
  match m.control with
  | .branch _ (some ip) :: _ =>
      match fetch m.funs ip with
      | some (.call sym (some fn) _) => some (sym, fn)
      | _ => none
  | _ => none

/-- The prefetched function of the call executed next is the one its name is
bound to. -/
def UpToDate (m : Machine) : Prop :=
  ∀ call ∈ m.notedCall, (m.data.globals call.1).bind m.data.function? = some call.2

instance (m : Machine) : Decidable m.UpToDate :=
  inferInstanceAs (Decidable (∀ call ∈ m.notedCall, _))

/-- `akl_add_global_sfun` -/
def aklAddGlobalSfun (m : Machine) (name : String) (form : SForm) : Machine :=
  let (value, data) := m.data.newFunctionValue m.funs.length
  { m with
    funs := m.funs ++ [.special form]
    data := data.aklSetGlobalVar (symbolOf name) value }

/-- `akl_spec_forms` -/
def aklSpecForms : List (String × SForm) :=
  [("if", .sif), ("lambda", .lambda), ("->", .lambda), ("when", .when), ("while", .swhile),
    ("defun!", .defun), ("set!", .set)]

/-- An interpreter with the special forms and no other function. -/
def init : Machine :=
  aklSpecForms.foldl (fun m decl => m.aklAddGlobalSfun decl.1 decl.2)
    ⟨[], .init, default, [], []⟩

/-- `akl_execute` up to the body of the main function: the stack is a new one. -/
def aklExecute (m : Machine) (main : FRef) : Machine :=
  { m with stack := default, control := [.branch ⟨"", aklInitList⟩ (some (main, 0))] }

/-- The main function is left, which destroys no frame. -/
def leaveMain (m : Machine) : Option Machine :=
  match m.control with
  | [.branch _ ip] =>
      match ip.bind (fetch m.funs) with
      | none => some { m with control := [] }
      | some (.push none) =>
          some { m.aklRaiseError .warning "Interpreter error: NULL pushed to stack." with
            control := [] }
      | some _ => none
  | _ => none

end Machine

/-- An interpreter with the sources it has still to compile. -/
structure Session (σ : Type) where
  machine : Machine
  sources : List σ

namespace Session

variable {σ : Type} [TokenSource σ] [Libc]

/-- `akl_compile` and the beginning of `akl_execute` on the next source. -/
def compileNext (link : List AklFunction → List AklFunction) (fuel : Nat) (m : Machine)
    (dev : σ) : Except Fault Machine := do
  let (main, st) ← aklCompile fuel ⟨dev, m.data, m.funs, m.errors⟩
  return { m with funs := link st.funs, data := st.data, errors := st.errors }.aklExecute main

/-- One step of a session, `none` when all sources are executed or a source
cannot be compiled. -/
def step (link : List AklFunction → List AklFunction) (fuel : Nat) (s : Session σ) :
    Option (Session σ) :=
  match s.machine.control with
  | [] =>
      match s.sources with
      | [] => none
      | dev :: sources => (compileNext link fuel s.machine dev).toOption.map (⟨·, sources⟩)
  | _ :: _ => (s.machine.leaveMain <|> s.machine.step).map (⟨·, s.sources⟩)

/-- A number of steps. -/
def run (link : List AklFunction → List AklFunction) (fuel : Nat) :
    Nat → Session σ → Option (Session σ)
  | 0, s => some s
  | n + 1, s => (run link fuel n s).bind (step link fuel)

/-- The session with the prefetched function of every call removed. -/
def withoutPrefetch (s : Session σ) : Session σ :=
  { s with machine := s.machine.withoutPrefetch }

end Session

namespace Machine

@[simp] theorem fetch_withoutPrefetch (funs : List AklFunction) (ip : EntryRef) :
    fetch (AkLisp.withoutPrefetch funs) ip = (fetch funs ip).map Instr.withoutPrefetch := by
  simp only [fetch, ufun?, withoutPrefetch_getElem?]
  cases funs[ip.1]? with
  | none => rfl
  | some fn =>
      cases fn with
      | user ufun => simp [AklFunction.withoutPrefetch, AklFunction.ufun?, LispFun.withoutPrefetch]
      | cfun c => rfl
      | special form => rfl

@[simp] theorem target_withoutPrefetch (funs : List AklFunction) (l : LabelRef) :
    target (AkLisp.withoutPrefetch funs) l = target funs l := by
  simp only [target, ufun?, withoutPrefetch_getElem?]
  cases funs[l.fn]? with
  | none => rfl
  | some fn => cases fn <;> rfl

theorem aklCallFunctionBound_withoutPrefetch (m : Machine) (name : String) (fn : FRef)
    (argc : Nat) (rest : List Activation) :
    m.withoutPrefetch.aklCallFunctionBound name fn argc rest =
      (m.aklCallFunctionBound name fn argc rest).withoutPrefetch := by
  simp only [aklCallFunctionBound, withoutPrefetch, withoutPrefetch_getElem?]
  cases m.funs[fn]? with
  | none => rfl
  | some fn => cases fn <;> rfl

/-- A call finds the same function without its note, if the note is up to date. -/
theorem aklBoundFunction_withoutPrefetch (m : Machine) {sym : Symbol} {fn : Option FRef}
    (upToDate : ∀ f, fn = some f → (m.data.globals sym).bind m.data.function? = some f) :
    m.withoutPrefetch.aklBoundFunction sym none = m.aklBoundFunction sym fn := by
  cases fn with
  | none => rfl
  | some f =>
      obtain ⟨v, bound, called⟩ := Option.bind_eq_some_iff.mp (upToDate f rfl)
      simp only [aklBoundFunction, withoutPrefetch, bound, called]

/-- An instruction does the same without its note. -/
theorem execInstr_withoutPrefetch (m : Machine) (cx : Context) (ip : EntryRef)
    (rest : List Activation) (instr : Instr)
    (upToDate : ∀ sym f argc, instr = .call sym (some f) argc →
      (m.data.globals sym).bind m.data.function? = some f) :
    m.withoutPrefetch.execInstr cx ip rest instr.withoutPrefetch =
      (m.execInstr cx ip rest instr).withoutPrefetch := by
  cases instr with
  | call sym fn argc =>
      have bound : m.withoutPrefetch.aklBoundFunction sym none = m.aklBoundFunction sym fn :=
        m.aklBoundFunction_withoutPrefetch fun f equal => upToDate sym f argc (by rw [equal])
      simp only [Instr.withoutPrefetch, execInstr, bound]
      cases m.aklBoundFunction sym fn with
      | error message => rfl
      | ok f => exact m.aklCallFunctionBound_withoutPrefetch _ _ _ _
  | push value => cases value <;> rfl
  | set sym =>
      simp only [Instr.withoutPrefetch, execInstr, withoutPrefetch]
      cases aklStackTop m.stack <;> rfl
  | get sym =>
      simp only [Instr.withoutPrefetch, execInstr, withoutPrefetch]
      cases m.data.globals sym <;> rfl
  | load ind =>
      simp only [Instr.withoutPrefetch, execInstr, withoutPrefetch]
      cases aklFrameAt m.stack cx.cxFrame ind <;> rfl
  | jmp l =>
      simp only [Instr.withoutPrefetch, execInstr, withoutPrefetch, target_withoutPrefetch]
      rfl
  | jt l =>
      simp only [Instr.withoutPrefetch, execInstr, withoutPrefetch, target_withoutPrefetch]
      rfl
  | jn l =>
      simp only [Instr.withoutPrefetch, execInstr, withoutPrefetch, target_withoutPrefetch]
      rfl
  | branch lt lf =>
      simp only [Instr.withoutPrefetch, execInstr, withoutPrefetch, target_withoutPrefetch]
      rfl
  | nop => rfl
  | ret => rfl

theorem execCfun_withoutPrefetch (m : Machine) (cx : Context) (rest : List Activation)
    (prog : CProg) :
    m.withoutPrefetch.execCfun cx rest prog = (m.execCfun cx rest prog).withoutPrefetch := by
  cases prog with
  | ret value => cases value <;> rfl
  | call name fn argc k => exact m.aklCallFunctionBound_withoutPrefetch _ _ _ _
  | _ => rfl

/-- One step. -/
theorem step_withoutPrefetch (m : Machine) (upToDate : m.UpToDate) :
    m.withoutPrefetch.step = m.step.map withoutPrefetch := by
  simp only [step]
  rw [show m.withoutPrefetch.control = m.control from rfl]
  cases control : m.control with
  | nil => rfl
  | cons act rest =>
      cases act with
      | await cx k => rfl
      | cfun cx prog =>
          simp only [execCfun_withoutPrefetch, Option.map_some]
      | branch cx ip =>
          cases ip with
          | none => rfl
          | some ip =>
              simp only [withoutPrefetch, fetch_withoutPrefetch]
              cases fetched : fetch m.funs ip with
              | none => rfl
              | some instr =>
                  refine congrArg some (m.execInstr_withoutPrefetch cx ip rest instr ?_)
                  rintro sym f argc rfl
                  refine upToDate (sym, f) ?_
                  simp only [notedCall, control, fetched, Option.mem_def]

theorem leaveMain_withoutPrefetch (m : Machine) :
    m.withoutPrefetch.leaveMain = m.leaveMain.map withoutPrefetch := by
  simp only [leaveMain, withoutPrefetch]
  cases m.control with
  | nil => rfl
  | cons act rest =>
      cases act with
      | await cx k => rfl
      | cfun cx prog => rfl
      | branch cx ip =>
          cases rest with
          | cons act rest => rfl
          | nil =>
              cases ip with
              | none => rfl
              | some ip =>
                  simp only [Option.bind_some, fetch_withoutPrefetch]
                  cases fetch m.funs ip with
                  | none => rfl
                  | some instr =>
                      cases instr with
                      | push value => cases value <;> rfl
                      | _ => rfl

end Machine

namespace Session

variable {σ : Type} [TokenSource σ] [Libc]

/-- The next source is compiled to the same code up to prefetched functions. -/
theorem compileNext_withoutPrefetch (fuel : Nat) (m : Machine) (dev : σ) :
    compileNext AkLisp.withoutPrefetch fuel m.withoutPrefetch dev =
      (compileNext id fuel m dev).map Machine.withoutPrefetch := by
  have alike : Alike (σ := σ) ⟨dev, m.data, AkLisp.withoutPrefetch m.funs, m.errors⟩
      ⟨dev, m.data, m.funs, m.errors⟩ :=
    ⟨rfl, rfl, rfl, withoutPrefetch_idem m.funs⟩
  have agree := alike.aklCompile fuel
  simp only [compileNext, Machine.withoutPrefetch]
  revert agree
  cases aklCompile fuel (⟨dev, m.data, AkLisp.withoutPrefetch m.funs, m.errors⟩ : CompState σ) with
  | error e =>
      cases aklCompile fuel (⟨dev, m.data, m.funs, m.errors⟩ : CompState σ) with
      | error f =>
          intro equal
          exact congrArg Except.error equal
      | ok y => exact False.elim
  | ok x =>
      cases aklCompile fuel (⟨dev, m.data, m.funs, m.errors⟩ : CompState σ) with
      | error f => exact False.elim
      | ok y =>
          rintro ⟨mainEq, alike⟩
          simp only [bind, Except.bind, pure, Except.pure, Except.map, mainEq, alike.funs,
            alike.data, alike.errors]
          rfl

/-- One step of a session. -/
theorem step_withoutPrefetch (fuel : Nat) (s : Session σ) (upToDate : s.machine.UpToDate) :
    step AkLisp.withoutPrefetch fuel s.withoutPrefetch =
      (step id fuel s).map withoutPrefetch := by
  simp only [step]
  rw [show s.withoutPrefetch.machine.control = s.machine.control from rfl]
  cases control : s.machine.control with
  | nil =>
      rw [show s.withoutPrefetch.sources = s.sources from rfl]
      cases s.sources with
      | nil => rfl
      | cons dev sources =>
          have compiled := compileNext_withoutPrefetch fuel s.machine dev
          simp only [withoutPrefetch, compiled]
          cases compileNext id fuel s.machine dev <;> rfl
  | cons act rest =>
      have left := s.machine.leaveMain_withoutPrefetch
      have stepped := s.machine.step_withoutPrefetch upToDate
      simp only [withoutPrefetch, left, stepped]
      cases s.machine.leaveMain with
      | some m => rfl
      | none => cases s.machine.step <;> rfl

/-- In a session all of whose calls have notes that are up to date, every step
is the one the session without notes takes. -/
theorem prefetch_transparent (fuel n : Nat) (s : Session σ)
    (upToDate : ∀ k < n, ∀ t ∈ run id fuel k s, t.machine.UpToDate) :
    run AkLisp.withoutPrefetch fuel n s.withoutPrefetch =
      (run id fuel n s).map withoutPrefetch := by
  induction n with
  | zero => rfl
  | succ n ih =>
      have before := ih fun k less => upToDate k (Nat.lt_succ_of_lt less)
      simp only [run, before]
      cases reached : run id fuel n s with
      | none => rfl
      | some t => exact t.step_withoutPrefetch fuel (upToDate n (Nat.lt_succ_self n) t reached)

end Session

namespace Session

/-- A session over one text. -/
def ofText (text : String) : Session Dev :=
  ⟨.init, [aklNewStringDevice (fun _ => 0) (text.toList.map code) 0 .tEOF]⟩

theorem prefetch_transparent_once :
    @run Dev _ decimalLibc AkLisp.withoutPrefetch 40 6
        (ofText "(defun! f () T) (f)").withoutPrefetch =
      (@run Dev _ decimalLibc id 40 6 (ofText "(defun! f () T) (f)")).map withoutPrefetch :=
  @prefetch_transparent Dev _ decimalLibc 40 6 _ (by decide +kernel)

/-- The value on top of the stack after a number of steps, when all sources are
executed. -/
def outcome (s : Option (Session Dev)) : Option Payload :=
  (s.filter fun s => s.machine.control.isEmpty && s.sources.isEmpty).bind fun s =>
    (aklStackTop s.machine.stack).bind s.machine.data.payload

/-- `g` calls the first `f` with the note and the second one without it. -/
theorem prefetch_observable :
    outcome (@run Dev _ decimalLibc id 60 12
        (ofText "(defun! f () T) (defun! g () (f)) (defun! f () NIL) (g)")) = some .true ∧
      outcome (@run Dev _ decimalLibc AkLisp.withoutPrefetch 60 12
        (ofText "(defun! f () T) (defun! g () (f)) (defun! f () NIL) (g)").withoutPrefetch) =
          some .nil := by
  constructor
  · decide +kernel
  · decide +kernel

end Session

end AkLisp
