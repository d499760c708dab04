import AkLisp.Builtins.Stack
import AkLisp.Compiler.Emission
import AkLisp.Source.Core

/-!
# Compiled expressions are evaluated

The compiler emits the code of a form that stands for the expression, and a run of
this code does what the evaluator says of the form.  So the core language is run as
it is evaluated, and any expression leaves one value as an argument if its
evaluation notes no slip.
-/

namespace AkLisp

open Linked Machine

/-! ### Compiled functions -/

/-- The functions of the program are those of the machine, the user functions as the
compiler leaves them. -/
structure Program.CompiledIn (Γ : Program) (funs : List AklFunction) : Prop where
  cfun : ∀ {fn cfun}, Γ fn = some (.cfun cfun) → funs[fn]? = some (.cfun cfun)
  user : ∀ {fn argc body}, Γ fn = some (.user argc body) → ∃ args : List Symbol,
    args.length = argc ∧ Draft funs fn args (body.code fn 0) (boundLabels fn 0 (body.binds 0))

/-- The program without the functions that have no code. -/
def Program.running (Γ : Program) : Program := fun fn =>
  match Γ fn with
  | some (.user _ (.pushes [])) => none
  | callee => callee

section Running

variable {Γ : Program} {fn : FRef} {argc : Nat} {body : Expr} {cfun : Nat → CProg}

theorem Program.running_cfun : Γ.running fn = some (.cfun cfun) ↔ Γ fn = some (.cfun cfun) := by
  unfold running
  split
  · next callee => simp [callee]
  · rfl

theorem Program.running_user :
    Γ.running fn = some (.user argc body) ↔
      Γ fn = some (.user argc body) ∧ body ≠ .pushes [] := by
  unfold running
  split
  · next callee =>
      simp only [callee, reduceCtorEq, Option.some.injEq, Callee.user.injEq, false_iff, not_and,
        not_not]
      rintro ⟨-, rfl⟩
      rfl
  · next notEmpty =>
      constructor
      · intro callee
        refine ⟨callee, ?_⟩
        rintro rfl
        exact notEmpty argc callee
      · exact And.left

theorem Expr.code_nonempty (f : FRef) (lc : Nat) {E : Expr} (other : E ≠ .pushes []) :
    E.code f lc ≠ [] := by
  cases E with
  | pushes vs =>
      intro empty
      exact other (congrArg Expr.pushes (List.map_eq_nil_iff.mp empty))
  | _ => simp [Expr.code]

/-- What the compiler leaves is what the simulation asks for. -/
theorem Program.CompiledIn.implements {funs : List AklFunction} (compiled : Γ.CompiledIn funs) :
    Implements funs Γ.running where
  cfun := fun callee => compiled.cfun (running_cfun.mp callee)
  user := fun {fn argc body} callee => by
    obtain ⟨callee, other⟩ := running_user.mp callee
    obtain ⟨args, lengthEq, ir, found, created⟩ := compiled.user callee
    rcases createOrGetInstr_append created with empty | bodyEq
    · exact absurd empty (body.code_nonempty fn 0 other)
    · exact ⟨_, found, lengthEq, bodyEq, rfl⟩

/-- A function without code notes a slip, so an evaluation that notes none does without
these. -/
theorem Eval.running {task : Task} {d d' : Data} {slips : List Slip} {vs : List VRef}
    (eval : Eval Γ task d slips vs d') (clean : slips = []) :
    Eval Γ.running task d slips vs d' := by
  induction eval with
  | lit => exact .lit
  | param found => exact .param found
  | globalBound found => exact .globalBound found
  | globalUndefined undefined => exact .globalUndefined undefined
  | pushes => exact .pushes
  | call _ bound function keeps _ ihArgs ihApplied =>
      obtain ⟨cleanArgs, cleanApplied⟩ := List.append_eq_nil_iff.mp clean
      exact .call (ihArgs cleanArgs) bound function keeps (ihApplied cleanApplied)
  | sifTrue _ holds _ ihCond ihBody =>
      obtain ⟨cleanCond, cleanBody⟩ := List.append_eq_nil_iff.mp clean
      exact .sifTrue (ihCond cleanCond) holds (ihBody cleanBody)
  | sifFalse _ fails _ ihCond ihBody =>
      obtain ⟨cleanCond, cleanBody⟩ := List.append_eq_nil_iff.mp clean
      exact .sifFalse (ihCond cleanCond) fails (ihBody cleanBody)
  | set _ ih => exact .set (ih clean)
  | whenTrue _ holds _ ihCond ihBody =>
      obtain ⟨cleanCond, cleanBody⟩ := List.append_eq_nil_iff.mp clean
      exact .whenTrue (ihCond cleanCond) holds (ihBody cleanBody)
  | whenFalse _ fails ih => exact .whenFalse (ih (List.append_eq_nil_iff.mp clean).1) fails
  | swhile _ ih => exact .swhile (ih clean)
  | loopEnd _ fails ih => exact .loopEnd (ih (List.append_eq_nil_iff.mp clean).1) fails
  | loopRound _ holds _ _ ihCond ihBody ihRounds =>
      obtain ⟨cleanFront, cleanRounds⟩ := List.append_eq_nil_iff.mp clean
      obtain ⟨cleanCond, cleanBody⟩ := List.append_eq_nil_iff.mp cleanFront
      exact .loopRound (ihCond cleanCond) holds (ihBody cleanBody) (ihRounds cleanRounds)
  | argsNil => exact .argsNil
  | argsCons _ _ ihFirst ihOthers =>
      obtain ⟨cleanFirst, cleanOthers⟩ := List.append_eq_nil_iff.mp clean
      exact .argsCons (ihFirst cleanFirst) (ihOthers cleanOthers)
  | @applyUser fn args body d s v d' callee intArgc value ih =>
      have other : body ≠ .pushes [] := by
        rintro rfl
        cases value with
        | pushes => cases clean
      exact .applyUser (Program.running_user.mpr ⟨callee, other⟩) intArgc (ih clean)
  | applyCfun callee intArgc _ ih =>
      exact .applyCfun (Program.running_cfun.mpr callee) intArgc (ih clean)
  | ret => exact .ret
  | shift _ ih => exact .shift (ih clean)
  | pop _ ih => exact .pop (ih clean)
  | push _ ih => exact .push (ih clean)
  | stackPop _ ih => exact .stackPop (ih clean)
  | read _ ih => exact .read (ih clean)
  | write _ ih => exact .write (ih clean)
  | raise _ ih => exact .raise (ih clean)
  | callback _ _ ihApplied ihNext =>
      obtain ⟨cleanApplied, cleanNext⟩ := List.append_eq_nil_iff.mp clean
      exact .callback (ihApplied cleanApplied) (ihNext cleanNext)

end Running

/-! ### The emitted code in a program -/

section Program

variable {f : FRef} {args args' : List Symbol} {code new : List Instr}
  {labels labels' : List Label} {s s' : CompState Unit} {E : Expr}

/-- The emitted code stands in the function. -/
theorem Setting.codeAt (x : Setting f) (draft : Draft s.funs f args (code ++ new) labels)
    (nonempty : new ≠ []) : CodeAt (x.program s.funs) f code.length new := by
  have fetched : ∀ j instr, new[j]? = some instr →
      Machine.fetch (x.program s.funs) (f, code.length + j) = some instr := by
    intro j instr found
    apply x.fetch draft
    rw [List.getElem?_append_right (Nat.le_add_right _ _), Nat.add_sub_cancel_left, found]
  obtain ⟨first, more, rfl⟩ := List.exists_cons_of_ne_nil nonempty
  obtain ⟨ufun, ufunEq, -⟩ := Option.bind_eq_some_iff.mp (fetched 0 first rfl)
  refine ⟨ufun, ufunEq, fun j instr found => ?_⟩
  have instrAt := fetched j instr found
  rwa [Machine.fetch, ufunEq, Option.bind_some] at instrAt

/-- Its labels are bound in the function. -/
theorem Setting.labelsAt (x : Setting f) {binds : List Nat}
    (draft : Draft s.funs f args code (labels ++ boundLabels f labels.length binds))
    (user : ∃ ufun, ufun? (x.program s.funs) f = some ufun) :
    LabelsAt (x.program s.funs) f labels.length binds := by
  obtain ⟨ufun, ufunEq⟩ := user
  obtain ⟨body, stateEq, -⟩ := draft.ufun
  obtain ⟨body', functionEq, -⟩ := draft
  have stateUfun : ufun? s.funs f =
      some ⟨args, body', labels ++ boundLabels f labels.length binds⟩ := by
    rw [ufun?, functionEq, Option.bind_some, AklFunction.ufun?]
  refine ⟨ufun, ufunEq, fun j branch found => ?_⟩
  rw [List.getElem?_map, Option.map_eq_some_iff] at found
  obtain ⟨pos, bindEq, rfl⟩ := found
  have labelEq : (labels ++ boundLabels f labels.length binds)[labels.length + j]? =
      some (boundLabel f (labels.length + j) pos) := by
    rw [List.getElem?_append_right (Nat.le_add_right _ _), Nat.add_sub_cancel_left,
      boundLabels, List.getElem?_mapIdx, bindEq]
    rfl
  have inside := (List.getElem?_eq_some_iff.mp labelEq).1
  have targetEq := x.labels s (labels.length + j) (by rw [stateEq]; exact inside)
  simp only [Machine.target, ufunEq, stateUfun, Option.bind_some, labelEq, boundLabel] at targetEq
  rw [List.getElem?_map, Option.map_eq_some_iff]
  exact Option.bind_eq_some_iff.mp targetEq

/-- A run of the code that is emitted between two states comes to its end with the value
on top of the stack. -/
def Setting.Leaves (x : Setting f) (s s' : CompState Unit) (v : VRef) (d : Data) : Prop :=
  ∃ m' a, Reaches (x.start s s') m' ∧
    m'.At (x.program s'.funs) d (x.cells ++ [(a, v)]) (x.control (s'.position f))

/-- The code of a form leaves the value the evaluator finds, if the evaluation notes no
slip. -/
theorem Setting.follows (x : Setting f) {S : Scope} (draft : Draft s.funs f args code labels)
    (compiled : Compiled S f args code labels s s' E) {Γ : Program}
    (functions : Γ.CompiledIn (x.program s'.funs)) {v : VRef} {d : Data}
    (eval : Eval Γ (.expr x.params E) (x.environment s'.data) [] [v] d) : x.Leaves s s' v d := by
  have notEmpty : E ≠ .pushes [] := by
    rintro rfl
    cases eval
  have codeAt := x.codeAt compiled.draft (E.code_nonempty f labels.length notEmpty)
  have ⟨ufun, ufunEq, _⟩ := codeAt
  have labelsAt := x.labelsAt compiled.draft ⟨ufun, ufunEq⟩
  obtain ⟨m', a, reaches, at'⟩ :=
    ((eval.running rfl).simulated functions.implements rfl _ f code.length
    labels.length x.cx x.rest x.cells codeAt labelsAt x.frame (x.start_at draft s')).pushed
  have endEq : s'.position f = code.length + E.size := by
    rw [compiled.draft.position, List.length_append, Expr.code_length]
  refine ⟨m', a, reaches, ?_⟩
  rw [endEq]
  exact at'

/-- A function that was called from nowhere leaves the code once only: behind it the run
comes to its end. -/
theorem Setting.leaves_once (x : Setting f) (alone : x.rest = [])
    (draft : Draft s'.funs f args code labels) (nonempty : code ≠ []) {m₁ : Machine}
    (funsEq : m₁.funs = s'.funs)
    (arrives : Arrives step (fun m => m.control = x.control (s'.position f)) (x.start s s') m₁)
    {v : VRef} {d : Data} (leaves : x.Leaves s s' v d) :
    ∃ a, m₁.stack.Holds (x.cells ++ [(a, v)]) := by
  obtain ⟨m', a, reaches, at'⟩ := leaves
  have later := arrives.reaches_later reaches at'.control_eq
  obtain ⟨nop, last⟩ := draft.fetch_end nonempty
  have controlEq := arrives.met
  have endEq := at'.control_eq
  simp only [Setting.control, alone, draft.position] at controlEq endEq
  have first : step m₁ = some (m₁.goto x.cx (some (f, code.length + 1)) []) := by
    rw [step, controlEq]
    simp only [funsEq, nop]
    rfl
  have second : step (m₁.goto x.cx (some (f, code.length + 1)) []) =
      some ((m₁.goto x.cx (some (f, code.length + 1)) []).returnBranch x.cx []) := by
    simp only [step, goto, funsEq, last]
  rcases reaches_next first later with rfl | later
  · exact ⟨a, at'.holds⟩
  · rcases reaches_next second later with rfl | later
    · simp [goto] at endEq
    · obtain rfl := reaches_stopped rfl later
      simp [returnBranch, resume] at endEq

end Program

/-! ### What is known at the start -/

/-- A name that can be at the head of a call: it is bound to a function that is not a special
form, or it is not bound yet. -/
def CompState.Callable (s : CompState Unit) (sym : Symbol) : Prop :=
  (prefetchFunction s sym).1 = .normal ∨ (prefetchFunction s sym).1 = .notFound

/-- A function that may be noted for a call: the one that is bound to the name, or, if there
are definitions, a new one. -/
def CompState.Fetches (s : CompState Unit) (define : Prop) (sym : Symbol) (fun_ : Option FRef) :
    Prop :=
  fun_ = (prefetchFunction s sym).2 ∨ define ∧ ∃ func, fun_ = some func ∧ s.funs.length ≤ func

/-- What is known of the names in a state. -/
def Scope.of (s : CompState Unit) (define : Prop) : Scope :=
  ⟨s.Callable, s.Fetches define, define⟩

theorem Scope.of_prepared {s : CompState Unit} (bound : s.data.Bound)
    (special : ∀ form : SForm, s.formName form.symbol = some form) (define : Prop) :
    (Scope.of s define).Prepared s where
  bound := bound
  special := special
  callable := fun _ called => ⟨_, _, rfl, called, .inl rfl⟩
  new := fun defines _ func behind => .inr ⟨defines, func, rfl, behind⟩

/-- Every user function has the code of a core expression. -/
def Program.Core [Libc] (Γ : Program) (funs : List AklFunction) (d : Data) : Prop :=
  ∀ fn argc body, Γ fn = some (.user argc body) → ∃ (params : List (List Chr)) (e : Form),
    argc = params.length ∧ e.Core (fun _ => True) ∧
      e.Resolves (fun _ _ => True) funs d fn (params.map aklGetOrCreateSymbol) .next body

/-! ### Every expression -/

section Every

variable [Libc] {f : FRef} {args : List Symbol} {code : List Instr} {labels : List Label}
  {s : CompState Unit} {e : Form}

/-- The core language is run as it is evaluated: what the compiler emits for a core
expression leaves the value and the data the evaluator finds, in every program of core
functions and in every setting. -/
theorem core_run_agrees (bound : s.data.Bound)
    (special : ∀ form : SForm, s.formName form.symbol = some form)
    (draft : Draft s.funs f args code labels) (core : e.Core s.Callable) :
    ∃ fn s' E, (∀ {σ : Type} [TokenSource σ] (D : Delivery σ),
        Compiles D e.tokens s fn s' (.next ⟨f, f⟩)) ∧
      e.Resolves (s.Fetches False) s'.funs s'.data f args .next E ∧
      ∀ (x : Setting f) (Γ : Program), Γ.CompiledIn (x.program s'.funs) →
        Γ.Core (x.program s'.funs) (x.environment s'.data) → ∀ slips v d,
        Eval Γ (.expr x.params E) (x.environment s'.data) slips [v] d → x.Leaves s s' v d := by
  have wellFormed : e.WellFormed (Scope.of s False).functions := core.wellFormed
  obtain ⟨s', E, ⟨fn, taken⟩, compiled, resolves⟩ := wellFormed.compiles core.not_defines .next f
    args code labels s draft (Scope.of_prepared bound special False)
  refine ⟨fn, s', E, fun D => taken.sound, resolves, ?_⟩
  intro x Γ functions coreFunctions slips v d eval
  have bodies : ∀ fn argc body, Γ fn = some (.user argc body) → body.Plain := by
    intro fn argc body callee
    obtain ⟨params, e', -, core', resolves'⟩ := coreFunctions fn argc body callee
    exact core'.plain resolves'
  obtain rfl := eval.clean bodies (core.plain resolves)
  exact x.follows draft compiled functions eval

/-- As an argument of a call the expression leaves one value on the stack, the one the
evaluator finds, in every program and in every setting in which the slips of its evaluation
are of this kind. -/
def LeavesOneValue (f : FRef) (args : List Symbol) (s : CompState Unit) (e : Form)
    (allowed : List Slip → Prop) : Prop :=
  ∃ s' E, (∀ {σ : Type} [TokenSource σ] (D : Delivery σ),
      CompilesArg D ⟨f, f⟩ e.tokens s s') ∧
    e.Resolves (s.Fetches True) s'.funs s'.data f args .arg E ∧
    ∀ (x : Setting f) (Γ : Program), Γ.CompiledIn (x.program s'.funs) → ∀ slips v d,
      Eval Γ (.expr x.params E) (x.environment s'.data) slips [v] d → allowed slips →
        x.Leaves s s' v d

/-- An expression leaves one value if its evaluation notes no slip. -/
theorem leaves_one_value (bound : s.data.Bound)
    (special : ∀ form : SForm, s.formName form.symbol = some form)
    (draft : Draft s.funs f args code labels) (wellFormed : e.WellFormed s.Callable) :
    LeavesOneValue f args s e (· = []) := by
  have inside : e.WellFormed (Scope.of s True).functions := wellFormed
  obtain ⟨s', E, taken, compiled, resolves⟩ := inside.compiles (fun _ => trivial) .arg f
    args code labels s draft (Scope.of_prepared bound special True)
  refine ⟨s', E, fun D => taken.compilesArg, resolves, ?_⟩
  rintro x Γ functions slips v d eval rfl
  exact x.follows draft compiled functions eval

end Every

/-- An interpreter with `clear-stack` that compiles its first function. -/
def clearState : CompState Unit :=
  ⟨(), (Machine.init.data.newFunctionValue Machine.init.funs.length).2.aklSetGlobalVar
      (symbolOf "clear-stack") (Machine.init.data.newFunctionValue Machine.init.funs.length).1,
    Machine.init.funs ++ [.cfun fun _ => aklFnClearStack 2, .user default], []⟩

/-- A value lies on the stack. -/
def clearSetting : Setting (Machine.init.funs.length + 1) where
  program := id
  environment d := { d with globals := clearState.data.globals }
  globals := clearState.data.globals
  cx := ⟨"", aklInitList⟩
  stack := aklStackPush default Data.aklTrue
  cells := [((default : StackState VRef).mem.top, Data.aklTrue)]
  params := []
  errors := []
  rest := []
  code := fun _ _ _ => rfl
  labels := fun _ _ _ => rfl
  values := fun _ _ _ found => found
  sameGlobals := fun _ => rfl
  holds := StackState.Holds.empty.push _
  frame := ⟨[((default : StackState VRef).mem.top, Data.aklTrue)], [], [], rfl,
    ⟨rfl, by decide, fun other => absurd rfl other, fun other => absurd rfl other⟩, rfl⟩

theorem clearState_special (form : SForm) : clearState.formName form.symbol = some form := by
  cases form <;> decide +kernel

theorem clearState_draft :
    Draft clearState.funs (Machine.init.funs.length + 1) [] [] [] :=
  ⟨[], by simp [clearState]; rfl, rfl⟩

theorem clearState_bound : clearState.data.Bound := Machine.init_bound.registered _ _

/-- A program without functions. -/
theorem Program.CompiledIn.none (funs : List AklFunction) :
    Program.CompiledIn (fun _ => Option.none) funs where
  cfun := fun callee => by cases callee
  user := fun callee => by cases callee

theorem Program.Core.none [Libc] (funs : List AklFunction) (d : Data) :
    Program.Core (fun _ => Option.none) funs d := by
  intro fn argc body callee
  cases callee

/-- The code of `(set! x T)` leaves `T` above the value on the stack, and `x` is bound to it. -/
theorem core_run_agrees_set :
    ∃ fn s' v, (∀ {σ : Type} [TokenSource σ] (D : Delivery σ), @Compiles _ _ decimalLibc D
        (Form.set [code 'x'] (.literal .true)).tokens clearState fn s'
        (.next ⟨Machine.init.funs.length + 1, Machine.init.funs.length + 1⟩)) ∧
      s'.data.payload v = some .true ∧
      clearSetting.Leaves clearState s' v ((clearSetting.environment s'.data).aklSetGlobalVar
        (aklGetOrCreateSymbol [code 'x']) v) := by
  rcases @core_run_agrees decimalLibc _ _ _ _ _ (.set [code 'x'] (.literal .true)) clearState_bound
    clearState_special clearState_draft trivial with ⟨fn, s', E, compiles, resolves, runs⟩
  rcases resolves with ⟨valueE, rfl, v, rfl, payloadEq⟩
  exact ⟨fn, s', v, compiles, payloadEq,
    runs clearSetting _ (.none _) (@Program.Core.none decimalLibc _ _) [] v _ (.set .lit)⟩

/-- As an argument `(set! x (lambda () T))` leaves the function, and `x` is bound to it. -/
theorem leaves_one_value_set :
    ∃ s' v func, (∀ {σ : Type} [TokenSource σ] (D : Delivery σ), @CompilesArg _ _ decimalLibc D
        ⟨Machine.init.funs.length + 1, Machine.init.funs.length + 1⟩
        (Form.set [code 'x'] (.lambda [] (.literal .true))).tokens clearState s') ∧
      s'.data.payload v = some (.function func) ∧
      clearSetting.Leaves clearState s' v ((clearSetting.environment s'.data).aklSetGlobalVar
        (aklGetOrCreateSymbol [code 'x']) v) := by
  rcases @leaves_one_value decimalLibc _ _ _ _ _ (.set [code 'x'] (.lambda [] (.literal .true)))
    clearState_bound clearState_special clearState_draft ⟨id, trivial⟩ with
    ⟨s', E, compiles, resolves, runs⟩
  rcases resolves with ⟨valueE, rfl, func, bodyE, v, rfl, payloadEq, -⟩
  exact ⟨s', v, func, compiles, payloadEq (by decide),
    runs clearSetting _ (.none _) [] v _ (.set .lit) rfl⟩

/-- The code `akl_compile_next` emits for the expression leaves some value above the others. -/
def LeavesValue [Libc] {f : FRef} (x : Setting f) (s : CompState Unit) (e : Form) : Prop :=
  ∃ fn s', (∀ {σ : Type} [TokenSource σ] (D : Delivery σ),
      Compiles D e.tokens s fn s' (.next ⟨f, f⟩)) ∧ ∃ v d, x.Leaves s s' v d

/-- `(clear-stack)`. -/
def clearCall : Form := .call ("clear-stack".toList.map code) .nil

theorem clearCall_core : clearCall.Core clearState.Callable :=
  ⟨.inl (by decide +kernel), trivial⟩

theorem clearState_function :
    clearState.funs[Machine.init.funs.length]? = some (.cfun fun _ => aklFnClearStack 2) := by
  simp [clearState]

theorem clearState_fetched : (prefetchFunction clearState (aklGetOrCreateSymbol
    ("clear-stack".toList.map code))).2 = some Machine.init.funs.length := by
  decide +kernel

/-- The call of `clear-stack` takes the value off the stack that lies there already. -/
theorem clear_stack_leaves_nothing :
    clearCall.Core clearState.Callable ∧
      ¬@LeavesValue decimalLibc _ clearSetting clearState clearCall := by
  let libc := decimalLibc
  refine ⟨clearCall_core, ?_⟩
  rintro ⟨fn, s', makes, v, d, leaves⟩
  have wellFormed : clearCall.WellFormed (Scope.of clearState False).functions :=
    clearCall_core.wellFormed
  obtain ⟨s'', E, ⟨fn', taken⟩, compiled, resolves⟩ := wellFormed.compiles
    clearCall_core.not_defines .next _ _ _ _ _ clearState_draft
    (Scope.of_prepared clearState_bound clearState_special False)
  obtain ⟨-, rfl⟩ := (makes tokStreamDelivery).unique taken.sound
  obtain ⟨prefetched, argsE, rfl, noted, rfl⟩ := resolves
  obtain rfl : prefetched = some Machine.init.funs.length := by
    rcases noted with noted | ⟨never, -⟩
    · rw [noted, clearState_fetched]
    · cases never
  have callee := compiled.extended.funs _ _ (Nat.ne_of_lt (Nat.lt_succ_self _)) clearState_function
  have start := clearSetting.start_at clearState_draft s'
  obtain ⟨m₁, stepEq, at₁⟩ := start.call_cfun (compiled.draft.fetch rfl) callee
  have holds : (clearSetting.start clearState s').stack.Holds (clearSetting.cells ++ []) := by
    simpa using start.holds
  have on := (holds.aklInitFrame (by decide)).on
  obtain ⟨m₂, a, arrives, at₂⟩ := at₁.clearStack (Nat.lt_succ_self 1) on
  have endEq : s'.position (Machine.init.funs.length + 1) = 1 := compiled.draft.position
  have whole : Arrives step (fun m => m.control =
      clearSetting.control (s'.position (Machine.init.funs.length + 1)))
      (clearSetting.start clearState s') m₂ := by
    rw [endEq]
    refine .step ?_ stepEq arrives
    rw [start.control_eq]
    simp [Setting.control]
  obtain ⟨b, both⟩ :=
    clearSetting.leaves_once rfl compiled.draft (by simp [Expr.code]) at₂.funs_eq whole leaves
  have lengths := congrArg List.length (at₂.holds.unique both)
  simp [clearSetting] at lengths

/-- `(defun! g () T)` as an argument leaves two values. -/
theorem definition_leaves_two :
    ¬@LeavesOneValue decimalLibc Machine.init.funs.length [] firstState
      (.defun [code 'g'] [] (.literal .true)) fun _ => True := by
  let libc := decimalLibc
  rintro ⟨s', E, makes, resolves, leaves⟩
  obtain ⟨func, bodyE, nval, fval, rfl, -⟩ := resolves
  obtain ⟨fn, sn, sa, v, w, -, arg, -, -, twice⟩ :=
    @defun_pushes _ Machine.init.funs.length [] [] [] firstState [code 'g'] [] (.literal .true)
      Machine.init_bound firstState_special (fun form => by cases form <;> decide) id trivial
      firstState_draft
  obtain rfl := (makes tokStreamDelivery).unique arg.compilesArg
  have left := leaves (.bare _) (fun _ => none) ⟨nofun, nofun⟩ _ _ _ .pushes trivial
  obtain ⟨m₁, new, arrives, values, at₁⟩ :=
    (Setting.bare _).arrives firstState_draft [v, w] twice
  obtain ⟨a, holds⟩ := (Setting.bare _).leaves_once rfl twice (by simp) at₁.funs_eq arrives left
  have single := congrArg List.length (at₁.holds.unique holds)
  have pair := congrArg List.length values
  simp [Setting.bare] at single pair
  omega

end AkLisp
