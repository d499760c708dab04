import AkLisp.Source.Logic

/-!
# Running a source

The session compiles a source and executes its main function.  A run of the machine is a
run of the session as long as a C call is in progress, and the main function is left
behind its code.  So a session that meets a source of definitions and expressions ends
with the values the evaluator finds for the expressions, one above the other.
-/

namespace AkLisp

open Linked Machine

/-! ### Machine steps as steps of a session -/

namespace Session

section

variable {σ : Type} [TokenSource σ] [Libc] {m m' : Machine} {sources : List σ}
  {link : List AklFunction → List AklFunction} {fuel : Nat}

omit [Libc] in
/-- A main function that can be left is left by a step, too. -/
theorem leaveMain_step (left : m.leaveMain ≠ none) (stepEq : m.step = some m') :
    m'.control = [] := by
  unfold leaveMain at left
  split at left
  · next cx ip control =>
      cases ip with
      | none =>
          simp only [Machine.step, control, Option.some.injEq] at stepEq
          rw [← stepEq]
          rfl
      | some ip =>
          cases fetched : fetch m.funs ip with
          | none =>
              simp only [Machine.step, control, fetched, Option.some.injEq] at stepEq
              rw [← stepEq]
              rfl
          | some instr =>
              simp only [Machine.step, control, fetched, Option.some.injEq] at stepEq
              rw [Option.bind_some, fetched] at left
              cases instr with
              | push value =>
                  cases value with
                  | none =>
                      rw [← stepEq]
                      rfl
                  | some v => exact absurd rfl left
              | _ => exact absurd rfl left
  · exact absurd rfl left

/-- A step of the machine behind which a C call is in progress is one of the session. -/
theorem step_machine (stepEq : m.step = some m') (running : m'.control ≠ []) :
    step link fuel ⟨m, sources⟩ = some ⟨m', sources⟩ := by
  have started : m.control ≠ [] := by
    intro empty
    simp [Machine.step, empty] at stepEq
  have stays : m.leaveMain = none := by
    by_contra left
    exact running (leaveMain_step left stepEq)
  rcases List.exists_cons_of_ne_nil started with ⟨act, rest, control⟩
  simp only [step, control, stays, stepEq]
  rfl

/-- So is a whole run. -/
theorem run_machine (reaches : Reaches m m') (running : m'.control ≠ []) :
    ∃ n, run link fuel n ⟨m, sources⟩ = some ⟨m', sources⟩ := by
  induction reaches with
  | refl => exact ⟨0, rfl⟩
  | @tail m₁ m' _ stepEq ih =>
      have started : m₁.control ≠ [] := by
        intro empty
        have stepEq' : m₁.step = some m' := stepEq
        simp [Machine.step, empty] at stepEq'
      rcases ih started with ⟨n, ran⟩
      refine ⟨n + 1, ?_⟩
      rw [run, ran]
      exact step_machine stepEq running

/-- The first step of a run. -/
theorem run_succ (n : Nat) (s : Session σ) :
    run link fuel (n + 1) s = (step link fuel s).bind (run link fuel n) := by
  induction n with
  | zero => simp [run]
  | succ n ih =>
      rw [run, ih]
      cases step link fuel s <;> rfl

end

end Session

/-! ### What an interpreter makes of a source -/

/-- The state the compiler starts from. -/
def Machine.front (m : Machine) : CompState Unit := ⟨(), m.data, m.funs, m.errors⟩

/-- The functions the names stand for that can be called. -/
def Machine.names (m : Machine) : Names := fun sym =>
  if (prefetchFunction m.front sym).1 = .normal then (prefetchFunction m.front sym).2 else none

/-- An interpreter between two sources, with the special forms under their names. -/
structure Machine.Idle (m : Machine) : Prop where
  control : m.control = []
  bound : m.data.Bound
  special : ∀ form : SForm, m.front.formName form.symbol = some form

/-- A source for the interpreter: it calls functions and defines new names, each once.  No
jump leads behind the last instruction, where the placeholder is taken off. -/
structure Machine.Accepts (m : Machine) (es : List Form) : Prop where
  top : ∀ e ∈ es, e.TopLevel m.front.Callable
  distinct : (es.filterMap Form.defined?).Nodup
  fresh : ∀ sym ∈ es.filterMap Form.defined?, m.data.globals sym = none
  ending : programEnding es ≠ .label

/-- What an interpreter makes of a source: an image, in which each definition is known under
its name, and the main function with what the expressions are compiled to. -/
structure Build [Libc] (m : Machine) (es : List Form) where
  image : Image
  args : Args
  keptFuns : ∀ (fn : FRef) (f : AklFunction), m.funs[fn]? = some f → image.funs[fn]? = some f
  keptData : m.data.Keeps image.data m.data.existing
  below : m.names.Below image.names
  knows : ∀ name params body, Form.defun name params body ∈ es → ∃ fn,
    image.names (aklGetOrCreateSymbol name) = some fn ∧
      image.Known fn (params.map aklGetOrCreateSymbol) body
  linked : Linked image.names image.funs image.data m.funs.length (m.funs.length + 1) es args
  main : ufun? image.funs m.funs.length = some
    ⟨[], args.code m.funs.length 0, boundLabels m.funs.length 0 (args.binds 0)⟩

/-- The main function is done, with these values on the stack. -/
structure Machine.Ends (m : Machine) (funs : List AklFunction) (d : Data) (vs : List VRef) :
    Prop where
  control : m.control = []
  funs_eq : m.funs = funs
  data_eq : m.data = d
  values : ∃ cells, m.stack.Holds cells ∧ cells.map Prod.snd = vs

/-- Every session of the interpreter that meets the source compiles it and executes its main
function up to the end; then the condition holds of the values on the stack and of the
data. -/
def Machine.Finishes [Libc] (m : Machine) (es : List Form) (R : List VRef → Data → Prop) : Prop :=
  ∀ {σ : Type} [TokenSource σ] (D : Delivery σ) (fuel : Nat) (dev : σ) (sources : List σ),
    (es.map Form.tokens).flatten.length < fuel →
    D.Ready ((es.map Form.tokens).flatten ++ [endLexeme]) dev →
    ∃ n m', Session.run id fuel n ⟨m, dev :: sources⟩ = some ⟨m', sources⟩ ∧ m'.control = [] ∧
      ∃ cells, m'.stack.Holds cells ∧ R (cells.map Prod.snd) m'.data

section Names

variable {m : Machine} {sym : Symbol}

theorem prefetch_notFound {s : CompState Unit} (notFound : (prefetchFunction s sym).1 = .notFound) :
    (prefetchFunction s sym).2 = none := by
  unfold prefetchFunction at notFound ⊢
  split at notFound
  · rfl
  · split at notFound
    · cases notFound
    · split at notFound <;> cases notFound

/-- What is known at the start. -/
theorem Machine.Idle.prepared (idle : m.Idle) :
    (m.names.scope m.front.Callable).Prepared m.front := by
  refine ⟨idle.bound, idle.special, ?_, False.elim⟩
  intro sym called
  refine ⟨(prefetchFunction m.front sym).1, (prefetchFunction m.front sym).2, rfl, called, ?_⟩
  rcases called with normal | notFound
  · simp [Names.scope, names, normal]
  · simp [Names.scope, names, notFound, prefetch_notFound notFound]

/-- A name with a function can be called. -/
theorem Machine.names_callable {fn : FRef} (named : m.names sym = some fn) :
    m.front.Callable sym := by
  unfold names at named
  split at named
  · next normal => exact .inl normal
  · cases named

theorem Machine.names_fresh (fresh : m.data.globals sym = none) :
    m.front.Callable sym ∧ m.names sym = none := by
  have nothing : prefetchFunction m.front sym = (.notFound, none) := by
    simp only [prefetchFunction, front, fresh]
  simp [names, CompState.Callable, nothing]

/-- The name of a function is bound to it. -/
theorem prefetch_bound {s : CompState Unit} {pfSt : PrefetchStatus} {fn : FRef}
    (fetched : prefetchFunction s sym = (pfSt, some fn)) :
    ∃ r, s.data.globals sym = some r ∧ s.data.function? r = some fn := by
  unfold prefetchFunction at fetched
  split at fetched
  · cases fetched
  · next v bound =>
      split at fetched
      · cases fetched
      · next f function =>
          refine ⟨v, bound, ?_⟩
          split at fetched
          · cases fetched
            exact function
          · cases fetched
            exact function

end Names

/-- The code of the main function, whose placeholder is taken off. -/
theorem Draft.finished {funs : List AklFunction} {f : FRef} {args : List Symbol}
    {code : List Instr} {labels : List Label} (draft : Draft funs f args code labels) :
    ∃ body, funs[f]? = some (.user ⟨args, body, labels⟩) ∧ popNop body = code := by
  rcases draft with ⟨body, found, created⟩
  refine ⟨body, found, ?_⟩
  cases body with
  | nil =>
      have empty : code = [] := by simpa [createOrGetInstr] using created
      rw [empty]
      rfl
  | cons instr body =>
      have whole : instr :: body = code ++ [.nop] := created
      rw [whole, popNop, List.getLast?_concat, if_pos rfl, List.dropLast_concat]

/-- A function without arguments. -/
theorem FrameArgs.empty : FrameArgs aklInitList [] [] :=
  ⟨[], [], [], rfl, ⟨rfl, by decide, fun other => absurd rfl other, fun other => absurd rfl other⟩,
    rfl⟩

section Run

variable [Libc] {m : Machine} {es : List Form}

/-- The interpreter compiles the source, and is then at the beginning of the main function. -/
theorem source_builds (idle : m.Idle) (accepts : m.Accepts es) :
    ∃ B : Build m es, ∀ {σ : Type} [TokenSource σ] (D : Delivery σ) (fuel : Nat) (dev : σ),
      (es.map Form.tokens).flatten.length < fuel →
      D.Ready ((es.map Form.tokens).flatten ++ [endLexeme]) dev →
      ∃ errors, Session.compileNext id fuel m dev =
        .ok ({ m with funs := B.image.funs, data := B.image.data, errors }.aklExecute
          m.funs.length) := by
  have ready := (Steady.aklNewUserFunction m.front).prepared idle.prepared
  have fresh : ∀ sym ∈ es.filterMap Form.defined?, m.names sym = none :=
    fun sym mem => (names_fresh (accepts.fresh sym mem)).2
  rcases forms_taken accepts.top accepts.distinct fresh (Draft.new m.front) ready with
    ⟨s', T, argsE, runs, below, others, emitted, linked⟩
  have newEq : (aklNewUserFunction m.front).1 = m.funs.length := rfl
  rw [newEq] at runs emitted linked
  rcases emitted.draft.finished with ⟨body, found, popped⟩
  let s := s'.modifyUfun m.funs.length fun ufun => { ufun with ufBody := popNop ufun.ufBody }
  have extended : Extends m.funs.length s' s := .modifyUfun s' _ _
  have found' : s.funs[m.funs.length]? = some (.user
      ⟨[], popNop body, boundLabels m.funs.length 0 (argsE.binds 0)⟩) :=
    Draft.modifyUfun (fun ufun => { ufun with ufBody := popNop ufun.ufBody }) found
  have linked : Linked T s.funs s'.data m.funs.length (m.funs.length + 1) es argsE := by
    apply (linked.later extended.keptBehind).lower
    simp [aklNewUserFunction, Machine.front]
  rcases linked.program with ⟨Γ, compiled, cfuns, -, definitions⟩
  let I : Image := {
    funs := s.funs
    data := s'.data
    names := T
    program := Γ
    bound := by
      intro sym fn named
      have called : m.front.Callable sym := by
        by_cases defined : sym ∈ es.filterMap Form.defined?
        · exact (names_fresh (accepts.fresh sym defined)).1
        · exact names_callable ((others sym defined).symm.trans named)
      rcases emitted.ready.callable sym called with ⟨pfSt, fun_, fetched, -, noted⟩
      have equal : fun_ = T sym := noted
      rw [equal, named] at fetched
      exact prefetch_bound fetched
    compiled := compiled
    cfuns := cfuns }
  let B : Build m es := {
    image := I
    args := argsE
    keptFuns := by
      intro fn f old
      have other : fn ≠ m.funs.length := Nat.ne_of_lt (List.getElem?_eq_some_iff.mp old).1
      have old' := (Extends.aklNewUserFunction m.funs.length m.front).funs fn f other old
      exact extended.funs fn f other (emitted.extended.funs fn f other old')
    keptData := (Extends.aklNewUserFunction m.funs.length m.front).data.existing_trans
      emitted.extended.data
    below := below
    knows := by
      intro name params body mem
      rcases definitions name params body mem with ⟨fn, bodyE, named, callee, resolves⟩
      refine ⟨fn, named, bodyE, ?_, resolves⟩
      rw [List.length_map]
      exact callee
    linked := linked
    main := by
      rw [ufun?, found', Option.bind_some, AklFunction.ufun?, popped]
      rfl }
  refine ⟨B, ?_⟩
  intro σ _ D fuel dev enough available
  rcases runs D fuel dev enough available with ⟨dev', forms⟩
  have made : aklCompile fuel (m.front.withDev dev) = .ok (m.funs.length, s.withDev dev') := by
    simp only [aklCompile, CompState.aklNewUserFunction_withDev, bind, Except.bind]
    rw [newEq, forms]
    rfl
  have made' : aklCompile fuel ⟨dev, m.data, m.funs, m.errors⟩ =
      .ok (m.funs.length, s.withDev dev') := made
  refine ⟨s'.errors, ?_⟩
  simp only [Session.compileNext, made', bind, Except.bind]
  rfl

/-- A run of the main function whose expressions have values. -/
theorem Build.runs (B : Build m es) {Γ : Program} (functions : Γ.CompiledIn B.image.funs)
    {vs : List VRef} {d : Data} (eval : Eval Γ (.args [] B.args) B.image.data [] vs d)
    (errors : List AklError) :
    ∃ m' cells, Reaches ({ m with funs := B.image.funs, data := B.image.data, errors }.aklExecute
        m.funs.length) m' ∧ cells.map Prod.snd = vs ∧
      m'.At B.image.funs d cells
        [.branch ⟨"", aklInitList⟩ (some (m.funs.length, B.args.size))] := by
  have codeAt : CodeAt B.image.funs m.funs.length 0 (B.args.code m.funs.length 0) := by
    refine ⟨_, B.main, ?_⟩
    simpa using SegmentAt.of_append [] (B.args.code m.funs.length 0) []
  have labelsAt : LabelsAt B.image.funs m.funs.length 0 (B.args.binds 0) := by
    refine ⟨_, B.main, ?_⟩
    rw [boundLabels_branch]
    simpa using SegmentAt.of_append []
      ((B.args.binds 0).map fun pos => some (m.funs.length, pos)) []
  rcases (eval.running rfl).simulated functions.implements rfl
    ({ m with funs := B.image.funs, data := B.image.data, errors }.aklExecute m.funs.length)
    m.funs.length 0 0 ⟨"", aklInitList⟩ [] [] codeAt labelsAt FrameArgs.empty
    ⟨rfl, rfl, StackState.Holds.empty, rfl⟩ with ⟨m', cells, reaches, values, at'⟩
  rw [Nat.zero_add] at at'
  exact ⟨m', cells, reaches, values, at'⟩

/-- An interpreter that meets a source compiles it, and if the evaluator finds values for its
expressions it executes the main function up to its end and leaves these values on the stack,
with the data the evaluator says. -/
theorem source_runs (idle : m.Idle) (accepts : m.Accepts es) :
    ∃ B : Build m es, ∀ {σ : Type} [TokenSource σ] (D : Delivery σ) (fuel : Nat) (dev : σ)
      (sources : List σ), (es.map Form.tokens).flatten.length < fuel →
      D.Ready ((es.map Form.tokens).flatten ++ [endLexeme]) dev →
      ∀ Γ : Program, Γ.CompiledIn B.image.funs → ∀ vs d,
        Eval Γ (.args [] B.args) B.image.data [] vs d →
          ∃ n m', Session.run id fuel n ⟨m, dev :: sources⟩ = some ⟨m', sources⟩ ∧
            m'.Ends B.image.funs d vs := by
  rcases source_builds idle accepts with ⟨B, builds⟩
  refine ⟨B, ?_⟩
  intro σ _ D fuel dev sources enough available Γ functions vs d eval
  rcases builds D fuel dev enough available with ⟨errors, compiled⟩
  have first : Session.step id fuel ⟨m, dev :: sources⟩ =
      some ⟨{ m with funs := B.image.funs, data := B.image.data, errors }.aklExecute m.funs.length,
        sources⟩ := by
    simp only [Session.step, idle.control, compiled]
    rfl
  rcases B.runs functions eval errors with ⟨m₁, cells, reaches, values, at₁⟩
  have ran : ∃ n, Session.run id fuel n
      ⟨{ m with funs := B.image.funs, data := B.image.data, errors }.aklExecute m.funs.length,
        sources⟩ = some ⟨m₁, sources⟩ :=
    Session.run_machine reaches (by simp [at₁.control_eq])
  rcases ran with ⟨n, ran⟩
  have last : fetch m₁.funs (m.funs.length, B.args.size) = none := by
    rw [at₁.funs_eq, fetch, B.main, Option.bind_some]
    exact List.getElem?_eq_none (Nat.le_of_eq (Args.code_length _ _ B.args))
  refine ⟨n + 1 + 1, { m₁ with control := [] }, ?_, rfl, at₁.funs_eq, at₁.data_eq, cells,
    at₁.holds, values⟩
  rw [Session.run, Session.run_succ, first, Option.bind_some, ran, Option.bind_some,
    Session.step, at₁.control_eq]
  simp only [leaveMain, at₁.control_eq, Option.bind_some, last]
  rfl

/-- What the rules say of a source is true of every session that meets it. -/
theorem Machine.Idle.finishes (idle : m.Idle) (accepts : m.Accepts es)
    {R : List VRef → Data → Prop}
    (meets : ∀ B : Build m es, B.image.MeetsSource es B.image.data R) : m.Finishes es R := by
  rcases source_runs idle accepts with ⟨B, runs⟩
  intro σ _ D fuel dev sources enough available
  rcases meets B _ _ B.args B.linked with ⟨vs, d, eval, later, holds⟩
  rcases runs D fuel dev sources enough available B.image.program B.image.compiled vs d eval with
    ⟨n, m', ran, ends⟩
  rcases ends.values with ⟨cells, holdsCells, values⟩
  refine ⟨n, m', ran, ends.control, cells, holdsCells, ?_⟩
  rw [values, ends.data_eq]
  exact holds

end Run

end AkLisp
