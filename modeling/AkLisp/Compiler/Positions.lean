import AkLisp.Compiler.Arguments
import AkLisp.Compiler.Layout
import AkLisp.Machine.Simulation
import AkLisp.Source.Proper
import AkLisp.Transition.Arrival

/-!
# Expressions in different positions

`akl_compile_next` and the loop of `akl_compile_list` compile a list and a quoted
datum in the same way, and a literal to values that differ in a flag only.  A name
is pushed as a symbol by the one and looked up by the other, and the function a
definition evaluates to is pushed by the other one only.
-/

namespace AkLisp

open Linked Machine

/-! ### The value an expression pushes -/

/-- The number of instructions in front of the placeholder. -/
def CompState.position (s : CompState Unit) (f : FRef) : Nat :=
  (createOrGetInstr (s.ufun f).ufBody).length - 1

/-- What surrounds the code of an expression of the function `f` in a run: what the
compiler makes of the functions behind it, the environment, the arguments of `f`, the
stack and the C calls in progress. -/
structure Setting (f : FRef) where
  program : List AklFunction → List AklFunction
  environment : Data → Data
  globals : Symbol → Option VRef
  cx : Context
  stack : StackState VRef
  cells : List (Cell VRef)
  params : List VRef
  errors : List AklError
  rest : List Activation
  code : ∀ (s : CompState Unit) i, i < s.position f →
    Machine.fetch (program s.funs) (f, i) = Machine.fetch s.funs (f, i)
  labels : ∀ (s : CompState Unit) ind, ind < (s.ufun f).ufLabels.length →
    Machine.target (program s.funs) ⟨f, ind⟩ = Machine.target s.funs ⟨f, ind⟩
  values : ∀ (d : Data) v p, d.payload v = some p → (environment d).payload v = some p
  sameGlobals : ∀ d, (environment d).globals = globals
  holds : stack.Holds cells
  frame : FrameArgs cx.cxFrame cells params

/-- The C calls in progress when the run of the enclosing function is at an instruction. -/
def Setting.control {f : FRef} (x : Setting f) (pos : Nat) : List Activation :=
  .branch x.cx (some (f, pos)) :: x.rest

/-- The machine in front of the code that is emitted between two states. -/
def Setting.start {f : FRef} (x : Setting f) (s s' : CompState Unit) : Machine :=
  ⟨x.program s'.funs, x.environment s'.data, x.stack, x.errors, x.control (s.position f)⟩

/-- Behind this code there is one more value on the stack, and it has this payload. -/
def Setting.Pushes {f : FRef} (x : Setting f) (s s' : CompState Unit) (p : Payload) : Prop :=
  ∃ m' c, Arrives step (fun m => m.control = x.control (s'.position f)) (x.start s s') m' ∧
    m'.stack.Holds (x.cells ++ [c]) ∧ m'.data.payload c.2 = some p

/-- A round of the loop of `akl_compile_list` behind the head takes the tokens as an
argument. -/
def CompilesArg {σ : Type} [TokenSource σ] [Libc] (D : Delivery σ) (cx : CompContext)
    (ts : List Lexeme) (s s' : CompState Unit) : Prop :=
  ∀ (loc : ListLocals) fuel rest dev, loc.felem = false → ts.length ≤ fuel →
    D.Ready (ts ++ rest) dev →
    ∃ dev', compileRound fuel (aklCompileList fuel) (aklCompileNext fuel) cx loc
        (s.withDev dev) = .ok (.again loc.countArg (s'.withDev dev')) ∧ D.Ready rest dev'

/-- `akl_compile_next` and the loop of `akl_compile_list` compile the expression to code
that pushes the same value, in any setting. -/
def SameMeaning [Libc] (f : FRef) (s : CompState Unit) (e : Form) : Prop :=
  ∃ fn sn sa, (∀ {σ : Type} [TokenSource σ] (D : Delivery σ),
      Compiles D e.tokens s fn sn (.next ⟨f, f⟩)) ∧
    (∀ {σ : Type} [TokenSource σ] (D : Delivery σ), CompilesArg D ⟨f, f⟩ e.tokens s sa) ∧
    ∀ (x : Setting f) p, x.Pushes s sn p ↔ x.Pushes s sa p

/-! ### The function a list evaluates to -/

section Functions

variable [Libc] {cx : CompContext} {ts : List Lexeme} {s s' : CompState Unit} {fn : Option FRef}

/-- Behind a head that is called, or is nothing that can be called, a list evaluates to
no function. -/
theorem Translates.loop_none {loc : ListLocals} (translates : Translates (.loop cx loc) ts s fn s')
    (later : loc.felem = false) (noFunction : loc.sym ≠ none ∨ loc.fun_ = none) : fn = none := by
  generalize taskEq : FrontTask.loop cx loc = task at translates
  induction translates generalizing loc with
  | @close cx' loc' q b l s mark tok =>
      cases taskEq
      cases symEq : loc'.sym with
      | some sym => simp [compileEnd, symEq]
      | none =>
          have noFun : loc'.fun_ = none := noFunction.resolve_left (not_not_intro symEq)
          simp only [compileEnd, symEq, noFun]
          split
          · rfl
          · rfl
  | atom mark later' tok symEq others ih =>
      cases taskEq
      apply ih _ _ rfl
      · rfl
      · exact noFunction
  | leaf mark leafEq notAtom others ih =>
      cases taskEq
      apply ih _ _ rfl
      · rfl
      · exact noFunction
  | quotedList mark tok reads others ih =>
      cases taskEq
      apply ih _ _ rfl
      · rfl
      · exact noFunction
  | @inner cx loc' l items ls s f s₁ fn s' tok inside others _ ih =>
      cases taskEq
      rw [compileInner_later later] at ih
      apply ih _ _ rfl
      · rfl
      · exact noFunction
  | headName mark first =>
      cases taskEq
      simp [later] at first
  | headOther mark first =>
      cases taskEq
      simp [later] at first
  | headForm mark first =>
      cases taskEq
      simp [later] at first
  | _ => cases taskEq

/-- A special form that defines no function evaluates to none. -/
theorem Translates.form_none {form : SForm} (translates : Translates (.form cx form) ts s fn s')
    (notLambda : form ≠ .lambda) (notDefun : form ≠ .defun) : fn = none := by
  cases translates with
  | lambda => exact absurd rfl notLambda
  | defun => exact absurd rfl notDefun
  | _ => rfl

end Functions

/-! ### What the compiler leaves alone -/

/-- The functions other than `f` are still there. -/
def KeptBeside (f : FRef) (funs funs' : List AklFunction) : Prop :=
  ∀ g fn, g ≠ f → funs[g]? = some fn → funs'[g]? = some fn

namespace KeptBeside

variable {f : FRef} {funs funs' funs'' : List AklFunction} {s s' : CompState Unit}

theorem refl (f : FRef) (funs : List AklFunction) : KeptBeside f funs funs :=
  fun _ _ _ found => found

theorem trans (first : KeptBeside f funs funs') (second : KeptBeside f funs' funs'') :
    KeptBeside f funs funs'' :=
  fun g fn other found => second g fn other (first g fn other found)

/-- What is done for a new function leaves the others alone. -/
theorem of_new {func : FRef} (fresh : funs.length ≤ func) (kept : KeptBeside func funs funs') :
    KeptBeside f funs funs' := fun g fn _ found =>
  kept g fn (Nat.ne_of_lt (Nat.lt_of_lt_of_le (List.getElem?_eq_some_iff.mp found).1 fresh)) found

theorem emit (f : FRef) (s : CompState Unit) (instr : Instr) :
    KeptBeside f s.funs (s.emit ⟨f, f⟩ instr).funs :=
  (Extends.emit f f s instr).funs

theorem load (f : FRef) (s : CompState Unit) (sym : Symbol) :
    KeptBeside f s.funs (aklBuildLoad ⟨f, f⟩ s sym).funs := by
  unfold aklBuildLoad
  split
  · split
    · exact emit f s _
    · exact emit f s _
  · exact refl f _

theorem compileAtom (f : FRef) (isQuoted : Bool) (v : VRef) (sym : Symbol)
    (s : CompState Unit) : KeptBeside f s.funs (compileAtom ⟨f, f⟩ isQuoted v sym s).funs := by
  cases isQuoted with
  | true => exact emit f s _
  | false => exact load f s sym

theorem compileEnd (f : FRef) (loc : ListLocals) (s : CompState Unit) :
    KeptBeside f s.funs (compileEnd ⟨f, f⟩ loc s).2.funs := by
  unfold AkLisp.compileEnd
  split
  · exact emit f s _
  · split
    · exact refl f _
    · split
      · exact emit f (s.withData s.data.newNilValue.2) _
      · exact refl f _

theorem compileInner (f : FRef) (loc : ListLocals) (fn : Option FRef) (s : CompState Unit) :
    KeptBeside f s.funs (compileInner ⟨f, f⟩ loc fn s).2.funs := by
  cases fn with
  | none => exact refl f _
  | some g =>
      unfold AkLisp.compileInner
      dsimp only
      split
      · exact refl f _
      · exact emit f (s.withData (s.data.newFunctionValue g).2) _

theorem pushFunction (f : FRef) (fn : Option FRef) (s : CompState Unit) :
    KeptBeside f s.funs (pushFunction ⟨f, f⟩ s fn).funs :=
  (Extends.pushFunction f s fn).funs

theorem newLabels (f : FRef) (s : CompState Unit) (n : Nat) :
    KeptBeside f s.funs (aklNewLabels ⟨f, f⟩ s n).2.funs :=
  (Extends.aklNewLabels f s n).funs

theorem label (f : FRef) (s : CompState Unit) (ind : Nat) :
    KeptBeside f s.funs (aklBuildLabel ⟨f, f⟩ s ⟨f, ind⟩).funs :=
  (Extends.aklBuildLabel f s ind).funs

theorem newFunction (f : FRef) (s : CompState Unit) :
    KeptBeside f s.funs (aklNewUserFunction s).2.funs :=
  (Extends.aklNewUserFunction f s).funs

theorem paramLoop {ls : List Lexeme} (params : ParamLoop f ls s s') :
    KeptBeside f s.funs s'.funs := by
  induction params with
  | close tok => exact refl f _
  | @atom l ls s s' tok others ih =>
      have added : KeptBeside f s.funs (s.addArg f (aklGetOrCreateSymbol l.text)).funs :=
        (Extends.modifyUfun s f _).funs
      exact added.trans ih
  | skip notClose notAtom others ih => exact ih

theorem params {fname : String} {ls : List Lexeme} (params : Params fname f ls s s') :
    KeptBeside f s.funs s'.funs := by
  cases params with
  | empty tok => exact refl f _
  | list tok others => exact paramLoop others
  | missing notNil notList => exact refl f _

end KeptBeside

/-- The context a part of the compiler runs in. -/
def FrontTask.context : FrontTask → CompContext
  | .next cx => cx
  | .loop cx _ => cx
  | .form cx _ => cx

/-- Compiling code for a function leaves the others alone. -/
theorem Translates.keptBeside [Libc] {task : FrontTask} {ts : List Lexeme}
    {s s' : CompState Unit} {fn : Option FRef} {f : FRef} (translates : Translates task ts s fn s')
    (own : task.context = ⟨f, f⟩) : KeptBeside f s.funs s'.funs := by
  induction translates generalizing f with
  | nextLeaf leafEq =>
      cases own
      exact .emit f (CompState.withData _ _) _
  | nextQuoted tok reads =>
      cases own
      exact .emit f (CompState.withData _ _) _
  | nextClose tok =>
      cases own
      exact .emit f _ _
  | nextList tok list ih => exact ih own
  | close mark tok =>
      cases own
      exact .compileEnd f _ _
  | headName mark first tok symEq fetched callable others ih => exact ih own
  | headOther mark first tok symEq fetched others ih => exact ih own
  | headForm mark first tok symEq fetched formEq operands others ihOperands ih =>
      have operandsKept := ihOperands own
      exact operandsKept.trans (ih own)
  | @atom cx loc q b l ls sym s fn s' mark later tok symEq others ih =>
      cases own
      have loaded := KeptBeside.compileAtom f b s.data.values.length sym (s.withSymbol sym b)
      exact loaded.trans (ih rfl)
  | @leaf cx loc q b l leaf ls s fn s' mark leafEq notAtom others ih =>
      cases own
      have pushed := KeptBeside.emit f (s.withData (s.data.newValue (leafValue leaf true)).2)
        (.push (some s.data.values.length))
      exact pushed.trans (ih rfl)
  | @quotedList cx loc q l items ls v d' s fn s' mark tok reads others ih =>
      cases own
      exact (KeptBeside.emit f (s.withData d') (.push (some v))).trans (ih rfl)
  | inner tok inside others ihInside ih =>
      cases own
      exact (ihInside rfl).trans ((KeptBeside.compileInner f _ _ _).trans (ih rfl))
  | @when cx tc ta s loff s₁ fc s₂ fa s₃ labels cond body ihCond ihBody =>
      cases own
      have labelled := KeptBeside.newLabels f s 1
      rw [labels] at labelled
      exact labelled.trans ((ihCond rfl).trans ((KeptBeside.emit f s₂ _).trans
        ((ihBody rfl).trans (.label f s₃ loff))))
  | @sif cx tc ta tb s loff s₁ fc s₂ fa s₃ fb s₄ labels cond body other ihCond ihBody ihOther =>
      cases own
      have labelled := KeptBeside.newLabels f s 2
      rw [labels] at labelled
      exact labelled.trans ((ihCond rfl).trans ((KeptBeside.emit f s₂ _).trans
        ((ihBody rfl).trans ((KeptBeside.emit f s₃ _).trans ((KeptBeside.label f _ (loff + 1)).trans
          ((ihOther rfl).trans (.label f s₄ loff)))))))
  | @swhile cx tc ta s loff s₁ fc s₂ fa s₃ labels cond body ihCond ihBody =>
      cases own
      have labelled := KeptBeside.newLabels f s 2
      rw [labels] at labelled
      exact labelled.trans ((KeptBeside.label f s₁ loff).trans ((ihCond rfl).trans
        ((KeptBeside.emit f s₂ _).trans ((ihBody rfl).trans ((KeptBeside.emit f s₃ _).trans
          (.label f _ (loff + 1)))))))
  | @set cx l ts s fn s₁ tok rhs ih =>
      cases own
      exact (ih rfl).trans ((KeptBeside.pushFunction f fn s₁).trans (.emit f _ _))
  | setOther notAtom => exact .refl f _
  | @lambda cx tp doc first tb s func s₁ s₂ fb s₃ new params docstring body ih =>
      cases new
      apply KeptBeside.of_new (le_refl _)
      exact (KeptBeside.newFunction _ s).trans ((KeptBeside.params params).trans (ih rfl))
  | @defun cx l sym tp doc first tb s func s₁ s₂ fb s₃ new tok symEq params docstring body ih =>
      cases own
      cases new
      have inside : KeptBeside f s.funs s₃.funs := by
        apply KeptBeside.of_new (le_refl _)
        exact (KeptBeside.newFunction _ s).trans ((KeptBeside.params params).trans (ih rfl))
      exact inside.trans (.emit f (s₃.withData (s₃.data.newSymValue sym).2) _)
  | @defunOther cx l s func s₁ new notAtom =>
      cases new
      exact .newFunction f s

/-! ### Code that only pushes -/

section Pushes

variable {f : FRef} {args args' : List Symbol} {code : List Instr} {labels labels' : List Label}
  {s s' : CompState Unit}

theorem createOrGetInstr_append {ir code : List Instr}
    (created : createOrGetInstr ir = code ++ [.nop]) : code = [] ∨ ir = code ++ [.nop] := by
  unfold createOrGetInstr at created
  split at created
  · exact .inl (by simpa using created)
  · exact .inr created

theorem Draft.position (draft : Draft s.funs f args code labels) :
    s.position f = code.length := by
  obtain ⟨body, ufunEq, bodyEq⟩ := draft.ufun
  simp [CompState.position, ufunEq, bodyEq]

/-- An instruction in front of the placeholder is fetched. -/
theorem Draft.fetch (draft : Draft s.funs f args code labels) {i : Nat} {instr : Instr}
    (found : code[i]? = some instr) : Machine.fetch s.funs (f, i) = some instr := by
  obtain ⟨body, functionEq, created⟩ := draft
  have bodyEq : body = code ++ [.nop] := by
    rcases createOrGetInstr_append created with rfl | bodyEq
    · cases found
    · exact bodyEq
  have inside := (List.getElem?_eq_some_iff.mp found).1
  simp [Machine.fetch, Machine.ufun?, functionEq, AklFunction.ufun?, bodyEq,
    List.getElem?_append_left inside, found]

/-- Behind the code comes the placeholder, and nothing behind that. -/
theorem Draft.fetch_end (draft : Draft s.funs f args code labels) (nonempty : code ≠ []) :
    Machine.fetch s.funs (f, code.length) = some .nop ∧
      Machine.fetch s.funs (f, code.length + 1) = none := by
  obtain ⟨body, functionEq, created⟩ := draft
  have bodyEq : body = code ++ [.nop] := (createOrGetInstr_append created).resolve_left nonempty
  simp [Machine.fetch, Machine.ufun?, functionEq, AklFunction.ufun?, bodyEq]

/-- The pushes of some values. -/
abbrev pushesOf (vs : List VRef) : List Instr := vs.map fun v => .push (some v)

/-- A run of pushes comes to its end with the values on the stack. -/
theorem arrives_pushes {funs : List AklFunction} {d : Data} {cx : Context}
    {rest : List Activation} (vs : List VRef) {pos : Nat} {m : Machine}
    {cells : List (Cell VRef)}
    (fetched : ∀ i v, vs[i]? = some v → Machine.fetch funs (f, pos + i) = some (.push (some v)))
    (at_ : m.At funs d cells (.branch cx (some (f, pos)) :: rest)) :
    ∃ m' new,
      Arrives step (fun m => m.control = .branch cx (some (f, pos + vs.length)) :: rest) m m' ∧
      new.map Prod.snd = vs ∧
      m'.At funs d (cells ++ new) (.branch cx (some (f, pos + vs.length)) :: rest) := by
  induction vs generalizing pos m cells with
  | nil => exact ⟨m, [], .here at_.control_eq, rfl, by simpa using at_⟩
  | cons v vs ih =>
      have first : Machine.fetch m.funs (f, pos) = some (.push (some v)) := by
        rw [at_.funs_eq]
        exact fetched 0 v rfl
      have stepEq : step m = some (m.execInstr cx (f, pos) rest (.push (some v))) := by
        rw [step, at_.control_eq]
        simp only [first]
      have next : (m.execInstr cx (f, pos) rest (.push (some v))).At funs d
          (cells ++ [(m.stack.mem.top, v)]) (.branch cx (some (f, pos + 1)) :: rest) :=
        ⟨at_.funs_eq, at_.data_eq, at_.holds.push v, rfl⟩
      have others : ∀ i w, vs[i]? = some w →
          Machine.fetch funs (f, pos + 1 + i) = some (.push (some w)) := by
        intro i w found
        have later := fetched (i + 1) w found
        rwa [Nat.add_assoc, Nat.add_comm 1 i]
      obtain ⟨m', new, arrives, values, at'⟩ := ih others next
      have endEq : pos + 1 + vs.length = pos + (v :: vs).length := by
        rw [List.length_cons, Nat.add_assoc, Nat.add_comm 1]
      rw [endEq] at arrives at'
      refine ⟨m', (m.stack.mem.top, v) :: new, .step ?_ stepEq arrives, ?_, ?_⟩
      · rw [at_.control_eq]
        simp
      · rw [List.map_cons, values]
      · rwa [List.append_assoc] at at'

theorem Setting.start_at (x : Setting f) (draft : Draft s.funs f args code labels)
    (s' : CompState Unit) :
    (x.start s s').At (x.program s'.funs) (x.environment s'.data) x.cells
      (x.control code.length) :=
  ⟨rfl, rfl, x.holds, by rw [Setting.start, draft.position]⟩

/-- An instruction in front of the placeholder is fetched in the program too. -/
theorem Setting.fetch (x : Setting f) (draft : Draft s.funs f args code labels) {i : Nat}
    {instr : Instr} (found : code[i]? = some instr) :
    Machine.fetch (x.program s.funs) (f, i) = some instr := by
  have inside := (List.getElem?_eq_some_iff.mp found).1
  rw [← draft.position] at inside
  rw [x.code s i inside, draft.fetch found]

/-- Code that pushes some values comes to its end with these. -/
theorem Setting.arrives (x : Setting f) (draft : Draft s.funs f args code labels)
    (vs : List VRef) (draft' : Draft s'.funs f args' (code ++ pushesOf vs) labels') :
    ∃ m' new, Arrives step (fun m => m.control = x.control (s'.position f)) (x.start s s') m' ∧
      new.map Prod.snd = vs ∧ m'.At (x.program s'.funs) (x.environment s'.data) (x.cells ++ new)
        (x.control (s'.position f)) := by
  have endEq : s'.position f = code.length + vs.length := by
    rw [draft'.position, List.length_append, List.length_map]
  have fetched : ∀ i v, vs[i]? = some v →
      Machine.fetch (x.program s'.funs) (f, code.length + i) = some (.push (some v)) := by
    intro i v found
    apply x.fetch draft'
    rw [List.getElem?_append_right (Nat.le_add_right _ _), Nat.add_sub_cancel_left,
      List.getElem?_map, found]
    rfl
  obtain ⟨m', new, arrives, values, at'⟩ := arrives_pushes vs fetched (x.start_at draft s')
  rw [endEq]
  exact ⟨m', new, arrives, values, at'⟩

/-- Code that pushes one value. -/
theorem Setting.pushes_one_iff (x : Setting f) (draft : Draft s.funs f args code labels)
    {v : VRef} (draft' : Draft s'.funs f args' (code ++ [.push (some v)]) labels')
    {p₀ : Payload} (known : s'.data.payload v = some p₀) (p : Payload) :
    x.Pushes s s' p ↔ p = p₀ := by
  obtain ⟨m', new, arrives, values, at'⟩ := x.arrives draft [v] draft'
  obtain ⟨c, rfl⟩ : ∃ c, new = [c] := by
    rw [← List.length_eq_one_iff, ← List.length_map Prod.snd, values]
    rfl
  obtain rfl : c.2 = v := by simpa using values
  have payload : m'.data.payload c.2 = some p₀ := by
    rw [at'.data_eq]
    exact x.values _ _ _ known
  constructor
  · rintro ⟨m'', c', arrives', holds', payload'⟩
    obtain rfl := arrives.unique arrives'
    have cellsEq := at'.holds.unique holds'
    obtain rfl : c = c' := by simpa using cellsEq
    exact Option.some.inj (payload'.symm.trans payload)
  · rintro rfl
    exact ⟨m', c, arrives, at'.holds, payload⟩

/-- Code that pushes another number of values. -/
theorem Setting.not_pushes (x : Setting f) (draft : Draft s.funs f args code labels)
    {vs : List VRef} (draft' : Draft s'.funs f args' (code ++ pushesOf vs) labels')
    (notOne : vs.length ≠ 1) (p : Payload) : ¬x.Pushes s s' p := by
  obtain ⟨m', new, arrives, values, at'⟩ := x.arrives draft vs draft'
  rintro ⟨m'', c', arrives', holds', -⟩
  obtain rfl := arrives.unique arrives'
  have cellsEq := at'.holds.unique holds'
  obtain rfl : new = [c'] := by simpa using cellsEq
  exact notOne (by rw [← values]; rfl)

end Pushes

/-! ### The same code -/

section Same

variable [Libc] {f : FRef} {args : List Symbol} {code : List Instr} {labels : List Label}
  {s : CompState Unit} {e : Form}

theorem ArgTaken.compilesArg {σ : Type} [TokenSource σ] {D : Delivery σ} {cx : CompContext}
    {ts : List Lexeme} {sa : CompState Unit} (arg : ArgTaken cx ts s sa) :
    CompilesArg D cx ts s sa :=
  fun _ _ _ _ later enough ready => arg.sound later enough ready

/-- A list that evaluates to no function is compiled in the same way. -/
theorem SameMeaning.of_list {items : List Lexeme} {s₁ : CompState Unit}
    (tokens : e.tokens = openLexeme :: items)
    (loop : Translates (.loop ⟨f, f⟩ .init) items s none s₁) : SameMeaning f s e := by
  have next : Translates (.next ⟨f, f⟩) e.tokens s none s₁ := by
    rw [tokens]
    exact .nextList rfl loop
  have arg : ArgTaken ⟨f, f⟩ e.tokens s s₁ := by
    rw [tokens]
    exact .list rfl loop
  exact ⟨none, s₁, s₁, fun D => next.sound, fun D => arg.compilesArg, fun x p => Iff.rfl⟩

/-- A quoted datum is compiled in the same way. -/
theorem quoted_same (x : Datum) : SameMeaning f s (.quoted x) := by
  obtain ⟨v, d', reads, -, -⟩ := x.datumTokens.reads true s.data
  have arg : ArgTaken ⟨f, f⟩ (Form.quoted x).tokens s
    (aklBuildPush ⟨f, f⟩ (s.withData d') (some v)) :=
    .quoted rfl reads
  have next : Translates (.next ⟨f, f⟩) (Form.quoted x).tokens s none
      (aklBuildPush ⟨f, f⟩ (s.withData d') (some v)) := by
    rw [Form.tokens]
    generalize x.tokens = ts at reads
    cases reads with
    | leaf leafEq => exact .nextQuoted rfl (.leaf leafEq)
    | list tok inside => exact .nextQuoted rfl (.list tok inside)
  exact ⟨none, _, _, fun D => next.sound, fun D => arg.compilesArg, fun x p => Iff.rfl⟩

theorem Literal.token (c : Literal) :
    ∃ l leaf, c.datum.tokens = [l] ∧ l.leaf? = some leaf ∧ l.tok ≠ .tATOM := by
  cases c with
  | number text => exact ⟨_, _, rfl, rfl, by simp⟩
  | string text => exact ⟨_, _, rfl, rfl, by simp⟩
  | nil => exact ⟨_, _, rfl, rfl, by simp⟩
  | true => exact ⟨_, _, rfl, rfl, by simp⟩

/-- The two values of a literal differ only in being quoted. -/
theorem literal_same (c : Literal) (draft : Draft s.funs f args code labels) :
    SameMeaning f s (.literal c) := by
  obtain ⟨l, leaf, tokens, leafEq, notAtom⟩ := c.token
  have pushed (b : Bool) (x : Setting f) (p : Payload) :
      x.Pushes s (aklBuildPush ⟨f, f⟩ (s.withData (s.data.newValue (leafValue leaf b)).2)
        (some s.data.values.length)) p ↔ p = leaf.1 := by
    have draft' :
        Draft (s.withData (s.data.newValue (leafValue leaf b)).2).funs f args code labels :=
      draft
    exact x.pushes_one_iff draft (draft'.emit f _) (s.data.newValue_payload_self _) p
  have next : Translates (.next ⟨f, f⟩) [l] s none
      (aklBuildPush ⟨f, f⟩ (s.withData (s.data.newValue (leafValue leaf false)).2)
        (some s.data.values.length)) := .nextLeaf leafEq
  have arg : ArgTaken ⟨f, f⟩ [l] s
      (aklBuildPush ⟨f, f⟩ (s.withData (s.data.newValue (leafValue leaf true)).2)
        (some s.data.values.length)) := .leaf .plain leafEq notAtom
  unfold SameMeaning
  rw [Form.tokens, tokens]
  exact ⟨none, _, _, fun D => next.sound, fun D => arg.compilesArg, fun x p =>
    (pushed false x p).trans (pushed true x p).symm⟩

/-! ### Lists -/

omit [Libc] in
theorem prefetch_notFn {sym : Symbol} {fun_ : Option FRef}
    (fetched : prefetchFunction s sym = (.notFn, fun_)) : fun_ = none := by
  unfold prefetchFunction at fetched
  split at fetched
  · cases fetched
  · split at fetched
    · cases fetched
      rfl
    · split at fetched
      · cases fetched
      · cases fetched

/-- A call evaluates to no function. -/
theorem call_list {head : List Chr} {ls : List Lexeme} {n' : FormNames} (bound : s.data.Bound)
    (ordinary : s.formName (aklGetOrCreateSymbol head) = none)
    (others : Taken ls s.formName n' (.items false)) (cx : CompContext) :
    ∃ s₁, Translates (.loop cx .init) (atomLexeme head :: ls) s none s₁ := by
  have knows : (s.withSymbol (aklGetOrCreateSymbol head) false).Knows s.formName :=
    (Steady.newValue s _).knows ⟨bound, rfl⟩
  have notForm := CompState.prefetch_ordinary ((congrFun knows.names _).trans ordinary)
  obtain ⟨⟨pfSt, fun_⟩, fetched⟩ : ∃ r, prefetchFunction
    (s.withSymbol (aklGetOrCreateSymbol head) false) (aklGetOrCreateSymbol head) = r := ⟨_, rfl⟩
  rw [fetched] at notForm
  have named (callable : pfSt = .normal ∨ pfSt = .notFound) :
      ∃ s₁, Translates (.loop cx .init) (atomLexeme head :: ls) s none s₁ := by
    obtain ⟨fn, s₁, loop, -⟩ := others cx
      ⟨pfSt, 0, false, fun_, some (aklGetOrCreateSymbol head)⟩ _ rfl knows
    obtain rfl := loop.loop_none rfl (.inl (Option.some_ne_none _))
    exact ⟨s₁, .headName .plain rfl rfl rfl fetched callable loop⟩
  cases pfSt with
  | normal => exact named (.inl rfl)
  | notFound => exact named (.inr rfl)
  | sform => exact absurd rfl notForm
  | notFn =>
      obtain rfl := prefetch_notFn fetched
      obtain ⟨fn, s₁, loop, -⟩ := others cx ⟨.notFn, 0, false, none, none⟩ _ rfl knows
      obtain rfl := loop.loop_none rfl (.inr rfl)
      exact ⟨s₁, .headOther .plain rfl rfl rfl fetched loop⟩

/-- A special form that defines no function evaluates to none. -/
theorem form_none_list {form : SForm} {ms : List Lexeme} {n' : FormNames} (bound : s.data.Bound)
    (special : s.formName form.symbol = some form) (notLambda : form ≠ .lambda)
    (notDefun : form ≠ .defun) (operands : HasOperands (.operands form) ms s.formName n')
    (cx : CompContext) :
    ∃ s₁,
      Translates (.loop cx .init) (atomLexeme form.text :: (ms ++ [closeLexeme])) s none s₁ := by
  have knows : (s.withSymbol form.symbol false).Knows s.formName :=
    (Steady.newValue s _).knows ⟨bound, rfl⟩
  obtain ⟨fn, s₁, taken, -⟩ := operands.taken cx _ knows
  obtain rfl := taken.form_none notLambda notDefun
  exact ⟨s₁, form_list bound special taken⟩

/-! ### Names and definitions -/

omit [Libc] in
theorem CompState.withDev_inj {σ : Type} {s s' : CompState Unit} {dev dev' : σ}
    (equal : s.withDev dev = s'.withDev dev') : s = s' := by
  obtain ⟨⟨⟩, data, funs, errors⟩ := s
  obtain ⟨⟨⟩, data', funs', errors'⟩ := s'
  simp only [CompState.withDev, CompState.mk.injEq] at equal
  obtain ⟨-, rfl, rfl, rfl⟩ := equal
  rfl

/-- The compiler makes one thing of the tokens only. -/
theorem Compiles.unique {cx : CompContext} {ts : List Lexeme} {fn fn' : Option FRef}
    {sn sn' : CompState Unit} (first : Compiles tokStreamDelivery ts s fn sn (.next cx))
    (second : Compiles tokStreamDelivery ts s fn' sn' (.next cx)) : fn = fn' ∧ sn = sn' := by
  have offered := Delivery.offers (TokStream.ready_ofList (ts ++ []))
  obtain ⟨tok, dev, makes, -⟩ := first ts.length [] _ (le_refl _) offered
  obtain ⟨tok', dev', makes', -⟩ := second ts.length [] _ (le_refl _) offered
  rw [makes] at makes'
  injection makes' with equal
  obtain ⟨returned, left⟩ := Prod.mk.inj equal
  exact ⟨(Prod.mk.inj returned).2, CompState.withDev_inj left⟩

theorem CompilesArg.unique {cx : CompContext} {ts : List Lexeme} {sa sa' : CompState Unit}
    (first : CompilesArg tokStreamDelivery cx ts s sa)
    (second : CompilesArg tokStreamDelivery cx ts s sa') : sa = sa' := by
  have ready := TokStream.ready_ofList (ts ++ [])
  obtain ⟨dev, makes, -⟩ :=
    first ⟨.sform, 0, false, none, none⟩ ts.length [] _ rfl (le_refl _) ready
  obtain ⟨dev', makes', -⟩ :=
    second ⟨.sform, 0, false, none, none⟩ ts.length [] _ rfl (le_refl _) ready
  rw [makes] at makes'
  injection makes' with equal
  exact CompState.withDev_inj (Round.again.inj equal).2

theorem SameMeaning.pushes_iff (same : SameMeaning f s e) {fn : Option FRef}
    {sn sa : CompState Unit} (next : Translates (.next ⟨f, f⟩) e.tokens s fn sn)
    (arg : ArgTaken ⟨f, f⟩ e.tokens s sa) (x : Setting f) (p : Payload) :
    x.Pushes s sn p ↔ x.Pushes s sa p := by
  obtain ⟨fn', sn', sa', nextMakes, argMakes, alike⟩ := same
  obtain ⟨-, rfl⟩ := (nextMakes tokStreamDelivery).unique next.sound
  obtain rfl := (argMakes tokStreamDelivery).unique arg.compilesArg
  exact alike x p

/-- No variable is bound, and the function has been called without arguments. -/
def Setting.bare (f : FRef) : Setting f where
  program := id
  environment d := { d with globals := fun _ => none }
  globals := fun _ => none
  cx := ⟨"", aklInitList⟩
  stack := default
  cells := []
  params := []
  errors := []
  rest := []
  code := fun _ _ _ => rfl
  labels := fun _ _ _ => rfl
  values := fun _ _ _ found => found
  sameGlobals := fun _ => rfl
  holds := .empty
  frame := ⟨[], [], [], rfl, ⟨rfl, by decide, fun other => absurd rfl other,
    fun other => absurd rfl other⟩, rfl⟩

omit [Libc] in
/-- A single instruction that goes on behind itself. -/
theorem Setting.arrives_one (x : Setting f) (draft : Draft s.funs f args code labels)
    {s' : CompState Unit} {instr : Instr} (draft' : Draft s'.funs f args (code ++ [instr]) labels)
    (goesOn : ((x.start s s').execInstr x.cx (f, code.length) x.rest instr).control =
      x.control (code.length + 1)) :
    Arrives step (fun m => m.control = x.control (s'.position f)) (x.start s s')
      ((x.start s s').execInstr x.cx (f, code.length) x.rest instr) := by
  have at_ := x.start_at draft s'
  have endEq : s'.position f = code.length + 1 := by
    rw [draft'.position, List.length_append]
    rfl
  have fetched : Machine.fetch (x.start s s').funs (f, code.length) = some instr := by
    rw [at_.funs_eq]
    exact x.fetch draft' (by simp)
  have stepEq : step (x.start s s') =
      some ((x.start s s').execInstr x.cx (f, code.length) x.rest instr) := by
    rw [step, at_.control_eq]
    simp only [Setting.control, fetched]
  rw [endEq]
  refine .step ?_ stepEq (.here goesOn)
  rw [at_.control_eq]
  simp [Setting.control]

/-- A name is pushed as a symbol by the one and looked up by the other. -/
theorem name_differs (text : List Chr) (draft : Draft s.funs f args code labels) :
    ¬SameMeaning f s (.name text) := by
  intro same
  have named : Draft (s.withSymbol (aklGetOrCreateSymbol text) false).funs f args code labels :=
    draft
  have next : Translates (.next ⟨f, f⟩) (Form.name text).tokens s none
      (aklBuildPush ⟨f, f⟩ (s.withSymbol (aklGetOrCreateSymbol text) false)
        (some s.data.values.length)) :=
    @Translates.nextLeaf _ _ (atomLexeme text) (.symbol (aklGetOrCreateSymbol text), false) s rfl
  have arg : ArgTaken ⟨f, f⟩ (Form.name text).tokens s
      (aklBuildLoad ⟨f, f⟩ (s.withSymbol (aklGetOrCreateSymbol text) false)
        (aklGetOrCreateSymbol text)) := .atom .plain rfl
  have alike := same.pushes_iff next arg (.bare f) (.symbol (aklGetOrCreateSymbol text))
  have pushed := ((Setting.bare f).pushes_one_iff draft (named.emit f _)
    (s.data.newValue_payload_self ⟨.symbol (aklGetOrCreateSymbol text), false, false⟩) _).mpr rfl
  obtain ⟨m', c, arrives, holds, payload⟩ := alike.mp pushed
  cases found : args.findIdx? (· = aklGetOrCreateSymbol text) with
  | some k =>
      rw [named.load found] at arrives
      have missing := (Setting.bare f).arrives_one draft (named.emit f (.load k)) rfl
      obtain rfl := arrives.unique missing
      have cellsEq := holds.unique StackState.Holds.empty
      simp [Setting.bare] at cellsEq
  | none =>
      rw [named.get found] at arrives
      have undefined := (Setting.bare f).arrives_one draft
        (named.emit f (.get (aklGetOrCreateSymbol text))) rfl
      obtain rfl := arrives.unique undefined
      have pushedNil := (Setting.bare f).holds.push
        (s.data.newValue ⟨.symbol (aklGetOrCreateSymbol text), false, false⟩).2.values.length
      have cellsEq := holds.unique pushedNil
      simp only [Setting.bare, List.nil_append, List.cons.injEq, and_true] at cellsEq
      rw [cellsEq] at payload
      have nilPayload := Data.newValue_payload_self
        { (s.data.newValue ⟨.symbol (aklGetOrCreateSymbol text), false, false⟩).2 with
          globals := fun _ => none } nilValue
      have clash := payload.symm.trans nilPayload
      cases clash

/-- A `lambda` leaves the functions alone that are there already. -/
theorem Translates.lambda_kept {cx : CompContext} {ms : List Lexeme} {fn : Option FRef}
    {s' : CompState Unit} (translates : Translates (.form cx .lambda) ms s fn s') :
    ∃ func, fn = some func ∧
      ∀ (g : FRef) (old : AklFunction), s.funs[g]? = some old → s'.funs[g]? = some old := by
  cases translates with
  | @lambda _ tp doc first tb _ func s₁ s₂ fb s₃ new params docstring body =>
      cases new
      have kept := (KeptBeside.newFunction _ s).trans
        ((KeptBeside.params params).trans (body.keptBeside rfl))
      exact ⟨_, rfl, fun g old found => kept g old
        (Nat.ne_of_lt (List.getElem?_eq_some_iff.mp found).1) found⟩

/-- So does a `defun!`, which pushes the name. -/
theorem Translates.defun_kept {cx : CompContext} {l : Lexeme} {ms : List Lexeme}
    {fn : Option FRef} {s' : CompState Unit} (tok : l.tok = .tATOM)
    (translates : Translates (.form cx .defun) (l :: ms) s fn s') :
    ∃ func s₃, fn = some func ∧ s' = pushName cx s₃ (aklGetOrCreateSymbol l.text) ∧
      ∀ (g : FRef) (old : AklFunction), s.funs[g]? = some old → s₃.funs[g]? = some old := by
  cases translates with
  | @defun _ _ sym tp doc first tb _ func s₁ s₂ fb s₃ new tok' symEq params docstring body =>
      cases new
      subst symEq
      have kept := (KeptBeside.newFunction _ s).trans
        ((KeptBeside.params params).trans (body.keptBeside rfl))
      exact ⟨_, s₃, rfl, rfl, fun g old found => kept g old
        (Nat.ne_of_lt (List.getElem?_eq_some_iff.mp found).1) found⟩
  | defunOther new notAtom => exact absurd tok notAtom

omit [Libc] in
theorem Draft.kept_all {s' : CompState Unit} (draft : Draft s.funs f args code labels)
    (kept : ∀ (g : FRef) (old : AklFunction), s.funs[g]? = some old → s'.funs[g]? = some old) :
    Draft s'.funs f args code labels := by
  obtain ⟨body, found, bodyEq⟩ := draft
  exact ⟨body, kept _ _ found, bodyEq⟩

/-- The function of a `lambda` is pushed by the one only. -/
theorem lambda_differs {params : List (List Chr)} {body : Form} (bound : s.data.Bound)
    (special : ∀ form : SForm, s.formName form.symbol = some form)
    (notString : ¬body.IsString) (inside : body.WellFormed s.formName.Ordinary)
    (draft : Draft s.funs f args code labels) : ¬SameMeaning f s (.lambda params body) := by
  intro same
  have suits : s.formName.Suits s.formName := ⟨special, fun _ none => none⟩
  obtain ⟨n', operand, -⟩ := inside.hasOperands suits
  have knows : (s.withSymbol SForm.lambda.symbol false).Knows s.formName :=
    (Steady.newValue s _).knows ⟨bound, rfl⟩
  obtain ⟨fn, s₃, taken, -⟩ := (operand.lambdaOperands params notString).taken ⟨f, f⟩ _ knows
  obtain ⟨func, rfl, kept⟩ := taken.lambda_kept
  have loop := form_list bound (special .lambda) taken
  have next : Translates (.next ⟨f, f⟩) (Form.lambda params body).tokens s (some func) s₃ :=
    .nextList rfl loop
  have arg : ArgTaken ⟨f, f⟩ (Form.lambda params body).tokens s
      (pushFunction ⟨f, f⟩ s₃ (some func)) := .list rfl loop
  have named : Draft (s.withSymbol SForm.lambda.symbol false).funs f args code labels := draft
  have draft₃ := named.kept_all kept
  have valued : Draft (s₃.withData (s₃.data.newFunctionValue func).2).funs f args code labels :=
    draft₃
  have pushed := ((Setting.bare f).pushes_one_iff draft (valued.emit f _)
    (s₃.data.newValue_payload_self ⟨.function func, false, false⟩) _).mpr rfl
  have nothing : Draft s₃.funs f args (code ++ pushesOf []) labels := by simpa using draft₃
  exact (Setting.bare f).not_pushes draft nothing (by simp) _
    ((same.pushes_iff next arg (.bare f) _).mpr pushed)

/-- A `defun!` pushes the name, and as an argument the function behind it. -/
theorem defun_pushes {name : List Chr} {params : List (List Chr)} {body : Form}
    (bound : s.data.Bound) (special : ∀ form : SForm, s.formName form.symbol = some form)
    (notForm : ∀ form : SForm, form.symbol ≠ aklGetOrCreateSymbol name)
    (notString : ¬body.IsString) (inside : body.WellFormed s.formName.Ordinary)
    (draft : Draft s.funs f args code labels) :
    ∃ fn sn sa v w, Translates (.next ⟨f, f⟩) (Form.defun name params body).tokens s fn sn ∧
      ArgTaken ⟨f, f⟩ (Form.defun name params body).tokens s sa ∧
      Draft sn.funs f args (code ++ [.push (some v)]) labels ∧
      sn.data.payload v = some (.symbol (aklGetOrCreateSymbol name)) ∧
      Draft sa.funs f args (code ++ pushesOf [v, w]) labels := by
  have suits : s.formName.Suits s.formName := ⟨special, fun _ none => none⟩
  obtain ⟨n', operand, -⟩ := inside.hasOperands (suits.update notForm)
  have knows : (s.withSymbol SForm.defun.symbol false).Knows s.formName :=
    (Steady.newValue s _).knows ⟨bound, rfl⟩
  obtain ⟨fn, s₄, taken, -⟩ := (operand.defunOperands name params notString).taken ⟨f, f⟩ _ knows
  obtain ⟨func, s₃, rfl, rfl, kept⟩ := taken.defun_kept rfl
  have loop := form_list bound (special .defun) taken
  have named : Draft (s.withSymbol SForm.defun.symbol false).funs f args code labels := draft
  have valued : Draft (s₃.withData (s₃.data.newSymValue (aklGetOrCreateSymbol name)).2).funs f
      args code labels := named.kept_all kept
  have draft₄ := valued.emit f (.push (some s₃.data.values.length))
  have again : Draft ((pushName ⟨f, f⟩ s₃ (aklGetOrCreateSymbol name)).withData
      ((pushName ⟨f, f⟩ s₃ (aklGetOrCreateSymbol name)).data.newFunctionValue func).2).funs f args
      (code ++ [.push (some s₃.data.values.length)]) labels := draft₄
  have draft₅ := again.emit f
    (.push (some (pushName ⟨f, f⟩ s₃ (aklGetOrCreateSymbol name)).data.values.length))
  rw [List.append_assoc] at draft₅
  exact ⟨_, _, _, _, _, .nextList rfl loop, .list rfl loop, draft₄,
    s₃.data.newValue_payload_self ⟨.symbol (aklGetOrCreateSymbol name), false, false⟩, draft₅⟩

/-- The function of a `defun!` is pushed behind its name by the one only. -/
theorem defun_differs {name : List Chr} {params : List (List Chr)} {body : Form}
    (bound : s.data.Bound) (special : ∀ form : SForm, s.formName form.symbol = some form)
    (notForm : ∀ form : SForm, form.symbol ≠ aklGetOrCreateSymbol name)
    (notString : ¬body.IsString) (inside : body.WellFormed s.formName.Ordinary)
    (draft : Draft s.funs f args code labels) : ¬SameMeaning f s (.defun name params body) := by
  intro same
  obtain ⟨fn, sn, sa, v, w, next, arg, once, payload, twice⟩ :=
    @defun_pushes _ f args code labels s name params body bound special notForm notString inside
      draft
  have pushed := ((Setting.bare f).pushes_one_iff draft once payload _).mpr rfl
  exact (Setting.bare f).not_pushes draft twice (by simp) _
    ((same.pushes_iff next arg (.bare f) _).mp pushed)

/-! ### Every expression -/

end Same

/-- The special forms have their names in a new interpreter. -/
theorem firstState_special (form : SForm) :
    firstState.formName form.symbol = some form := by
  cases form with
  | sif => exact if_special
  | _ => decide +kernel

/-- Its first function is still empty. -/
theorem firstState_draft : Draft firstState.funs Machine.init.funs.length [] [] [] :=
  ⟨[], List.getElem?_concat_length, rfl⟩

/-- `(if T x (f x))`, as an argument or in the branch of another `if`. -/
def ifForm : Form :=
  .sif (.literal .true) (.name [code 'x']) (.call [code 'f'] (.cons (.name [code 'x']) .nil))

end AkLisp
