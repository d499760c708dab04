import AkLisp.Compiler.Positions
import AkLisp.Source.Proper
import AkLisp.Source.Resolves

/-!
# Every expression is compiled

By recursion on an expression: in each position the compiler takes its tokens
and emits the code of a compiled form that stands for it, behind the
instructions and the labels that are there already.  There is one lemma for each
kind of expression.
-/

namespace AkLisp

/-! ### What the compiler starts from -/

/-- What is known of the names in an expression: which ones are called, which
function the compiler may fetch for a name, and whether the expression may
define functions. -/
structure Scope where
  functions : Symbol → Prop
  fetched : Symbol → Option FRef → Prop
  define : Prop

/-- A state in which the special forms have their names and the functions that
are called can be fetched. -/
structure Scope.Prepared (S : Scope) (s : CompState Unit) : Prop where
  bound : s.data.Bound
  special : ∀ form : SForm, s.formName form.symbol = some form
  callable : ∀ sym, S.functions sym → ∃ pfSt fun_, prefetchFunction s sym = (pfSt, fun_) ∧
    (pfSt = .normal ∨ pfSt = .notFound) ∧ S.fetched sym fun_
  new : S.define → ∀ sym func, s.funs.length ≤ func → S.fetched sym (some func)

theorem Steady.prepared {S : Scope} {s s' : CompState Unit} (steady : Steady s s')
    (ready : S.Prepared s) : S.Prepared s' where
  bound := steady.bound ready.bound
  special := fun form => by
    rw [steady.formName ready.bound]
    exact ready.special form
  callable := fun sym called => by
    rw [steady.prefetchFunction ready.bound]
    exact ready.callable sym called
  new := fun define sym func behind =>
    ready.new define sym func (Nat.le_trans steady.length behind)

/-- `defun!` binds a name that is not the one of a special form. -/
theorem Scope.Prepared.bindFunction {S : Scope} {s : CompState Unit} (ready : S.Prepared s)
    {sym : Symbol} (ordinary : ∀ form : SForm, form.symbol ≠ sym) {v : VRef} {func : FRef}
    (function : s.data.function? v = some func) (user : ∃ ufun, s.funs[func]? = some (.user ufun))
    (noted : S.fetched sym (some func)) : S.Prepared (bindFunction s sym v) := by
  obtain ⟨ufun, found⟩ := user
  have notForm : s.sform? func = none := by simp [CompState.sform?, found]
  have knows : s.Knows s.formName := ⟨ready.bound, rfl⟩
  have knows' := knows.bindFunction sym function notForm
  refine ⟨knows'.bound, ?_, ?_, ready.new⟩
  · intro form
    rw [knows'.names, Function.update_of_ne (ordinary form)]
    exact ready.special form
  · intro sym' called
    by_cases same : sym' = sym
    · subst same
      refine ⟨.normal, some func, ?_, .inl rfl, noted⟩
      have bound : (AkLisp.bindFunction s sym' v).data.globals sym' = some v := by
        simp [AkLisp.bindFunction, CompState.withData, Data.aklSetGlobalVar]
      have function' : (AkLisp.bindFunction s sym' v).data.function? v = some func := function
      have found' : (AkLisp.bindFunction s sym' v).funs[func]? = some (.user ufun) := found
      simp [prefetchFunction, bound, function', found']
    · obtain ⟨pfSt, fun_, fetched, rest⟩ := ready.callable sym' called
      refine ⟨pfSt, fun_, ?_, rest⟩
      have other : (AkLisp.bindFunction s sym v).data.globals sym' = s.data.globals sym' := by
        simp [AkLisp.bindFunction, CompState.withData, Data.aklSetGlobalVar, same]
      rw [← fetched]
      simp only [prefetchFunction, other]
      rfl

/-! ### What is emitted -/

/-- Between two states code and labels are appended to the function `f`. -/
structure Emitted (S : Scope) (f : FRef) (args : List Symbol) (code : List Instr)
    (labels : List Label) (s s' : CompState Unit) (new : List Instr) (newLabels : List Label) :
    Prop where
  ready : S.Prepared s'
  extended : Extends f s s'
  draft : Draft s'.funs f args (code ++ new) (labels ++ newLabels)

section Emitted

variable {S : Scope} {f : FRef} {args : List Symbol} {code new new' : List Instr}
  {labels more more' : List Label} {s s' s'' : CompState Unit}

theorem Emitted.here (ready : S.Prepared s) (draft : Draft s.funs f args code labels) :
    Emitted S f args code labels s s [] [] :=
  ⟨ready, .refl f s, by simpa using draft⟩

theorem Emitted.trans (first : Emitted S f args code labels s s' new more)
    (second : Emitted S f args (code ++ new) (labels ++ more) s' s'' new' more') :
    Emitted S f args code labels s s'' (new ++ new') (more ++ more') :=
  ⟨second.ready, first.extended.trans second.extended, by
    simpa only [List.append_assoc] using second.draft⟩

theorem Emitted.congr (emitted : Emitted S f args code labels s s' new more)
    (newEq : new = new') (moreEq : more = more') :
    Emitted S f args code labels s s' new' more' := by
  rw [← newEq, ← moreEq]
  exact emitted

/-- One more instruction. -/
theorem Emitted.emit (first : Emitted S f args code labels s s' new more) (instr : Instr) :
    Emitted S f args code labels s (s'.emit ⟨f, f⟩ instr) (new ++ [instr]) more :=
  ⟨(Steady.emit _ s' instr).prepared first.ready, first.extended.trans (.emit f f s' instr), by
    simpa only [List.append_assoc] using first.draft.emit f instr⟩

/-- A change of the data that keeps the globals. -/
theorem Emitted.withData (first : Emitted S f args code labels s s' new more) {d : Data}
    (keeps : s'.data.Keeps d s'.data.existing) (globals : d.globals = s'.data.globals) :
    Emitted S f args code labels s (s'.withData d) new more :=
  ⟨(Steady.withData s' globals keeps.values).prepared first.ready,
    first.extended.trans (.withData f s' keeps), first.draft⟩

theorem Emitted.newValue (first : Emitted S f args code labels s s' new more)
    (value : AklValue) :
    Emitted S f args code labels s (s'.withData (s'.data.newValue value).2) new more :=
  first.withData (s'.data.keeps_newValue value _) rfl

end Emitted

/-- The code and the labels of a compiled form. -/
abbrev Compiled (S : Scope) (f : FRef) (args : List Symbol) (code : List Instr)
    (labels : List Label) (s s' : CompState Unit) (E : Expr) : Prop :=
  Emitted S f args code labels s s' (E.code f labels.length)
    (boundLabels f labels.length (E.binds code.length))

/-- The tokens the compiler takes for an expression in a position, and the states
before and after. -/
def Position.Takes [Libc] (f : FRef) (ts : List Lexeme) (s s' : CompState Unit) :
    Position → Prop
  | .next => ∃ fn, Translates (.next ⟨f, f⟩) ts s fn s'
  | .rhs => ∃ fn s₁, Translates (.next ⟨f, f⟩) ts s fn s₁ ∧ s' = pushFunction ⟨f, f⟩ s₁ fn
  | .arg => ArgTaken ⟨f, f⟩ ts s s'

/-- In this position the expression is compiled to something that stands for it. -/
def Form.Compiles [Libc] (S : Scope) (pos : Position) (e : Form) : Prop :=
  ∀ f args code labels s, Draft s.funs f args code labels → S.Prepared s →
    ∃ s' E, pos.Takes f e.tokens s s' ∧ Compiled S f args code labels s s' E ∧
      e.Resolves S.fetched s'.funs s'.data f args pos E

/-! ### Literals, quoted data and names -/

section Leaves

variable [Libc] {S : Scope} {f : FRef} {args : List Symbol} {code : List Instr}
  {labels : List Label} {s : CompState Unit}

theorem ReadDatum.present {x : Datum} {b : Bool} {d d' : Data} {v : VRef}
    (read : ReadDatum x b d v d') : x.Denoted d' d'.present v :=
  Datum.Denoted.mono (F := d.created d' []) (G := d'.present) (fun _ created => created.2.1)
    (fun _ _ => trivial) read.denoted

/-- The push of a datum that has just been read. -/
theorem ReadDatum.compiled {x : Datum} {b : Bool} {v : VRef} {d' : Data}
    (read : ReadDatum x b s.data v d') (draft : Draft s.funs f args code labels)
    (ready : S.Prepared s) :
    Compiled S f args code labels s (aklBuildPush ⟨f, f⟩ (s.withData d') (some v)) (.lit v) :=
  ((Emitted.here ready draft).withData read.keeps read.globals).emit _

/-- The reader allocates one value for a literal. -/
theorem Literal.read (c : Literal) (b : Bool) (d : Data) :
    ∃ l leaf, c.datum.tokens = [l] ∧ l.leaf? = some leaf ∧ l.tok ≠ .tATOM ∧
      ReadDatum c.datum b d d.values.length (d.newValue (leafValue leaf b)).2 := by
  obtain ⟨l, leaf, tokens, leafEq, notAtom⟩ := c.token
  obtain ⟨v, d', read⟩ := c.datum.read b d
  refine ⟨l, leaf, tokens, leafEq, notAtom, ?_⟩
  have reads := read.reads
  rw [tokens] at reads
  cases reads with
  | leaf leafEq' =>
      rw [leafEq] at leafEq'
      cases leafEq'
      exact read
  | list tok inside => simp [Lexeme.leaf?, tok] at leafEq

theorem literal_compiles (c : Literal) (pos : Position) : (Form.literal c).Compiles S pos := by
  intro f args code labels s draft ready
  have next : ∃ s' v, Translates (.next ⟨f, f⟩) (Form.literal c).tokens s none s' ∧
      Compiled S f args code labels s s' (.lit v) ∧ c.datum.Denoted s'.data s'.data.present v := by
    obtain ⟨l, leaf, tokens, leafEq, -, read⟩ := c.read false s.data
    refine ⟨_, _, ?_, read.compiled draft ready, read.present⟩
    rw [Form.tokens, tokens]
    exact .nextLeaf leafEq
  cases pos with
  | next =>
      obtain ⟨s', v, taken, compiled, denoted⟩ := next
      exact ⟨s', .lit v, ⟨none, taken⟩, compiled, v, rfl, denoted⟩
  | rhs =>
      obtain ⟨s', v, taken, compiled, denoted⟩ := next
      exact ⟨s', .lit v, ⟨none, s', taken, rfl⟩, compiled, v, rfl, denoted⟩
  | arg =>
      obtain ⟨l, leaf, tokens, leafEq, notAtom, read⟩ := c.read true s.data
      refine ⟨_, .lit s.data.values.length, ?_, read.compiled draft ready, _, rfl, read.present⟩
      rw [Form.tokens, tokens]
      exact .leaf .plain leafEq notAtom

theorem quoted_compiles (x : Datum) (pos : Position) : (Form.quoted x).Compiles S pos := by
  intro f args code labels s draft ready
  obtain ⟨v, d', read⟩ := x.read true s.data
  have next : Translates (.next ⟨f, f⟩) (Form.quoted x).tokens s none
      (aklBuildPush ⟨f, f⟩ (s.withData d') (some v)) := by
    have reads := read.reads
    rw [Form.tokens]
    generalize x.tokens = ts at reads
    cases reads with
    | leaf leafEq => exact .nextQuoted rfl (.leaf leafEq)
    | list tok inside => exact .nextQuoted rfl (.list tok inside)
  refine ⟨_, .lit v, ?_, read.compiled draft ready, v, rfl, read.present⟩
  cases pos with
  | next => exact ⟨none, next⟩
  | rhs => exact ⟨none, _, next, rfl⟩
  | arg => exact .quoted rfl read.reads

omit [Libc] in
/-- As an argument a name is looked up. -/
theorem operand_compiled (sym : Symbol) (draft : Draft s.funs f args code labels)
    (ready : S.Prepared s) :
    Compiled S f args code labels s (aklBuildLoad ⟨f, f⟩ s sym) (operandOf args sym) := by
  unfold operandOf
  cases param : args.findIdx? (· = sym) with
  | some k =>
      rw [draft.load param]
      exact (Emitted.here ready draft).emit _
  | none =>
      rw [draft.get param]
      exact (Emitted.here ready draft).emit _

theorem name_compiles (text : List Chr) (pos : Position) : (Form.name text).Compiles S pos := by
  intro f args code labels s draft ready
  have named := (Emitted.here ready draft).newValue
    ⟨.symbol (aklGetOrCreateSymbol text), false, false⟩
  have next : Translates (.next ⟨f, f⟩) (Form.name text).tokens s none
      (aklBuildPush ⟨f, f⟩ (s.withSymbol (aklGetOrCreateSymbol text) false)
        (some s.data.values.length)) :=
    @Translates.nextLeaf _ _ (atomLexeme text) (.symbol (aklGetOrCreateSymbol text), false) s rfl
  have payload := s.data.newValue_payload_self
    ⟨.symbol (aklGetOrCreateSymbol text), false, false⟩
  cases pos with
  | next =>
      exact ⟨_, .lit s.data.values.length, ⟨none, next⟩, named.emit _, _, rfl, payload⟩
  | rhs =>
      exact ⟨_, .lit s.data.values.length, ⟨none, _, next, rfl⟩, named.emit _, _, rfl, payload⟩
  | arg =>
      refine ⟨_, _, .atom .plain rfl, ?_, rfl⟩
      have draft' :
          Draft (s.withSymbol (aklGetOrCreateSymbol text) false).funs f args code labels :=
        draft
      have compiled := operand_compiled (aklGetOrCreateSymbol text) draft' named.ready
      exact ⟨compiled.ready, named.extended.trans compiled.extended, compiled.draft⟩

end Leaves

/-! ### Lists -/

/-- The state behind a list in a position, given the function it evaluates to. -/
def Position.finish (f : FRef) (s : CompState Unit) (fn : Option FRef) :
    Position → CompState Unit
  | .next => s
  | .rhs | .arg => pushFunction ⟨f, f⟩ s fn

/-- The list with these tokens behind its opening parenthesis is compiled to
something that stands for the expression, in all positions from one run. -/
def ListCompiles [Libc] (S : Scope) (e : Form) (items : List Lexeme) : Prop :=
  ∀ f args code labels s, Draft s.funs f args code labels → S.Prepared s →
    ∃ fn s₁, Translates (.loop ⟨f, f⟩ .init) items s fn s₁ ∧ (¬e.IsDefinition → fn = none) ∧
      ∀ pos : Position, ∃ E, Compiled S f args code labels s (pos.finish f s₁ fn) E ∧
        e.Resolves S.fetched (pos.finish f s₁ fn).funs (pos.finish f s₁ fn).data f args pos E

section Lists

variable [Libc] {S : Scope} {e c a b body : Form} {items : List Lexeme}

theorem ListCompiles.compiles (tokens : e.tokens = openLexeme :: items)
    (list : ListCompiles S e items) (pos : Position) : e.Compiles S pos := by
  intro f args code labels s draft ready
  obtain ⟨fn, s₁, loop, -, each⟩ := list f args code labels s draft ready
  obtain ⟨E, compiled, resolves⟩ := each pos
  refine ⟨pos.finish f s₁ fn, E, ?_, compiled, resolves⟩
  rw [tokens]
  cases pos with
  | next => exact ⟨fn, .nextList rfl loop⟩
  | rhs => exact ⟨fn, s₁, .nextList rfl loop, rfl⟩
  | arg => exact .list rfl loop

/-- A list that evaluates to no function is compiled in the same way everywhere. -/
theorem ListCompiles.of_none
    (list : ∀ f args code labels s, Draft s.funs f args code labels → S.Prepared s →
      ∃ s₁ E, Translates (.loop ⟨f, f⟩ .init) items s none s₁ ∧
        Compiled S f args code labels s s₁ E ∧
        ∀ pos : Position, e.Resolves S.fetched s₁.funs s₁.data f args pos E) :
    ListCompiles S e items := by
  intro f args code labels s draft ready
  obtain ⟨s₁, E, loop, compiled, resolves⟩ := list f args code labels s draft ready
  refine ⟨none, s₁, loop, fun _ => rfl, fun pos => ?_⟩
  have finished : pos.finish f s₁ none = s₁ := by cases pos <;> rfl
  rw [finished]
  exact ⟨E, compiled, resolves pos⟩

omit [Libc] in
/-- The value of the head. -/
theorem Emitted.head {f : FRef} {args : List Symbol} {code : List Instr} {labels : List Label}
    {s : CompState Unit} (draft : Draft s.funs f args code labels) (ready : S.Prepared s)
    (sym : Symbol) :
    Emitted S f args code labels s (s.withSymbol sym false) [] [] :=
  (Emitted.here ready draft).newValue _

omit [Libc] in
/-- New labels, which are unbound. -/
theorem Emitted.newLabels {f : FRef} {args : List Symbol} {code new : List Instr}
    {labels more : List Label} {s s' : CompState Unit}
    (first : Emitted S f args code labels s s' new more) (n : Nat) :
    aklNewLabels ⟨f, f⟩ s' n = ((labels ++ more).length, (aklNewLabels ⟨f, f⟩ s' n).2) ∧
      Emitted S f args code labels s (aklNewLabels ⟨f, f⟩ s' n).2 new
        (more ++ (List.range n).map fun i => ⟨none, none, i + (labels ++ more).length⟩) := by
  obtain ⟨firstEq, draft⟩ := first.draft.newLabels n
  refine ⟨Prod.ext firstEq rfl, (Steady.aklNewLabels _ s' n).prepared first.ready,
    first.extended.trans (.aklNewLabels f s' n), ?_⟩
  rw [← List.append_assoc]
  exact draft

omit [Libc] in
/-- A label that stands between others is bound to the end of the code. -/
theorem Emitted.label {f : FRef} {args : List Symbol} {code new : List Instr}
    {labels before behind : List Label} {ind : Nat} {s s' : CompState Unit}
    (first : Emitted S f args code labels s s' new
      (before ++ ⟨none, none, ind⟩ :: behind)) (indEq : ind = (labels ++ before).length) :
    Emitted S f args code labels s (aklBuildLabel ⟨f, f⟩ s' ⟨f, ind⟩) new
      (before ++ boundLabel f ind (code ++ new).length :: behind) := by
  refine ⟨(Steady.aklBuildLabel _ s' _).prepared first.ready,
    first.extended.trans (.aklBuildLabel f s' ind), ?_⟩
  have draft := first.draft.label ind
  rw [← List.append_assoc, indEq, modify_middle, List.append_assoc] at draft
  rw [indEq]
  exact draft

theorem when_compiles (cond : c.Compiles S .next) (then_ : a.Compiles S .next) :
    ListCompiles S (.when c a)
      (atomLexeme SForm.when.text :: ((c.tokens ++ a.tokens) ++ [closeLexeme])) := by
  refine .of_none fun f args code labels s draft ready => ?_
  have head := Emitted.head draft ready SForm.when.symbol
  obtain ⟨labelsEq, labelled⟩ := head.newLabels 1
  simp only [List.append_nil] at labelsEq labelled
  obtain ⟨s₂, cE, ⟨fc, condTaken⟩, condCompiled, condResolves⟩ :=
    cond f args _ _ _ labelled.draft labelled.ready
  have jumped := (labelled.trans condCompiled).emit (.jn ⟨f, labels.length⟩)
  obtain ⟨s₃, aE, ⟨fa, bodyTaken⟩, bodyCompiled, bodyResolves⟩ :=
    then_ f args _ _ _ jumped.draft jumped.ready
  have laid : Emitted S f args code labels s s₃
      ((Expr.when cE aE).code f labels.length)
      ([] ++ ⟨none, none, labels.length⟩ ::
        (boundLabels f (labels.length + 1) (cE.binds code.length) ++
          boundLabels f (labels.length + 1 + cE.labelCount)
            (aE.binds (code.length + cE.size + 1)))) :=
    (jumped.trans bodyCompiled).congr
      (by simp [Expr.code, Nat.add_assoc, Nat.add_comm])
      (by simp [List.range_succ, Nat.add_assoc, Nat.add_comm, Nat.add_left_comm])
  have compiled : Compiled S f args code labels s
      (aklBuildLabel ⟨f, f⟩ s₃ ⟨f, labels.length⟩) (.when cE aE) :=
    (laid.label (by simp)).congr rfl (by
      simp [Expr.binds, Expr.size, boundLabels_cons, boundLabels_append, Nat.add_assoc])
  have later := (Extends.emit f f s₂ (.jn ⟨f, labels.length⟩)).trans bodyCompiled.extended
  have labelLater := Extends.aklBuildLabel f s₃ labels.length
  have taken := form_list ready.bound (ready.special .when) (.when labelsEq condTaken bodyTaken)
  refine ⟨_, _, taken, compiled, fun pos => ⟨cE, aE, rfl, ?_, ?_⟩⟩
  · exact condResolves.later (later.trans labelLater).data c (later.trans labelLater).keptBehind
  · exact bodyResolves.later labelLater.data a labelLater.keptBehind

omit [Libc] in
theorem one_add_one_add (n : Nat) : 1 + (1 + n) = 2 + n := by
  omega

theorem sif_compiles (cond : c.Compiles S .next) (then_ : a.Compiles S .next)
    (else_ : b.Compiles S .next) :
    ListCompiles S (.sif c a b)
      (atomLexeme SForm.sif.text ::
        ((c.tokens ++ (a.tokens ++ b.tokens)) ++ [closeLexeme])) := by
  refine .of_none fun f args code labels s draft ready => ?_
  have head := Emitted.head draft ready SForm.sif.symbol
  obtain ⟨labelsEq, labelled⟩ := head.newLabels 2
  simp only [List.append_nil] at labelsEq labelled
  obtain ⟨s₂, cE, ⟨fc, condTaken⟩, condCompiled, condResolves⟩ :=
    cond f args _ _ _ labelled.draft labelled.ready
  have jumped := (labelled.trans condCompiled).emit (.jn ⟨f, labels.length + 1⟩)
  obtain ⟨s₃, aE, ⟨fa, bodyTaken⟩, bodyCompiled, bodyResolves⟩ :=
    then_ f args _ _ _ jumped.draft jumped.ready
  have jumpedOver := (jumped.trans bodyCompiled).emit (.jmp ⟨f, labels.length⟩)
  -- the label of the other branch is the second one
  have laid : Emitted S f args code labels s
      (s₃.emit ⟨f, f⟩ (.jmp ⟨f, labels.length⟩))
      (cE.code f (labels.length + 2) ++ ([.jn ⟨f, labels.length + 1⟩] ++
        (aE.code f (labels.length + 2 + cE.labelCount) ++ [.jmp ⟨f, labels.length⟩])))
      ([⟨none, none, labels.length⟩] ++ ⟨none, none, labels.length + 1⟩ ::
        (boundLabels f (labels.length + 2) (cE.binds code.length) ++
          boundLabels f (labels.length + 2 + cE.labelCount)
            (aE.binds (code.length + cE.size + 1)))) :=
    jumpedOver.congr
      (by simp [Nat.add_assoc])
      (by simp [List.range_succ, Nat.add_assoc, Nat.add_comm, Nat.add_left_comm, one_add_one_add])
  have branched := laid.label (by simp)
  obtain ⟨s₄, bE, ⟨fb, otherTaken⟩, otherCompiled, otherResolves⟩ :=
    else_ f args _ _ _ branched.draft branched.ready
  have laid' : Emitted S f args code labels s s₄
      ((Expr.sif cE aE bE).code f labels.length)
      ([] ++ ⟨none, none, labels.length⟩ ::
        (boundLabel f (labels.length + 1) (code.length + cE.size + 1 + aE.size + 1) ::
          (boundLabels f (labels.length + 2) (cE.binds code.length) ++
            (boundLabels f (labels.length + 2 + cE.labelCount)
              (aE.binds (code.length + cE.size + 1)) ++
            boundLabels f (labels.length + 2 + cE.labelCount + aE.labelCount)
              (bE.binds (code.length + cE.size + 1 + aE.size + 1)))))) :=
    (branched.trans otherCompiled).congr
      (by simp [Expr.code, Nat.add_assoc, Nat.add_comm, Nat.add_left_comm, one_add_one_add])
      (by simp [Nat.add_assoc, Nat.add_comm, Nat.add_left_comm, one_add_one_add])
  have compiled : Compiled S f args code labels s
      (aklBuildLabel ⟨f, f⟩ s₄ ⟨f, labels.length⟩) (.sif cE aE bE) :=
    (laid'.label (by simp)).congr rfl (by
      simp [Expr.binds, Expr.size, boundLabels_cons, boundLabels_append, Nat.add_assoc])
  have labelLater := Extends.aklBuildLabel f s₄ labels.length
  have laterA := ((Extends.emit f f s₃ (.jmp ⟨f, labels.length⟩)).trans
    (.aklBuildLabel f _ (labels.length + 1))).trans (otherCompiled.extended.trans labelLater)
  have laterC := (Extends.emit f f s₂ (.jn ⟨f, labels.length + 1⟩)).trans
    (bodyCompiled.extended.trans laterA)
  have taken := form_list ready.bound (ready.special .sif)
    (.sif labelsEq condTaken bodyTaken otherTaken)
  refine ⟨_, _, taken, compiled, fun pos => ⟨cE, aE, bE, rfl, ?_, ?_, ?_⟩⟩
  · exact condResolves.later laterC.data c laterC.keptBehind
  · exact bodyResolves.later laterA.data a laterA.keptBehind
  · exact otherResolves.later labelLater.data b labelLater.keptBehind

theorem swhile_compiles (cond : c.Compiles S .next) (body : a.Compiles S .next) :
    ListCompiles S (.swhile c a)
      (atomLexeme SForm.swhile.text :: ((c.tokens ++ a.tokens) ++ [closeLexeme])) := by
  refine .of_none fun f args code labels s draft ready => ?_
  have head := Emitted.head draft ready SForm.swhile.symbol
  obtain ⟨labelsEq, labelled⟩ := head.newLabels 2
  simp only [List.append_nil] at labelsEq labelled
  have laid : Emitted S f args code labels s _ []
      ([] ++ ⟨none, none, labels.length⟩ :: [⟨none, none, labels.length + 1⟩]) :=
    labelled.congr rfl (by simp [List.range_succ, Nat.add_comm])
  have begun := laid.label (by simp)
  obtain ⟨s₂, cE, ⟨fc, condTaken⟩, condCompiled, condResolves⟩ :=
    cond f args _ _ _ begun.draft begun.ready
  have jumped := (begun.trans condCompiled).emit (.jn ⟨f, labels.length + 1⟩)
  obtain ⟨s₃, aE, ⟨fa, bodyTaken⟩, bodyCompiled, bodyResolves⟩ :=
    body f args _ _ _ jumped.draft jumped.ready
  have jumpedBack := (jumped.trans bodyCompiled).emit (.jmp ⟨f, labels.length⟩)
  have laid' : Emitted S f args code labels s (s₃.emit ⟨f, f⟩ (.jmp ⟨f, labels.length⟩))
      ((Expr.swhile cE aE).code f labels.length)
      ([boundLabel f labels.length code.length] ++ ⟨none, none, labels.length + 1⟩ ::
        (boundLabels f (labels.length + 2) (cE.binds code.length) ++
          boundLabels f (labels.length + 2 + cE.labelCount)
            (aE.binds (code.length + cE.size + 1)))) :=
    jumpedBack.congr
      (by simp [Expr.code, Nat.add_assoc, Nat.add_comm, one_add_one_add])
      (by simp [Nat.add_assoc, Nat.add_comm, Nat.add_left_comm, one_add_one_add])
  have compiled : Compiled S f args code labels s
      (aklBuildLabel ⟨f, f⟩ (s₃.emit ⟨f, f⟩ (.jmp ⟨f, labels.length⟩)) ⟨f, labels.length + 1⟩)
      (.swhile cE aE) :=
    (laid'.label (by simp)).congr rfl (by
      simp [Expr.binds, Expr.size, boundLabels_cons, boundLabels_append, Nat.add_assoc])
  have laterA := (Extends.emit f f s₃ (.jmp ⟨f, labels.length⟩)).trans
    (.aklBuildLabel f _ (labels.length + 1))
  have laterC := (Extends.emit f f s₂ (.jn ⟨f, labels.length + 1⟩)).trans
    (bodyCompiled.extended.trans laterA)
  have taken := form_list ready.bound (ready.special .swhile)
    (.swhile labelsEq condTaken bodyTaken)
  refine ⟨_, _, taken, compiled, fun pos => ⟨cE, aE, rfl, ?_, ?_⟩⟩
  · exact condResolves.later laterC.data c laterC.keptBehind
  · exact bodyResolves.later laterA.data a laterA.keptBehind

theorem set_compiles (name : List Chr) (rhs : e.Compiles S .rhs) :
    ListCompiles S (.set name e)
      (atomLexeme SForm.set.text :: ((atomLexeme name :: e.tokens) ++ [closeLexeme])) := by
  refine .of_none fun f args code labels s draft ready => ?_
  have head := Emitted.head draft ready SForm.set.symbol
  obtain ⟨s₁, eE, ⟨fn, s₀, taken, rfl⟩, compiled, resolves⟩ :=
    rhs f args _ _ _ head.draft head.ready
  have stored := (head.trans compiled).emit (.set (aklGetOrCreateSymbol name))
  have later := Extends.emit f f (pushFunction ⟨f, f⟩ s₀ fn) (.set (aklGetOrCreateSymbol name))
  have listed := form_list ready.bound (ready.special .set) (.set (l := atomLexeme name) rfl taken)
  refine ⟨_, .set (aklGetOrCreateSymbol name) eE, listed, ?_, fun pos => ⟨eE, rfl, ?_⟩⟩
  · exact stored.congr (by simp [Expr.code]) (by simp [Expr.binds])
  · exact resolves.later later.data e later.keptBehind

end Lists

/-! ### Calls -/

/-- Behind the head of a call the arguments are compiled to something that stands for
them, and the call behind them. -/
def Forms.Compiles [Libc] (S : Scope) (es : Forms) : Prop :=
  ∀ f args code labels s (loc : ListLocals) sym, Draft s.funs f args code labels → S.Prepared s →
    loc.felem = false → loc.sym = some sym →
    ∃ s' argsE, Translates (.loop ⟨f, f⟩ loc) es.tokens s none
        (s'.emit ⟨f, f⟩ (.call sym loc.fun_ (loc.argc + es.length))) ∧
      Emitted S f args code labels s s' (argsE.code f labels.length)
        (boundLabels f labels.length (argsE.binds code.length)) ∧
      es.Resolves S.fetched s'.funs s'.data f args argsE ∧ argsE.length = es.length

section Calls

variable [Libc] {S : Scope} {e : Form} {es : Forms}

theorem argsNil_compiles : Forms.nil.Compiles S := by
  intro f args code labels s loc sym draft ready later symEq
  have closed := @Translates.close _ ⟨f, f⟩ loc [] false closeLexeme s .plain rfl
  have ended : compileEnd ⟨f, f⟩ loc s =
      (none, s.emit ⟨f, f⟩ (.call sym loc.fun_ (loc.argc + 0))) := by
    simp only [compileEnd, symEq]
    rfl
  rw [ended] at closed
  exact ⟨s, .nil, closed, Emitted.here ready draft, rfl, rfl⟩

theorem argsCons_compiles (first : e.Compiles S .arg) (others : es.Compiles S) :
    (Forms.cons e es).Compiles S := by
  intro f args code labels s loc sym draft ready later symEq
  obtain ⟨s₁, E, taken, compiled, resolves⟩ := first f args code labels s draft ready
  obtain ⟨s', argsE, loop, emitted, othersResolve, lengthEq⟩ :=
    others f args _ _ s₁ loc.countArg sym compiled.draft compiled.ready rfl symEq
  have argcEq : loc.countArg.argc + es.length = loc.argc + (Forms.cons e es).length := by
    simp only [ListLocals.countArg, Forms.length]
    omega
  rw [argcEq] at loop
  have firstLater := resolves.later emitted.extended.data e emitted.extended.keptBehind
  refine ⟨s', .cons E argsE, taken.loop later loop, ?_, ⟨E, argsE, rfl, firstLater, othersResolve⟩,
    by rw [Args.length, lengthEq, Forms.length]⟩
  exact (compiled.trans emitted).congr (by simp [Args.code])
    (by simp [Args.binds, boundLabels_append])

theorem call_compiles {head : List Chr} (called : S.functions (aklGetOrCreateSymbol head))
    (arguments : es.Compiles S) :
    ListCompiles S (.call head es) (atomLexeme head :: es.tokens) := by
  refine .of_none fun f args code labels s draft ready => ?_
  have start := Emitted.head draft ready (aklGetOrCreateSymbol head)
  obtain ⟨pfSt, fun_, fetched, callable, noted⟩ := start.ready.callable _ called
  obtain ⟨s', argsE, loop, emitted, resolves, lengthEq⟩ :=
    arguments f args _ _ _ ⟨pfSt, 0, false, fun_, some (aklGetOrCreateSymbol head)⟩
      (aklGetOrCreateSymbol head) start.draft start.ready rfl rfl
  have later := Extends.emit f f s' (.call (aklGetOrCreateSymbol head) fun_ (0 + es.length))
  have listed : Translates (.loop ⟨f, f⟩ .init) (atomLexeme head :: es.tokens) s none
      (s'.emit ⟨f, f⟩ (.call (aklGetOrCreateSymbol head) fun_ (0 + es.length))) :=
    .headName .plain rfl rfl rfl fetched callable loop
  refine ⟨_, .call (aklGetOrCreateSymbol head) fun_ argsE, listed, ?_, fun pos =>
    ⟨fun_, argsE, rfl, noted, Forms.Resolves.later later.data es later.keptBehind resolves⟩⟩
  exact ((start.trans emitted).emit _).congr (by simp [Expr.code, lengthEq])
    (by simp [Expr.binds])

end Calls

/-! ### Definitions -/

section Definitions

variable [Libc] {S : Scope} {body : Form}

omit [Libc] in
/-- The parameters are appended to the new function. -/
theorem paramLoop_taken {func : FRef} {code : List Instr} {labels : List Label}
    (params : List (List Chr)) {args : List Symbol} {s : CompState Unit}
    (draft : Draft s.funs func args code labels) :
    ∃ s', ParamLoop func (params.map atomLexeme ++ [closeLexeme]) s s' ∧
      Draft s'.funs func (args ++ params.map aklGetOrCreateSymbol) code labels ∧
      Extends func s s' := by
  induction params generalizing args s with
  | nil => exact ⟨s, .close rfl, by simpa using draft, .refl func s⟩
  | cons text params ih =>
      obtain ⟨s', loop, draft', extended⟩ := ih (draft.addArg (aklGetOrCreateSymbol text))
      refine ⟨s', .atom rfl loop, ?_, (Extends.modifyUfun s func _).trans extended⟩
      simpa only [List.append_assoc, List.singleton_append, List.map_cons] using draft'

omit [Libc] in
theorem paramTokens_taken (fname : String) {func : FRef} {code : List Instr}
    {labels : List Label} (params : List (List Chr)) {s : CompState Unit}
    (draft : Draft s.funs func [] code labels) :
    ∃ s', Params fname func (paramTokens params) s s' ∧
      Draft s'.funs func (params.map aklGetOrCreateSymbol) code labels ∧ Extends func s s' := by
  cases params with
  | nil => exact ⟨s, .empty rfl, draft, .refl func s⟩
  | cons text params =>
      obtain ⟨s', loop, draft', extended⟩ := paramLoop_taken (text :: params) draft
      exact ⟨s', .list rfl loop, draft', extended⟩

/-- The body of a function of its own is compiled from the first position on. -/
theorem body_compiles (notString : ¬body.IsString) (inside : body.Compiles S .next)
    {func : FRef} {params : List Symbol} {s : CompState Unit}
    (draft : Draft s.funs func params [] []) (ready : S.Prepared s) :
    ∃ first others fb s' bodyE, body.tokens = first :: others ∧ Docstring [] first ∧
      Translates (.next ⟨func, func⟩) (first :: others) s fb s' ∧ S.Prepared s' ∧
      Extends func s s' ∧
      Draft s'.funs func params (bodyE.code func 0) (boundLabels func 0 (bodyE.binds 0)) ∧
      body.Resolves S.fetched s'.funs s'.data func params .next bodyE := by
  obtain ⟨first, others, tokens, notEof, stringOnly⟩ := body.tokens_first
  obtain ⟨s', bodyE, ⟨fb, taken⟩, compiled, resolves⟩ := inside func params [] [] s draft ready
  rw [tokens] at taken
  exact ⟨first, others, fb, s', bodyE, tokens, .absent (stringOnly notString) notEof, taken,
    compiled.ready, compiled.extended, compiled.draft, resolves⟩

omit [Libc] in
/-- What is done for a new function leaves the enclosing one as it is. -/
theorem Emitted.function {f func : FRef} {args : List Symbol} {code : List Instr}
    {labels : List Label} {s s' : CompState Unit} (draft : Draft s.funs f args code labels)
    (ready : S.Prepared s') (fresh : s.funs.length ≤ func) (extended : Extends func s s') :
    f < func ∧ Emitted S f args code labels s s' [] [] := by
  obtain ⟨body, found⟩ := draft.found
  have behind : f < func := Nat.lt_of_lt_of_le (List.getElem?_eq_some_iff.mp found).1 fresh
  refine ⟨behind, ready, (Extends.refl f s).of_new fresh extended, ?_⟩
  simpa using draft.kept extended (Nat.ne_of_lt behind)

omit [Libc] in
/-- The function a definition or a `lambda` evaluates to is pushed. -/
theorem Emitted.pushFunction {f : FRef} {args : List Symbol} {code new : List Instr}
    {labels more : List Label} {s s' : CompState Unit}
    (first : Emitted S f args code labels s s' new more) (func : FRef) :
    Emitted S f args code labels s (pushFunction ⟨f, f⟩ s' (some func))
        (new ++ [.push (some s'.data.values.length)]) more ∧
      (AkLisp.pushFunction ⟨f, f⟩ s' (some func)).data.payload s'.data.values.length =
        some (.function func) :=
  ⟨(first.newValue _).emit _, s'.data.newValue_payload_self _⟩

theorem lambda_compiles (params : List (List Chr)) (notString : ¬body.IsString)
    (inside : body.Compiles S .next) :
    ListCompiles S (.lambda params body)
      (atomLexeme SForm.lambda.text :: ((paramTokens params ++ body.tokens) ++ [closeLexeme])) := by
  intro f args code labels s draft ready
  have head := Emitted.head draft ready SForm.lambda.symbol
  obtain ⟨s₂, paramsTaken, draft₂, extended₂⟩ :=
    paramTokens_taken "lambda" params (Draft.new (s.withSymbol SForm.lambda.symbol false))
  have steady₂ := (Steady.aklNewUserFunction _).trans (.params paramsTaken)
  obtain ⟨first, others, fb, s₃, bodyE, tokens, docstring, taken, ready₃, extended₃, draft₃,
    resolves⟩ := body_compiles notString inside draft₂ (steady₂.prepared head.ready)
  obtain ⟨behind, emitted⟩ := Emitted.function head.draft ready₃ (le_refl _)
    ((Extends.aklNewUserFunction _ _).trans (extended₂.trans extended₃))
  have whole := head.trans emitted
  obtain ⟨pushed, payload⟩ :=
    whole.pushFunction (aklNewUserFunction (s.withSymbol SForm.lambda.symbol false)).1
  have later : Extends f s₃ (pushFunction ⟨f, f⟩ s₃
      (some (aklNewUserFunction (s.withSymbol SForm.lambda.symbol false)).1)) :=
    .pushFunction f s₃ _
  have draft' := later.keptBehind.draft behind draft₃
  have resolves' := resolves.later later.data body (later.keptBehind.mono behind)
  refine ⟨some (aklNewUserFunction (s.withSymbol SForm.lambda.symbol false)).1, s₃, ?_,
    fun definition => absurd trivial definition, fun pos => ?_⟩
  · rw [tokens]
    exact form_list ready.bound (ready.special _) (.lambda rfl paramsTaken docstring taken)
  · cases pos with
    | next =>
        exact ⟨.pushes [], whole, _, bodyE, 0, rfl, fun other => absurd rfl other, behind, draft₃,
          resolves⟩
    | rhs =>
        exact ⟨.lit s₃.data.values.length, pushed, _, bodyE, _, rfl, fun _ => payload, behind,
          draft', resolves'⟩
    | arg =>
        exact ⟨.lit s₃.data.values.length, pushed, _, bodyE, _, rfl, fun _ => payload, behind,
          draft', resolves'⟩

theorem defun_compiles (name : List Chr) (params : List (List Chr)) (notString : ¬body.IsString)
    (ordinary : ∀ form : SForm, form.symbol ≠ aklGetOrCreateSymbol name) (define : S.define)
    (inside : body.Compiles S .next) :
    ListCompiles S (.defun name params body)
      (atomLexeme SForm.defun.text ::
        ((atomLexeme name :: (paramTokens params ++ body.tokens)) ++ [closeLexeme])) := by
  intro f args code labels s draft ready
  have head := Emitted.head draft ready SForm.defun.symbol
  have created := Steady.aklNewUserFunction (s.withSymbol SForm.defun.symbol false)
  have draft₁ := Draft.new (s.withSymbol SForm.defun.symbol false)
  have extended₁ (g : FRef) := Extends.aklNewUserFunction g (s.withSymbol SForm.defun.symbol false)
  have fresh : (s.withSymbol SForm.defun.symbol false).funs.length ≤
      (aklNewUserFunction (s.withSymbol SForm.defun.symbol false)).1 := le_refl _
  generalize newEq : aklNewUserFunction (s.withSymbol SForm.defun.symbol false) = new at *
  obtain ⟨func, s₁⟩ := new
  have valued := Steady.newValue s₁ ⟨.function func, false, false⟩
  obtain ⟨s₂, paramsTaken, draft₂, extended₂⟩ :=
    @paramTokens_taken (aklGetOrCreateSymbol name).text func [] [] params
      (s₁.withData (s₁.data.newFunctionValue func).2) draft₁
  have read := Steady.params paramsTaken
  have function : s₂.data.function? s₁.data.values.length = some func := by
    rw [read.function? (by simp [CompState.withData, Data.newFunctionValue])]
    simp [CompState.withData, Data.newFunctionValue, Data.function?, Data.newValue_payload_self]
  have ready₂ := ((created.trans valued).trans read).prepared head.ready
  obtain ⟨funBody, found⟩ := draft₂.found
  have noted := head.ready.new define (aklGetOrCreateSymbol name) func fresh
  have ready₃ := ready₂.bindFunction ordinary function ⟨_, found⟩ noted
  have draft₃ : Draft (bindFunction s₂ (aklGetOrCreateSymbol name) s₁.data.values.length).funs func
      (params.map aklGetOrCreateSymbol) [] [] := draft₂
  obtain ⟨first, others, fb, s₃, bodyE, tokens, docstring, taken, ready₄, extended₃, draft₄,
    resolves⟩ := body_compiles notString inside draft₃ ready₃
  have bound := Extends.withData func s₂ (s₂.data.keeps_aklSetGlobalVar
    (aklGetOrCreateSymbol name) s₁.data.values.length s₂.data.existing)
  have extended : Extends func (s.withSymbol SForm.defun.symbol false) s₃ :=
    (extended₁ func).trans ((Extends.newValue func s₁ ⟨.function func, false, false⟩).trans
      (extended₂.trans (bound.trans extended₃)))
  obtain ⟨behind, emitted⟩ := Emitted.function head.draft ready₄ fresh extended
  have named := ((head.trans emitted).newValue
    ⟨.symbol (aklGetOrCreateSymbol name), false, false⟩).emit (.push (some s₃.data.values.length))
  have nameLater : Extends f s₃ (pushName ⟨f, f⟩ s₃ (aklGetOrCreateSymbol name)) :=
    (Extends.newValue f s₃ _).trans (.emit f f _ _)
  have namePayload : (pushName ⟨f, f⟩ s₃ (aklGetOrCreateSymbol name)).data.payload
      s₃.data.values.length = some (.symbol (aklGetOrCreateSymbol name)) :=
    s₃.data.newValue_payload_self _
  have draft₅ := nameLater.keptBehind.draft behind draft₄
  have resolves₅ := resolves.later nameLater.data body (nameLater.keptBehind.mono behind)
  obtain ⟨pushed, payload⟩ := named.pushFunction func
  have later : Extends f (pushName ⟨f, f⟩ s₃ (aklGetOrCreateSymbol name)) (pushFunction ⟨f, f⟩
      (pushName ⟨f, f⟩ s₃ (aklGetOrCreateSymbol name)) (some func)) := .pushFunction f _ _
  have namePayload' := later.data.payload namePayload
  have draft' := later.keptBehind.draft behind draft₅
  have resolves' := resolves₅.later later.data body (later.keptBehind.mono behind)
  refine ⟨some func, pushName ⟨f, f⟩ s₃ (aklGetOrCreateSymbol name), ?_,
    fun definition => absurd trivial definition, fun pos => ?_⟩
  · rw [tokens]
    exact form_list ready.bound (ready.special _) (.defun newEq rfl rfl paramsTaken docstring taken)
  · cases pos with
    | next =>
        exact ⟨.lit s₃.data.values.length, named, func, bodyE, _, 0, rfl, namePayload,
          fun other => absurd rfl other, behind, draft₅, resolves₅⟩
    | rhs =>
        exact ⟨.pushes [s₃.data.values.length, _], pushed, func, bodyE, _, _, rfl, namePayload',
          fun _ => payload, behind, draft', resolves'⟩
    | arg =>
        exact ⟨.pushes [s₃.data.values.length, _], pushed, func, bodyE, _, _, rfl, namePayload',
          fun _ => payload, behind, draft', resolves'⟩

end Definitions

/-! ### Every expression -/

section Every

variable [Libc] {S : Scope}

mutual

/-- A well-formed expression is compiled in every position. -/
theorem Form.WellFormed.compiles : ∀ {e : Form}, e.WellFormed S.functions →
    (e.Defines → S.define) → ∀ pos, e.Compiles S pos
  | .literal c, _, _ => literal_compiles c
  | .quoted x, _, _ => quoted_compiles x
  | .name text, _, _ => name_compiles text
  | .call _ _, ⟨called, arguments⟩, define =>
      (call_compiles called (Forms.WellFormed.compiles arguments define)).compiles rfl
  | .sif _ _ _, ⟨cond, body, other⟩, define =>
      (sif_compiles (Form.WellFormed.compiles cond (fun defines => define (.inl defines)) .next)
        (Form.WellFormed.compiles body (fun defines => define (.inr (.inl defines))) .next)
        (Form.WellFormed.compiles other
          (fun defines => define (.inr (.inr defines))) .next)).compiles
        rfl
  | .set name e, wellFormed, define =>
      have inside : e.WellFormed S.functions := wellFormed
      (set_compiles name (Form.WellFormed.compiles inside define .rhs)).compiles rfl
  | .when _ _, ⟨cond, body⟩, define =>
      (when_compiles (Form.WellFormed.compiles cond (fun defines => define (.inl defines)) .next)
        (Form.WellFormed.compiles body (fun defines => define (.inr defines)) .next)).compiles rfl
  | .swhile _ _, ⟨cond, body⟩, define =>
      (swhile_compiles (Form.WellFormed.compiles cond (fun defines => define (.inl defines)) .next)
        (Form.WellFormed.compiles body (fun defines => define (.inr defines)) .next)).compiles rfl
  | .defun name params _, ⟨ordinary, notString, inside⟩, define =>
      (defun_compiles name params notString ordinary (define trivial)
        (Form.WellFormed.compiles inside (fun _ => define trivial) .next)).compiles rfl
  | .lambda params _, ⟨notString, inside⟩, define =>
      (lambda_compiles params notString
        (Form.WellFormed.compiles inside define .next)).compiles rfl

/-- Well-formed arguments are compiled. -/
theorem Forms.WellFormed.compiles : ∀ {es : Forms}, es.WellFormed S.functions →
    (es.Defines → S.define) → es.Compiles S
  | .nil, _, _ => argsNil_compiles
  | .cons _ _, ⟨first, others⟩, define =>
      argsCons_compiles
        (Form.WellFormed.compiles first (fun defines => define (.inl defines)) .arg)
        (Forms.WellFormed.compiles others fun defines => define (.inr defines))

end

end Every

end AkLisp
