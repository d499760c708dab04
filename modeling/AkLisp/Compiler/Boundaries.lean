import AkLisp.Compiler.Sound
import AkLisp.Machine.Session
import AkLisp.Source.Form
import AkLisp.Source.Operands

/-!
# Where a form ends

A list in which every special form finds its operands is compiled up to its
closing parenthesis and no further, whatever follows it.  The names of the
special forms are those the globals are bound to; compiling keeps these
bindings, apart from the names `defun!` binds.
-/

namespace AkLisp

/-! ### The names of the special forms -/

/-- Every global variable is bound to a value that exists. -/
def Data.Bound (d : Data) : Prop :=
  ∀ sym v, d.globals sym = some v → v < d.values.length

namespace CompState

variable {σ : Type}

/-- The special form a name stands for at this moment. -/
def formName (st : CompState σ) : FormNames := fun sym =>
  ((st.data.globals sym).bind st.data.function?).bind st.sform?

/-- The name of a special form is fetched as one. -/
theorem prefetch_special {st : CompState σ} {sym : Symbol} {form : SForm}
    (special : st.formName sym = some form) :
    ∃ f, prefetchFunction st sym = (.sform, some f) ∧ st.sform? f = some form := by
  obtain ⟨f, function, formEq⟩ := Option.bind_eq_some_iff.mp special
  obtain ⟨v, bound, function⟩ := Option.bind_eq_some_iff.mp function
  refine ⟨f, ?_, formEq⟩
  simp only [prefetchFunction, bound, function]
  unfold sform? at formEq
  cases found : st.funs[f]? with
  | none => simp [found] at formEq
  | some fn => cases fn <;> simp [found] at formEq ⊢

/-- Any other name is not. -/
theorem prefetch_ordinary {st : CompState σ} {sym : Symbol} (ordinary : st.formName sym = none) :
    (prefetchFunction st sym).1 ≠ .sform := by
  unfold formName sform? at ordinary
  unfold prefetchFunction
  cases bound : st.data.globals sym with
  | none => simp
  | some v =>
      cases function : st.data.function? v with
      | none => simp [function]
      | some f =>
          cases found : st.funs[f]? with
          | none => simp [function, found]
          | some fn =>
              cases fn with
              | special form => simp [bound, function, found] at ordinary
              | cfun c => simp [function, found]
              | user u => simp [function, found]

end CompState

/-- The second state has the globals of the first one, and its values, its
functions and its special forms still. -/
structure Steady (s s' : CompState Unit) : Prop where
  globals : s'.data.globals = s.data.globals
  values : s.data.values <+: s'.data.values
  forms : ∀ f, s'.sform? f = s.sform? f
  length : s.funs.length ≤ s'.funs.length

namespace Steady

variable {s s' s'' : CompState Unit}

theorem refl (s : CompState Unit) : Steady s s := ⟨rfl, List.prefix_refl _, fun _ => rfl, le_refl _⟩

theorem trans (first : Steady s s') (second : Steady s' s'') : Steady s s'' :=
  ⟨second.globals.trans first.globals, first.values.trans second.values,
    fun f => (second.forms f).trans (first.forms f), first.length.trans second.length⟩

/-- Values that exist keep their payload. -/
theorem function? (steady : Steady s s') {v : VRef} (old : v < s.data.values.length) :
    s'.data.function? v = s.data.function? v := by
  obtain ⟨more, valuesEq⟩ := steady.values
  simp only [Data.function?, Data.payload, ← valuesEq, List.getElem?_append_left old]

theorem bound (steady : Steady s s') (bound : s.data.Bound) : s'.data.Bound := by
  intro sym v found
  rw [steady.globals] at found
  exact Nat.lt_of_lt_of_le (bound sym v found) steady.values.length_le

theorem formName (steady : Steady s s') (bound : s.data.Bound) : s'.formName = s.formName := by
  funext sym
  simp only [CompState.formName, steady.globals]
  cases found : s.data.globals sym with
  | none => rfl
  | some v =>
      simp only [Option.bind_some, steady.function? (bound sym v found)]
      cases s.data.function? v with
      | none => rfl
      | some f => exact steady.forms f

/-- A name is fetched as before. -/
theorem prefetchFunction (steady : Steady s s') (bound : s.data.Bound) (sym : Symbol) :
    prefetchFunction s' sym = prefetchFunction s sym := by
  simp only [AkLisp.prefetchFunction, steady.globals]
  cases found : s.data.globals sym with
  | none => rfl
  | some v =>
      simp only [steady.function? (bound sym v found)]
      cases s.data.function? v with
      | none => rfl
      | some f =>
          have same := steady.forms f
          simp only [CompState.sform?] at same ⊢
          generalize s'.funs[f]? = fn' at same ⊢
          generalize s.funs[f]? = fn at same ⊢
          rcases fn' with _ | (_ | _ | _) <;> rcases fn with _ | (_ | _ | _) <;> simp at same ⊢

/-- Changing a user function. -/
theorem modifyUfun (s : CompState Unit) (f : FRef) (g : LispFun → LispFun) :
    Steady s (s.modifyUfun f g) := by
  refine ⟨rfl, List.prefix_refl _, fun f' => ?_, by simp [CompState.modifyUfun]⟩
  simp only [CompState.sform?, CompState.modifyUfun, List.getElem?_modify]
  by_cases same : f = f'
  · subst same
    cases found : s.funs[f]? with
    | none => simp
    | some fn => cases fn <;> simp
  · cases found : s.funs[f']? <;> simp [same]

/-- Changing the data. -/
theorem withData (s : CompState Unit) {d : Data} (globals : d.globals = s.data.globals)
    (values : s.data.values <+: d.values) : Steady s (s.withData d) :=
  ⟨globals, values, fun _ => rfl, le_refl _⟩

theorem newValue (s : CompState Unit) (value : AklValue) :
    Steady s (s.withData (s.data.newValue value).2) :=
  withData s rfl (List.prefix_append _ _)

theorem aklRaiseError (s : CompState Unit) (level : Level) (message : String) :
    Steady s (s.aklRaiseError level message) :=
  ⟨rfl, List.prefix_refl _, fun _ => rfl, le_refl _⟩

theorem emit (cx : CompContext) (s : CompState Unit) (instr : Instr) :
    Steady s (s.emit cx instr) :=
  modifyUfun s _ _

theorem aklBuildLoad (cx : CompContext) (s : CompState Unit) (sym : Symbol) :
    Steady s (aklBuildLoad cx s sym) := by
  unfold AkLisp.aklBuildLoad
  split
  · split
    · exact emit cx s _
    · exact emit cx s _
  · exact refl s

theorem aklBuildLabel (cx : CompContext) (s : CompState Unit) (l : LabelRef) :
    Steady s (aklBuildLabel cx s l) :=
  (modifyUfun s _ _).trans (modifyUfun _ _ _)

theorem aklNewLabels (cx : CompContext) (s : CompState Unit) (n : Nat) :
    Steady s (aklNewLabels cx s n).2 :=
  modifyUfun s _ _

theorem aklNewUserFunction (s : CompState Unit) : Steady s (aklNewUserFunction s).2 := by
  refine ⟨rfl, List.prefix_refl _, fun f => ?_, by simp [AkLisp.aklNewUserFunction]⟩
  simp only [CompState.sform?, AkLisp.aklNewUserFunction]
  rcases Nat.lt_trichotomy f s.funs.length with below | rfl | above
  · rw [List.getElem?_append_left below]
  · simp
  · have beyond : (s.funs ++ [AklFunction.user default]).length ≤ f := by
      rw [List.length_append]
      exact above
    rw [List.getElem?_eq_none beyond, List.getElem?_eq_none (Nat.le_of_lt above)]

theorem compileAtom (cx : CompContext) (isQuoted : Bool) (v : VRef) (sym : Symbol)
    (s : CompState Unit) : Steady s (compileAtom cx isQuoted v sym s) := by
  cases isQuoted with
  | true => exact emit cx s _
  | false => exact aklBuildLoad cx s sym

theorem compileInner (cx : CompContext) (loc : ListLocals) (f : Option FRef)
    (s : CompState Unit) : Steady s (compileInner cx loc f s).2 := by
  cases f with
  | none => exact refl s
  | some f =>
      unfold AkLisp.compileInner
      by_cases first : loc.felem
      · simp only [first, if_true]
        exact refl s
      · simp only [first]
        exact (newValue s _).trans (emit cx _ _)

theorem compileEnd (cx : CompContext) (loc : ListLocals) (s : CompState Unit) :
    Steady s (compileEnd cx loc s).2 := by
  unfold AkLisp.compileEnd
  split
  · exact emit cx s _
  · split
    · exact refl s
    · split
      · exact ((newValue s _).trans (emit cx _ _)).trans (aklRaiseError _ _ _)
      · exact refl s

theorem pushFunction (cx : CompContext) (s : CompState Unit) (fn : Option FRef) :
    Steady s (pushFunction cx s fn) := by
  cases fn with
  | none => exact refl s
  | some f => exact (newValue s _).trans (emit cx _ _)

theorem pushName (cx : CompContext) (s : CompState Unit) (sym : Symbol) :
    Steady s (pushName cx s sym) :=
  (newValue s _).trans (emit cx _ _)

theorem paramLoop {func : FRef} {ls : List Lexeme} (params : ParamLoop func ls s s') :
    Steady s s' := by
  induction params with
  | close tok => exact refl _
  | atom tok others ih => exact (modifyUfun _ _ _).trans ih
  | skip notClose notAtom others ih => exact ih

theorem params {fname : String} {func : FRef} {ls : List Lexeme}
    (params : Params fname func ls s s') : Steady s s' := by
  cases params with
  | empty tok => exact refl _
  | list tok others => exact paramLoop others
  | missing notNil notList => exact aklRaiseError _ _ _

end Steady

/-! ### Data behind a quote -/

theorem leaf_of_isLeaf [Libc] {l : Lexeme} (isLeaf : l.tok.isLeaf = true) :
    ∃ leaf, l.leaf? = some leaf := by
  unfold Lexeme.leaf?
  cases tokEq : l.tok <;> simp [tokEq, Token.isLeaf] at isLeaf ⊢

theorem collect_values (d : Data) (list : LRef) (v : VRef) :
    (d.collect list v).values = d.values := by
  simp only [Data.collect, Data.listAppendValue, reparent]
  split <;> rfl

/-- Data are read. -/
theorem DataTokens.reads [Libc] {ls : List Lexeme} (tokens : DataTokens ls) (list : LRef)
    (d : Data) :
    ∃ d', ReadsList ls list d d' ∧ d'.globals = d.globals ∧ d.values <+: d'.values := by
  induction tokens generalizing list d with
  | close mark tok => exact ⟨_, .close mark tok, rfl, List.prefix_refl _⟩
  | leaf mark leaf others ih =>
      obtain ⟨leaf, leafEq⟩ := leaf_of_isLeaf leaf
      obtain ⟨d', reads, globals, values⟩ := ih list _
      refine ⟨d', .leaf mark leafEq reads, ?_, ?_⟩
      · rw [globals, collect_globals]
        rfl
      · rw [collect_values] at values
        exact (List.prefix_append _ _).trans values
  | inner mark tok inside others ihInside ihOthers =>
      obtain ⟨d₁, reads₁, globals₁, values₁⟩ := ihInside d.newList.1 d.newList.2
      obtain ⟨d', reads, globals, values⟩ := ihOthers list _
      refine ⟨d', .inner mark tok reads₁ reads, ?_, ?_⟩
      · rw [globals, collect_globals]
        exact globals₁
      · rw [collect_values] at values
        exact values₁.trans ((List.prefix_append _ _).trans values)

theorem DatumTokens.reads [Libc] {ls : List Lexeme} (tokens : DatumTokens ls) (b : Bool)
    (d : Data) :
    ∃ v d', ReadsValue ls b d v d' ∧ d'.globals = d.globals ∧ d.values <+: d'.values := by
  cases tokens with
  | leaf leaf =>
      obtain ⟨leaf, leafEq⟩ := leaf_of_isLeaf leaf
      exact ⟨_, _, .leaf leafEq, rfl, List.prefix_append _ _⟩
  | list tok inside =>
      obtain ⟨d', reads, globals, values⟩ := inside.reads d.newList.1 d.newList.2
      exact ⟨_, _, .list tok reads, globals, values.trans (List.prefix_append _ _)⟩

/-! ### Parameter lists -/

theorem Token.ne_of_isPlain {tok : Token} (plain : tok.isPlain = true) :
    tok ≠ .tLBRACE ∧ tok ≠ .tRBRACE ∧ tok ≠ .tEOF := by
  cases tok <;> simp [Token.isPlain, Token.isLeaf] at plain ⊢

theorem paramLoop_of_plain {items : List Lexeme} {r : Lexeme}
    (plain : ∀ i ∈ items, i.tok.isPlain = true) (close : r.tok = .tRBRACE) (func : FRef)
    (s : CompState Unit) : ∃ s', ParamLoop func (items ++ [r]) s s' := by
  induction items generalizing s with
  | nil => exact ⟨s, .close close⟩
  | cons l items ih =>
      have others := fun s => ih (fun i mem => plain i (List.mem_cons_of_mem l mem)) s
      by_cases atom : l.tok = .tATOM
      · obtain ⟨s', loop⟩ := others (s.addArg func (aklGetOrCreateSymbol l.text))
        exact ⟨s', .atom atom loop⟩
      · obtain ⟨s', loop⟩ := others s
        have notClose := (Token.ne_of_isPlain (plain l List.mem_cons_self)).2.1
        exact ⟨s', .skip notClose atom loop⟩

/-- The tokens are those `akl_parse_params` takes, from any state. -/
def ParamsTaken (tp : List Lexeme) : Prop :=
  ∀ (fname : String) (func : FRef) (s : CompState Unit), ∃ s', Params fname func tp s s'

/-- A parameter list is read. -/
theorem ParamTokens.taken {tp : List Lexeme} (tokens : ParamTokens tp) : ParamsTaken tp := by
  intro fname func s
  cases tokens with
  | @single l plain =>
      by_cases empty : l.tok = .tNIL
      · exact ⟨s, .empty empty⟩
      · exact ⟨_, .missing empty (Token.ne_of_isPlain plain).1⟩
  | list tok plain close =>
      obtain ⟨s', loop⟩ := paramLoop_of_plain plain close func s
      exact ⟨s', .list tok loop⟩

/-! ### Reading a list -/

/-- The special forms of a state are known, and its globals refer to values. -/
structure CompState.Knows (s : CompState Unit) (n : FormNames) : Prop where
  bound : s.data.Bound
  names : s.formName = n

theorem Steady.knows {s s' : CompState Unit} {n : FormNames} (steady : Steady s s')
    (knows : s.Knows n) : s'.Knows n :=
  ⟨steady.bound knows.bound, (steady.formName knows.bound).trans knows.names⟩

/-- `defun!` binds a name to a function that is not a special form. -/
theorem CompState.Knows.bindFunction {s : CompState Unit} {n : FormNames} (knows : s.Knows n)
    (sym : Symbol) {v : VRef} {func : FRef} (function : s.data.function? v = some func)
    (ordinary : s.sform? func = none) :
    (bindFunction s sym v).Knows (Function.update n sym none) := by
  have old : v < s.data.values.length := by
    by_contra outside
    simp [Data.function?, Data.payload,
      List.getElem?_eq_none (Nat.le_of_not_lt outside)] at function
  constructor
  · intro sym' v' found
    by_cases same : sym' = sym
    · subst same
      have equal : v = v' := by
        simpa [AkLisp.bindFunction, CompState.withData, Data.aklSetGlobalVar] using found
      exact equal ▸ old
    · refine knows.bound sym' v' ?_
      simpa [AkLisp.bindFunction, CompState.withData, Data.aklSetGlobalVar, same] using found
  · rw [← knows.names]
    funext sym'
    by_cases same : sym' = sym
    · subst same
      have bound : (AkLisp.bindFunction s sym' v).data.globals sym' = some v := by
        simp [AkLisp.bindFunction, CompState.withData, Data.aklSetGlobalVar]
      have function' : (AkLisp.bindFunction s sym' v).data.function? v = some func := function
      have ordinary' : (AkLisp.bindFunction s sym' v).sform? func = none := ordinary
      simp [CompState.formName, bound, function', ordinary']
    · rw [Function.update_of_ne same]
      have other : (AkLisp.bindFunction s sym v).data.globals sym' = s.data.globals sym' := by
        simp [AkLisp.bindFunction, CompState.withData, Data.aklSetGlobalVar, same]
      simp only [CompState.formName, other]
      rfl

/-- The tokens are those the compiler takes for a part of the code, from any
state with the special forms `n` to one with the special forms `n'`. -/
def Taken [Libc] (ts : List Lexeme) (n n' : FormNames) : CodePart → Prop
  | .operand => ∀ cx (s : CompState Unit), s.Knows n →
      ∃ fn s', Translates (.next cx) ts s fn s' ∧ s'.Knows n'
  | .items atHead => ∀ cx loc (s : CompState Unit), loc.felem = atHead → s.Knows n →
      ∃ fn s', Translates (.loop cx loc) ts s fn s' ∧ s'.Knows n'
  | .operands form => ∀ cx (s : CompState Unit), s.Knows n →
      ∃ fn s', Translates (.form cx form) ts s fn s' ∧ s'.Knows n'

section Cases

variable [Libc] {n n₁ n₂ n' : FormNames} {q tc ta tb ts ls ms items : List Lexeme} {b : Bool}
  {l : Lexeme} {atHead : Bool}

theorem taken_headForm {form : SForm} (mark : QuoteMark q b) (tok : l.tok = .tATOM)
    (special : n (aklGetOrCreateSymbol l.text) = some form)
    (operands : Taken ms n n₁ (.operands form)) (others : Taken ls n₁ n' (.items false)) :
    Taken (q ++ l :: (ms ++ ls)) n n' (.items true) := by
  intro cx loc s first knows
  have steady : Steady s (s.withSymbol (aklGetOrCreateSymbol l.text) b) := .newValue s _
  have knows₁ := steady.knows knows
  obtain ⟨f, fetched, formEq⟩ := CompState.prefetch_special
    ((congrFun knows₁.names _).trans special)
  obtain ⟨fun_, s₁, form, knows₂⟩ := operands cx _ knows₁
  obtain ⟨fn, s', loop, knows'⟩ :=
    others cx { loc with pfSt := .sform, fun_, felem := false } s₁ rfl knows₂
  exact ⟨fn, s', .headForm mark first tok rfl fetched formEq form loop, knows'⟩

omit [Libc] in
/-- The name of a special form keeps its meaning behind the value of the head. -/
theorem formName_withSymbol {s : CompState Unit} (bound : s.data.Bound) (sym : Symbol)
    (b : Bool) : (s.withSymbol sym b).formName = s.formName :=
  (Steady.newValue s _).formName bound

/-- A list with a special form at its head evaluates to what the form returns. -/
theorem form_list {cx : CompContext} {form : SForm} {s s₁ : CompState Unit} {fn : Option FRef}
    (bound : s.data.Bound) (special : s.formName form.symbol = some form)
    (operands : Translates (.form cx form) ms (s.withSymbol form.symbol false) fn s₁) :
    Translates (.loop cx .init) (atomLexeme form.text :: (ms ++ [closeLexeme])) s fn s₁ := by
  rw [← formName_withSymbol bound form.symbol false] at special
  obtain ⟨g, fetched, formEq⟩ := CompState.prefetch_special special
  have closed : Translates (.loop cx ⟨.sform, 0, false, fn, none⟩) [closeLexeme] s₁ fn s₁ := by
    have close := @Translates.close _ cx ⟨.sform, 0, false, fn, none⟩ [] false closeLexeme s₁
      .plain rfl
    cases fn with
    | none => exact close
    | some g => exact close
  exact .headForm .plain rfl rfl rfl fetched formEq operands closed

theorem taken_headName (mark : QuoteMark q b) (tok : l.tok = .tATOM)
    (ordinary : n (aklGetOrCreateSymbol l.text) = none) (others : Taken ls n n' (.items false)) :
    Taken (q ++ l :: ls) n n' (.items true) := by
  intro cx loc s first knows
  have steady : Steady s (s.withSymbol (aklGetOrCreateSymbol l.text) b) := .newValue s _
  have knows₁ := steady.knows knows
  have notForm := CompState.prefetch_ordinary ((congrFun knows₁.names _).trans ordinary)
  obtain ⟨⟨pfSt, fun_⟩, fetched⟩ : ∃ r, prefetchFunction
    (s.withSymbol (aklGetOrCreateSymbol l.text) b) (aklGetOrCreateSymbol l.text) = r := ⟨_, rfl⟩
  rw [fetched] at notForm
  have named (callable : pfSt = .normal ∨ pfSt = .notFound) :
      ∃ fn s', Translates (.loop cx loc) (q ++ l :: ls) s fn s' ∧ s'.Knows n' := by
    obtain ⟨fn, s', loop, knows'⟩ := others cx
      { loc with pfSt, fun_, felem := false, sym := some (aklGetOrCreateSymbol l.text) } _ rfl
      knows₁
    exact ⟨fn, s', .headName mark first tok rfl fetched callable loop, knows'⟩
  cases pfSt with
  | sform => exact absurd rfl notForm
  | normal => exact named (.inl rfl)
  | notFound => exact named (.inr rfl)
  | notFn =>
      obtain ⟨fn, s', loop, knows'⟩ :=
        others cx { loc with pfSt := .notFn, fun_, felem := false } _ rfl knows₁
      exact ⟨fn, s', .headOther mark first tok rfl fetched loop, knows'⟩

theorem taken_itemLeaf (mark : QuoteMark q b) (leaf : l.tok.isLeaf = true)
    (notHead : atHead = true → l.tok ≠ .tATOM) (others : Taken ls n n' (.items false)) :
    Taken (q ++ l :: ls) n n' (.items atHead) := by
  intro cx loc s first knows
  by_cases atom : l.tok = .tATOM
  · cases atHead with
    | true => exact absurd atom (notHead rfl)
    | false =>
        have steady := (Steady.newValue s ⟨.symbol (aklGetOrCreateSymbol l.text), b, false⟩).trans
          (.compileAtom cx b s.data.values.length (aklGetOrCreateSymbol l.text) _)
        obtain ⟨fn, s', loop, knows'⟩ := others cx loc.countArg _ rfl (steady.knows knows)
        exact ⟨fn, s', .atom mark first atom rfl loop, knows'⟩
  · obtain ⟨leaf, leafEq⟩ := leaf_of_isLeaf leaf
    have steady := (Steady.newValue s (leafValue leaf true)).trans
      (.emit cx _ (.push (some s.data.values.length)))
    obtain ⟨fn, s', loop, knows'⟩ := others cx loc.countArg _ rfl (steady.knows knows)
    exact ⟨fn, s', .leaf mark leafEq atom loop, knows'⟩

theorem taken_itemQuoted {quote : Lexeme} (mark : quote.tok = .tQUOTE) (tok : l.tok = .tLBRACE)
    (inside : DataTokens items) (others : Taken ls n n' (.items false)) :
    Taken (quote :: l :: (items ++ ls)) n n' (.items atHead) := by
  intro cx loc s first knows
  obtain ⟨v, d', reads, globals, values⟩ := (DatumTokens.list tok inside).reads true s.data
  have steady := (Steady.withData s globals values).trans (.emit cx _ (.push (some v)))
  obtain ⟨fn, s', loop, knows'⟩ := others cx loc.countArg _ rfl (steady.knows knows)
  exact ⟨fn, s', .quotedList mark tok reads loop, knows'⟩

theorem taken_itemList (tok : l.tok = .tLBRACE) (inside : Taken items n n₁ (.items true))
    (others : Taken ls n₁ n' (.items false)) :
    Taken (l :: (items ++ ls)) n n' (.items atHead) := by
  intro cx loc s first knows
  obtain ⟨f, s₁, inner, knows₁⟩ := inside cx .init s rfl knows
  have notHead : (compileInner cx loc f s₁).1.felem = false := by
    unfold compileInner
    cases f with
    | none => rfl
    | some f => by_cases head : loc.felem <;> simp [head, ListLocals.countArg]
  obtain ⟨fn, s', loop, knows'⟩ := others cx (compileInner cx loc f s₁).1 _ notHead
    ((Steady.compileInner cx loc f s₁).knows knows₁)
  exact ⟨fn, s', .inner tok inner loop, knows'⟩

theorem taken_when (cond : Taken tc n n₁ .operand) (body : Taken ta n₁ n' .operand) :
    Taken (tc ++ ta) n n' (.operands .when) := by
  intro cx s knows
  obtain ⟨fc, s₂, condTaken, knows₂⟩ := cond cx _ ((Steady.aklNewLabels cx s 1).knows knows)
  obtain ⟨fa, s₃, bodyTaken, knows₃⟩ := body cx _ ((Steady.emit cx s₂ _).knows knows₂)
  exact ⟨_, _, .when rfl condTaken bodyTaken, (Steady.aklBuildLabel cx s₃ _).knows knows₃⟩

theorem taken_swhile (cond : Taken tc n n₁ .operand) (body : Taken ta n₁ n' .operand) :
    Taken (tc ++ ta) n n' (.operands .swhile) := by
  intro cx s knows
  obtain ⟨fc, s₂, condTaken, knows₂⟩ := cond cx _
    (((Steady.aklNewLabels cx s 2).trans (.aklBuildLabel cx _ _)).knows knows)
  obtain ⟨fa, s₃, bodyTaken, knows₃⟩ := body cx _ ((Steady.emit cx s₂ _).knows knows₂)
  exact ⟨_, _, .swhile rfl condTaken bodyTaken,
    ((Steady.emit cx s₃ _).trans (.aklBuildLabel cx _ _)).knows knows₃⟩

theorem taken_sif (cond : Taken tc n n₁ .operand) (body : Taken ta n₁ n₂ .operand)
    (other : Taken tb n₂ n' .operand) : Taken (tc ++ (ta ++ tb)) n n' (.operands .sif) := by
  intro cx s knows
  obtain ⟨fc, s₂, condTaken, knows₂⟩ := cond cx _ ((Steady.aklNewLabels cx s 2).knows knows)
  obtain ⟨fa, s₃, bodyTaken, knows₃⟩ := body cx _ ((Steady.emit cx s₂ _).knows knows₂)
  obtain ⟨fb, s₄, otherTaken, knows₄⟩ := other cx _
    (((Steady.emit cx s₃ _).trans (.aklBuildLabel cx _ _)).knows knows₃)
  exact ⟨_, _, .sif rfl condTaken bodyTaken otherTaken,
    (Steady.aklBuildLabel cx s₄ _).knows knows₄⟩

theorem taken_set (tok : l.tok = .tATOM) (rhs : Taken ts n n' .operand) :
    Taken (l :: ts) n n' (.operands .set) := by
  intro cx s knows
  obtain ⟨fn, s₁, rhsTaken, knows₁⟩ := rhs cx s knows
  exact ⟨_, _, .set tok rhsTaken,
    ((Steady.pushFunction cx s₁ fn).trans (.emit cx _ _)).knows knows₁⟩

theorem taken_setOther (notAtom : l.tok ≠ .tATOM) : Taken [l] n n (.operands .set) := by
  intro cx s knows
  exact ⟨_, _, .setOther notAtom, (Steady.aklRaiseError s _ _).knows knows⟩

theorem taken_defunOther (notAtom : l.tok ≠ .tATOM) : Taken [l] n n (.operands .defun) := by
  intro cx s knows
  exact ⟨_, _, .defunOther rfl notAtom, (((Steady.aklNewUserFunction s).trans
    (.newValue _ _)).trans (.aklRaiseError _ _ _)).knows knows⟩

theorem taken_lambda {tp doc : List Lexeme} {first : Lexeme} (params : ParamsTaken tp)
    (docstring : Docstring doc first) (body : Taken (first :: tb) n n' .operand) :
    Taken (tp ++ (doc ++ first :: tb)) n n' (.operands .lambda) := by
  intro cx s knows
  obtain ⟨s₂, paramsTaken⟩ := params "lambda" s.funs.length (aklNewUserFunction s).2
  have steady := (Steady.aklNewUserFunction s).trans (.params paramsTaken)
  obtain ⟨fb, s₃, bodyTaken, knows₃⟩ := body ⟨s.funs.length, s.funs.length⟩ s₂ (steady.knows knows)
  exact ⟨_, _, .lambda rfl paramsTaken docstring bodyTaken, knows₃⟩

omit [Libc] in
/-- The name of a definition is bound behind its parameters. -/
theorem CompState.Knows.define {s s₁ s₂ : CompState Unit} {func : FRef} {fname : String}
    {tp : List Lexeme} (knows : s.Knows n) (new : aklNewUserFunction s = (func, s₁))
    (params : Params fname func tp (s₁.withData (s₁.data.newFunctionValue func).2) s₂)
    (sym : Symbol) :
    (AkLisp.bindFunction s₂ sym (s₁.data.newFunctionValue func).1).Knows
      (Function.update n sym none) := by
  have created := Steady.aklNewUserFunction s
  rw [new] at created
  have fresh : s₁.sform? func = none := by
    cases new
    simp [CompState.sform?]
  have valued := Steady.newValue s₁ ⟨.function func, false, false⟩
  have read := Steady.params params
  have function : s₂.data.function? s₁.data.values.length = some func := by
    rw [read.function? (by simp [CompState.withData, Data.newFunctionValue])]
    simp [CompState.withData, Data.newFunctionValue, Data.function?, Data.newValue_payload_self]
  have ordinary : s₂.sform? func = none := by
    rw [read.forms]
    exact fresh
  exact (((created.trans valued).trans read).knows knows).bindFunction sym function ordinary

theorem taken_defun {tp doc : List Lexeme} {first : Lexeme} (tok : l.tok = .tATOM)
    (params : ParamsTaken tp) (docstring : Docstring doc first)
    (body : Taken (first :: tb) (Function.update n (aklGetOrCreateSymbol l.text) none) n'
      .operand) :
    Taken (l :: (tp ++ (doc ++ first :: tb))) n n' (.operands .defun) := by
  intro cx s knows
  obtain ⟨s₂, paramsTaken⟩ := params (aklGetOrCreateSymbol l.text).text s.funs.length
    ((aklNewUserFunction s).2.withData
      ((aklNewUserFunction s).2.data.newFunctionValue s.funs.length).2)
  have knows₂ := knows.define rfl paramsTaken (aklGetOrCreateSymbol l.text)
  obtain ⟨fb, s₃, bodyTaken, knows₃⟩ := body ⟨s.funs.length, s.funs.length⟩ _ knows₂
  exact ⟨_, _, .defun rfl tok rfl paramsTaken docstring bodyTaken,
    (Steady.pushName cx s₃ _).knows knows₃⟩

end Cases

/-- The body behind a documentation string or none is not the end of the input. -/
theorem HasOperands.docstring {doc tb : List Lexeme} {first : Lexeme} {n n' : FormNames}
    (docTokens : DocTokens doc first) (body : HasOperands .operand (first :: tb) n n') :
    Docstring doc first := by
  cases docTokens with
  | present tok plain => exact .present tok
  | absent notString =>
      refine .absent notString fun ended => ?_
      cases body with
      | leaf leaf => simp [ended, Token.isLeaf] at leaf
      | quoted tok => simp [ended] at tok
      | list tok => simp [ended] at tok

/-- A part of the code in which every special form finds its operands is taken
by the compiler. -/
theorem HasOperands.taken [Libc] {part : CodePart} {ts : List Lexeme} {n n' : FormNames}
    (hasOperands : HasOperands part ts n n') : Taken ts n n' part := by
  induction hasOperands with
  | leaf leaf =>
      intro cx s knows
      obtain ⟨leaf, leafEq⟩ := leaf_of_isLeaf leaf
      exact ⟨_, _, .nextLeaf leafEq, ((Steady.newValue s _).trans (.emit cx _ _)).knows knows⟩
  | @quoted q ls n tok datum =>
      intro cx s knows
      obtain ⟨v, d', reads, globals, values⟩ := datum.reads true s.data
      have steady := (Steady.withData s globals values).trans (.emit cx _ (.push (some v)))
      cases datum with
      | leaf leaf => exact ⟨_, _, .nextQuoted tok reads, steady.knows knows⟩
      | list open_ inside => exact ⟨_, _, .nextQuoted tok reads, steady.knows knows⟩
  | list tok inside ih =>
      intro cx s knows
      obtain ⟨fn, s', loop, knows'⟩ := ih cx .init s rfl knows
      exact ⟨fn, s', .nextList tok loop, knows'⟩
  | close mark tok =>
      intro cx loc s first knows
      exact ⟨_, _, .close mark tok, (Steady.compileEnd cx loc s).knows knows⟩
  | headForm mark tok special operands others ihOperands ih =>
      exact taken_headForm mark tok special ihOperands ih
  | headName mark tok ordinary others ih => exact taken_headName mark tok ordinary ih
  | itemLeaf mark leaf notHead others ih => exact taken_itemLeaf mark leaf notHead ih
  | itemQuoted mark tok inside others ih => exact taken_itemQuoted mark tok inside ih
  | itemList tok inside others ihInside ih => exact taken_itemList tok ihInside ih
  | sif cond body other ihCond ihBody ihOther => exact taken_sif ihCond ihBody ihOther
  | «when» cond body ihCond ihBody => exact taken_when ihCond ihBody
  | swhile cond body ihCond ihBody => exact taken_swhile ihCond ihBody
  | set tok rhs ih => exact taken_set tok ih
  | setOther plain notAtom => exact taken_setOther notAtom
  | lambda params docTokens body ih => exact taken_lambda params.taken (body.docstring docTokens) ih
  | defun tok params docTokens body ih =>
      exact taken_defun tok params.taken (body.docstring docTokens) ih
  | defunOther plain notAtom => exact taken_defunOther notAtom

/-! ### Lists that end too early -/

/-- `NIL`, as an operand. -/
def nilLexeme : Lexeme := ⟨.tNIL, []⟩

section Short

variable [Libc] {n n' : FormNames} {r : Lexeme}

theorem taken_nil : Taken [nilLexeme] n n .operand :=
  (HasOperands.leaf rfl).taken

/-- A closing parenthesis is taken for an operand. -/
theorem taken_close (close : r.tok = .tRBRACE) : Taken [r] n n .operand := by
  intro cx s knows
  exact ⟨_, _, .nextClose close, (Steady.emit cx s _).knows knows⟩

/-- Where the body of a function is missing, the closing parenthesis is taken for
a part of the function, with a `NIL` behind it if it is not the body. -/
theorem LacksBody.taken {ts : List Lexeme} (lacks : LacksBody ts) (close : r.tok = .tRBRACE) :
    ∃ pad tp doc first, ts ++ r :: pad = tp ++ (doc ++ [first]) ∧ ParamsTaken tp ∧
      Docstring doc first ∧ ∀ n : FormNames, Taken [first] n n .operand := by
  cases lacks with
  | params =>
      refine ⟨[nilLexeme], [r], [], nilLexeme, rfl, ?_, .absent (by decide) (by decide),
        fun n => taken_nil⟩
      intro fname func s
      exact ⟨_, .missing (by simp [close]) (by simp [close])⟩
  | body params =>
      exact ⟨[], ts, [], r, rfl, params.taken, .absent (by simp [close]) (by simp [close]),
        fun n => taken_close close⟩
  | @dropped tp str params tok =>
      exact ⟨[nilLexeme], tp, [str, r], nilLexeme, by simp, params.taken, .present tok,
        fun n => taken_nil⟩
  | @docstring tp str dropped params tok plain =>
      exact ⟨[], tp, [str, dropped], r, by simp, params.taken, .present tok,
        fun n => taken_close close⟩

/-- A special form that lacks an operand takes the closing parenthesis and some
tokens behind it. -/
theorem LacksOperand.taken {form : SForm} {ts : List Lexeme} (lacks : LacksOperand form ts n n')
    (close : r.tok = .tRBRACE) :
    ∃ pad n'', Taken (ts ++ r :: pad) n n'' (.operands form) := by
  have notAtom : r.tok ≠ .tATOM := by simp [close]
  cases lacks with
  | first =>
      cases form with
      | sif => exact ⟨[nilLexeme, nilLexeme], n, taken_sif (taken_close close) taken_nil taken_nil⟩
      | «when» =>
          have taken : Taken ([r] ++ [nilLexeme]) n n (.operands .when) :=
            taken_when (taken_close close) taken_nil
          exact ⟨[nilLexeme], n, taken⟩
      | swhile =>
          have taken : Taken ([r] ++ [nilLexeme]) n n (.operands .swhile) :=
            taken_swhile (taken_close close) taken_nil
          exact ⟨[nilLexeme], n, taken⟩
      | set => exact ⟨[], n, taken_setOther notAtom⟩
      | defun => exact ⟨[], n, taken_defunOther notAtom⟩
      | lambda =>
          obtain ⟨pad, tp, doc, first, equal, params, docstring, body⟩ :=
            LacksBody.params.taken close
          exact ⟨pad, n, by rw [equal]; exact taken_lambda params docstring (body n)⟩
  | sifSecond cond =>
      exact ⟨[nilLexeme], n', taken_sif cond.taken (taken_close close) taken_nil⟩
  | sifThird cond body =>
      refine ⟨[], n', ?_⟩
      rw [List.append_assoc]
      exact taken_sif cond.taken body.taken (taken_close close)
  | «when» cond => exact ⟨[], n', taken_when cond.taken (taken_close close)⟩
  | swhile cond => exact ⟨[], n', taken_swhile cond.taken (taken_close close)⟩
  | set tok => exact ⟨[], n, taken_set tok (taken_close close)⟩
  | lambda lacks =>
      obtain ⟨pad, tp, doc, first, equal, params, docstring, body⟩ := lacks.taken close
      exact ⟨pad, n, by rw [equal]; exact taken_lambda params docstring (body n)⟩
  | @defun l ts n tok lacks =>
      obtain ⟨pad, tp, doc, first, equal, params, docstring, body⟩ := lacks.taken close
      refine ⟨pad, Function.update n (aklGetOrCreateSymbol l.text) none, ?_⟩
      rw [List.cons_append, equal]
      exact taken_defun tok params docstring (body _)

end Short

/-! ### The end of a form -/

/-- `akl_compile_list` behind the opening parenthesis of a form takes the tokens
up to the closing one and no others, and compiles them in the same way, whatever
follows. -/
def EndsForm {σ : Type} [TokenSource σ] [Libc] (D : Delivery σ) (cx : CompContext)
    (s : CompState Unit) (form : List Lexeme) : Prop :=
  ∃ (fn : Option FRef) (s' : CompState Unit),
    ∀ fuel rest dev, form.length ≤ fuel → D.Ready (form ++ rest) dev →
    ∃ dev', aklCompileList fuel cx (s.withDev dev) = .ok (fn, s'.withDev dev') ∧
      D.Ready rest dev'

/-- A list of tokens is ready to be delivered. -/
theorem TokStream.ready_ofList (ls : List Lexeme) : tokStreamDelivery.Ready ls (.ofList ls) :=
  ⟨rfl, rfl⟩

section Ends

variable [Libc] {cx : CompContext} {s : CompState Unit} {form : List Lexeme} {n' : FormNames}

/-- A form in which every special form has its operands ends where it should. -/
theorem HasOperands.endsForm {σ : Type} [TokenSource σ] (D : Delivery σ) (bound : s.data.Bound)
    (hasOperands : HasOperands (.items true) form s.formName n') : EndsForm D cx s form := by
  obtain ⟨fn, s', translates, -⟩ := hasOperands.taken cx .init s rfl ⟨bound, rfl⟩
  exact ⟨fn, s', translates.sound⟩

/-- A form that comes short reads on behind its closing parenthesis. -/
theorem ComesShort.not_endsForm (bound : s.data.Bound) (short : ComesShort form s.formName) :
    ¬EndsForm tokStreamDelivery cx s form := by
  rintro ⟨fn, s', ends⟩
  cases short with
  | @form q b l form ts r n n' mark tok special lacks close =>
      obtain ⟨pad, n'', taken⟩ := lacks.taken close
      have closed : Taken [r] n'' n'' (.items false) := by
        intro cx loc s first knows
        exact ⟨_, _, .close .plain close, (Steady.compileEnd cx loc s).knows knows⟩
      obtain ⟨fn₁, s₁, translates, -⟩ :=
        taken_headForm mark tok special taken closed cx .init s rfl ⟨bound, rfl⟩
      have textEq : q ++ l :: ((ts ++ r :: pad) ++ [r]) =
          (q ++ l :: (ts ++ [r])) ++ (pad ++ [r]) := by simp
      rw [textEq] at translates
      have ready₀ := TokStream.ready_ofList ((q ++ l :: (ts ++ [r])) ++ (pad ++ [r]))
      have compiled := translates.sound (D := tokStreamDelivery)
      obtain ⟨dev₁, run₁, ready₁⟩ := compiled _ [] _ (le_refl _)
        (by rw [List.append_nil]; exact ready₀)
      obtain ⟨dev', run, ready⟩ := ends ((q ++ l :: (ts ++ [r])) ++ (pad ++ [r])).length
        (pad ++ [r]) _ (by simp) ready₀
      have devEq : dev' = dev₁ := by
        have equal := run.symm.trans run₁
        injection equal with equal
        exact congrArg (fun result => CompState.dev result.2) equal
      rw [devEq] at ready
      have restEq := ready.1.symm.trans ready₁.1
      simp at restEq

/-- A form in which every special form has its operands is read up to its closing
parenthesis from any source, and a form that comes short is not. -/
theorem form_boundaries {σ : Type} [TokenSource σ] (D : Delivery σ) (bound : s.data.Bound) :
    ((∃ n', HasOperands (.items true) form s.formName n') → EndsForm D cx s form) ∧
      (ComesShort form s.formName → ¬EndsForm tokStreamDelivery cx s form) := by
  constructor
  · rintro ⟨n', hasOperands⟩
    exact hasOperands.endsForm D bound
  · intro short
    exact short.not_endsForm bound

end Ends

/-- Registering a function binds its name to a value that exists. -/
theorem Data.Bound.registered {d : Data} (bound : d.Bound) (f : FRef) (name : Symbol) :
    ((d.newFunctionValue f).2.aklSetGlobalVar name (d.newFunctionValue f).1).Bound := by
  intro sym v found
  simp only [newFunctionValue, newValue, aklSetGlobalVar, List.length_append,
    List.length_singleton] at found ⊢
  by_cases same : sym = name
  · simp only [same, Function.update_self, Option.some.injEq] at found
    exact found ▸ Nat.lt_succ_self _
  · rw [Function.update_of_ne same] at found
    exact Nat.lt_succ_of_lt (bound sym v found)

theorem Machine.aklAddGlobalSfun_bound {m : Machine} (bound : m.data.Bound) (name : String)
    (form : SForm) : (m.aklAddGlobalSfun name form).data.Bound :=
  bound.registered _ _

theorem Machine.init_bound : Machine.init.data.Bound := by
  have registered (decls : List (String × SForm)) (m : Machine) (bound : m.data.Bound) :
      (decls.foldl (fun m decl => m.aklAddGlobalSfun decl.1 decl.2) m).data.Bound := by
    induction decls generalizing m with
    | nil => exact bound
    | cons decl decls ih => exact ih _ (aklAddGlobalSfun_bound bound decl.1 decl.2)
  apply registered
  intro sym v found
  cases found

/-- A new interpreter that compiles its first function. -/
def firstState : CompState Unit :=
  ⟨(), Machine.init.data, Machine.init.funs ++ [.user default], []⟩

/-- The context of this function. -/
def firstContext : CompContext := ⟨Machine.init.funs.length, Machine.init.funs.length⟩

/-- The tokens of `if`, of some `T` and of the closing parenthesis. -/
def ifTokens (operands : Nat) : List Lexeme :=
  atomLexeme SForm.sif.text :: (List.replicate operands ⟨.tTRUE, []⟩ ++ [closeLexeme])

theorem if_special : firstState.formName SForm.sif.symbol = some .sif := by
  decide +kernel

theorem form_boundaries_if :
    @EndsForm TokStream _ decimalLibc tokStreamDelivery firstContext firstState (ifTokens 3) ∧
      ¬@EndsForm TokStream _ decimalLibc tokStreamDelivery firstContext firstState
        (ifTokens 1) := by
  let libc := decimalLibc
  have operand (n : FormNames) : HasOperands .operand [⟨.tTRUE, []⟩] n n := .leaf rfl
  constructor
  · exact (form_boundaries tokStreamDelivery Machine.init_bound).1 ⟨_, .headForm .plain rfl
      if_special (.sif (operand _) (operand _) (operand _)) (.close .plain rfl)⟩
  · exact (form_boundaries tokStreamDelivery Machine.init_bound).2
      (.form .plain rfl if_special (.sifSecond (operand _)) rfl)

/-- `(if T)` takes its closing parenthesis and the expression behind it for operands. -/
theorem if_reads_on :
    ¬@EndsForm TokStream _ decimalLibc tokStreamDelivery firstContext firstState
      (ifTokens 1) := by
  rintro ⟨fn, s', ends⟩
  obtain ⟨dev', run, ready⟩ := ends 4 [⟨.tTRUE, []⟩]
    (.ofList (ifTokens 1 ++ [⟨.tTRUE, []⟩])) (by decide) (TokStream.ready_ofList _)
  have left : (@aklCompileList TokStream _ decimalLibc 4 firstContext
      (firstState.withDev (.ofList (ifTokens 1 ++ [⟨.tTRUE, []⟩])))).toOption.map
        (fun result => result.2.dev.rest) = some [] := by
    decide +kernel
  rw [run] at left
  have nothing : dev'.rest = [] := by simpa [Except.toOption] using left
  rw [ready.1] at nothing
  cases nothing

end AkLisp
