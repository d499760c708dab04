import AkLisp.Compiler.Agreement
import AkLisp.Compiler.Endings

/-!
# Compiling a source of definitions and expressions

`akl_compile` takes the expressions of a source one after the other.  A definition
binds its name before its body is compiled, so the body may call the function itself,
and what is compiled behind it finds the new function under the name.  When no name
is defined twice, every function that was noted for a call is the one the name is
bound to at the end.
-/

namespace AkLisp

/-! ### Names -/

/-- The functions names stand for. -/
abbrev Names := Symbol → Option FRef

namespace Names

/-- The second table has the entries of the first one. -/
def Below (T T' : Names) : Prop := ∀ sym fn, T sym = some fn → T' sym = some fn

/-- The function, if there is one, is the one the name stands for. -/
def Noted (T : Names) (sym : Symbol) (fun_ : Option FRef) : Prop := fun_ = none ∨ fun_ = T sym

/-- What is known of the names when each stands for one function. -/
def scope (T : Names) (functions : Symbol → Prop) : Scope :=
  ⟨functions, fun sym fun_ => fun_ = T sym, False⟩

/-- The name stands for a new function. -/
def define (T : Names) (sym : Symbol) (fn : FRef) : Names := Function.update T sym (some fn)

theorem Below.refl (T : Names) : T.Below T := fun _ _ found => found

theorem Below.trans {T T' T'' : Names} (first : T.Below T') (second : T'.Below T'') :
    T.Below T'' :=
  fun sym fn found => second sym fn (first sym fn found)

theorem below_define {T : Names} {sym : Symbol} (fresh : T sym = none) (fn : FRef) :
    T.Below (T.define sym fn) := by
  intro sym' fn' found
  have other : sym' ≠ sym := by
    rintro rfl
    cases fresh.symm.trans found
  rw [define, Function.update_of_ne other, found]

/-- What was compiled with one table is still right about a later one. -/
theorem Below.noted {T T' : Names} (below : T.Below T') {sym : Symbol} {fun_ : Option FRef}
    (noted : fun_ = T sym) : T'.Noted sym fun_ := by
  cases found : T sym with
  | none => exact .inl (noted.trans found)
  | some fn =>
      apply Or.inr
      rw [noted, found, below sym fn found]

end Names

/-! ### Definitions -/

section Definitions

variable [Libc] {S S' : Scope} {f : FRef} {args : List Symbol} {code : List Instr}
  {labels : List Label} {s : CompState Unit} {name : List Chr} {params : List (List Chr)}
  {body : Form}

/-- `(defun! name (params) body)` where `akl_compile_next` compiles it: the function is
bound to its name before the body is compiled, so the body is compiled with what is known
of the names then. -/
theorem definition_taken
    (opened : ∀ s₂ v, S.Prepared s₂ → s₂.data.function? v = some s.funs.length →
      (∃ ufun, s₂.funs[s.funs.length]? = some (.user ufun)) →
      S'.Prepared (bindFunction s₂ (aklGetOrCreateSymbol name) v))
    (notString : ¬body.IsString) (inside : body.Compiles S' .next)
    (draft : Draft s.funs f args code labels) (ready : S.Prepared s) :
    ∃ s' nval bodyE, Translates (.next ⟨f, f⟩) (Form.defun name params body).tokens s
        (some s.funs.length) s' ∧ Compiled S' f args code labels s s' (.lit nval) ∧
      s'.data.payload nval = some (.symbol (aklGetOrCreateSymbol name)) ∧ f < s.funs.length ∧
      Draft s'.funs s.funs.length (params.map aklGetOrCreateSymbol)
        (bodyE.code s.funs.length 0) (boundLabels s.funs.length 0 (bodyE.binds 0)) ∧
      body.Resolves S'.fetched s'.funs s'.data s.funs.length
        (params.map aklGetOrCreateSymbol) .next bodyE := by
  have head := Emitted.head draft ready SForm.defun.symbol
  have created := Steady.aklNewUserFunction (s.withSymbol SForm.defun.symbol false)
  have draft₁ := Draft.new (s.withSymbol SForm.defun.symbol false)
  have extended₁ (g : FRef) := Extends.aklNewUserFunction g (s.withSymbol SForm.defun.symbol false)
  have newEq : aklNewUserFunction (s.withSymbol SForm.defun.symbol false) =
      (s.funs.length, (aklNewUserFunction (s.withSymbol SForm.defun.symbol false)).2) := rfl
  rw [newEq] at created draft₁ extended₁
  generalize (aklNewUserFunction (s.withSymbol SForm.defun.symbol false)).2 = s₁ at *
  have valued := Steady.newValue s₁ ⟨.function s.funs.length, false, false⟩
  rcases @paramTokens_taken (aklGetOrCreateSymbol name).text s.funs.length [] [] params
    (s₁.withData (s₁.data.newFunctionValue s.funs.length).2) draft₁ with
    ⟨s₂, paramsTaken, draft₂, extended₂⟩
  have read := Steady.params paramsTaken
  have function : s₂.data.function? s₁.data.values.length = some s.funs.length := by
    rw [read.function? (by simp [CompState.withData, Data.newFunctionValue])]
    simp [CompState.withData, Data.newFunctionValue, Data.function?, Data.newValue_payload_self]
  have ready₂ := ((created.trans valued).trans read).prepared head.ready
  rcases draft₂.found with ⟨funBody, found⟩
  have ready₃ := opened s₂ s₁.data.values.length ready₂ function ⟨_, found⟩
  rcases body_compiles notString inside
    (s := bindFunction s₂ (aklGetOrCreateSymbol name) s₁.data.values.length) draft₂ ready₃ with
    ⟨first, others, fb, s₃, bodyE, tokens, docstring, taken, ready₄, extended₃, draft₄, resolves⟩
  have bound := Extends.withData s.funs.length s₂ (s₂.data.keeps_aklSetGlobalVar
    (aklGetOrCreateSymbol name) s₁.data.values.length s₂.data.existing)
  have extended : Extends s.funs.length (s.withSymbol SForm.defun.symbol false) s₃ :=
    (extended₁ s.funs.length).trans
      ((Extends.newValue s.funs.length s₁ ⟨.function s.funs.length, false, false⟩).trans
        (extended₂.trans (bound.trans extended₃)))
  rcases Emitted.function head.draft ready₄ (le_refl _) extended with ⟨behind, emitted⟩
  have headExtended : Extends f s (s.withSymbol SForm.defun.symbol false) := head.extended
  have whole : Emitted S' f args code labels s s₃ [] [] :=
    ⟨emitted.ready, headExtended.trans emitted.extended, by simpa using emitted.draft⟩
  have named := (whole.newValue ⟨.symbol (aklGetOrCreateSymbol name), false, false⟩).emit
    (.push (some s₃.data.values.length))
  have nameLater : Extends f s₃ (pushName ⟨f, f⟩ s₃ (aklGetOrCreateSymbol name)) :=
    (Extends.newValue f s₃ _).trans (.emit f f _ _)
  refine ⟨pushName ⟨f, f⟩ s₃ (aklGetOrCreateSymbol name), s₃.data.values.length, bodyE, ?_, named,
    s₃.data.newValue_payload_self _, behind, nameLater.keptBehind.draft behind draft₄,
    resolves.later nameLater.data body (nameLater.keptBehind.mono behind)⟩
  rw [Form.tokens, tokens]
  exact .nextList rfl (form_list ready.bound (ready.special _)
    (.defun newEq rfl rfl paramsTaken docstring taken))

end Definitions

/-- A name is bound to a user function, which the compiler fetches from then on. -/
theorem prefetch_bindFunction {s : CompState Unit} {sym : Symbol} {v : VRef} {func : FRef}
    (function : s.data.function? v = some func)
    (user : ∃ ufun, s.funs[func]? = some (.user ufun)) :
    prefetchFunction (bindFunction s sym v) sym = (.normal, some func) := by
  rcases user with ⟨ufun, found⟩
  have bound : (bindFunction s sym v).data.globals sym = some v := by
    simp [bindFunction, CompState.withData, Data.aklSetGlobalVar]
  have function' : (bindFunction s sym v).data.function? v = some func := function
  have found' : (bindFunction s sym v).funs[func]? = some (.user ufun) := found
  simp [prefetchFunction, bound, function', found']

/-- What is known of the names when one more is defined. -/
theorem Names.prepared_define {T : Names} {functions : Symbol → Prop} {s : CompState Unit}
    {sym : Symbol} {v : VRef} {func : FRef} (ready : (T.scope functions).Prepared s)
    (ordinary : ∀ form : SForm, form.symbol ≠ sym) (function : s.data.function? v = some func)
    (user : ∃ ufun, s.funs[func]? = some (.user ufun)) :
    ((T.define sym func).scope functions).Prepared (bindFunction s sym v) := by
  have others : Scope.Prepared ⟨fun sym' => functions sym' ∧ sym' ≠ sym,
      fun sym' fun_ => fun_ = T.define sym func sym', False⟩ s := by
    refine ⟨ready.bound, ready.special, ?_, False.elim⟩
    rintro sym' ⟨called, other⟩
    rcases ready.callable sym' called with ⟨pfSt, fun_, fetched, callable, noted⟩
    refine ⟨pfSt, fun_, fetched, callable, ?_⟩
    have same : T.define sym func sym' = T sym' := Function.update_of_ne other _ _
    exact noted.trans same.symm
  have bound := others.bindFunction ordinary function user (by simp [define])
  refine ⟨bound.bound, bound.special, ?_, False.elim⟩
  intro sym' called
  by_cases same : sym' = sym
  · subst same
    exact ⟨.normal, some func, prefetch_bindFunction function user, .inl rfl,
      by simp [scope, define]⟩
  · exact bound.callable sym' ⟨called, same⟩

/-! ### Sources -/

/-- The name the expression defines. -/
def Form.defined? : Form → Option Symbol
  | .defun text _ _ => some (aklGetOrCreateSymbol text)
  | _ => none

/-- An expression of a source: definitions stand at the top only. -/
def Form.TopLevel (functions : Symbol → Prop) (e : Form) : Prop :=
  match e with
  | .defun text _ body =>
      (∀ form : SForm, form.symbol ≠ aklGetOrCreateSymbol text) ∧ ¬body.IsString ∧
        body.WellFormed functions ∧ ¬body.Defines
  | e => e.WellFormed functions ∧ ¬e.Defines

/-- What the expressions of a source are compiled to, in a main function `f`.  The functions
of the definitions are new ones, from `low` on. -/
inductive Linked [Libc] (T : Names) (funs : List AklFunction) (d : Data) (f : FRef) :
    FRef → List Form → Args → Prop where
  | nil {low} : Linked T funs d f low [] .nil
  | expr {low e es E argsE} (plain : e.defined? = none)
      (resolves : e.Resolves T.Noted funs d f [] .next E)
      (others : Linked T funs d f low es argsE) : Linked T funs d f low (e :: es) (.cons E argsE)
  | definition {low name params body es nval fn bodyE argsE}
      (payload : d.payload nval = some (.symbol (aklGetOrCreateSymbol name)))
      (named : T (aklGetOrCreateSymbol name) = some fn) (behind : f < fn) (new : low ≤ fn)
      (draft : Draft funs fn (params.map aklGetOrCreateSymbol) (bodyE.code fn 0)
        (boundLabels fn 0 (bodyE.binds 0)))
      (resolves :
        body.Resolves T.Noted funs d fn (params.map aklGetOrCreateSymbol) .next bodyE)
      (others : Linked T funs d f (fn + 1) es argsE) :
      Linked T funs d f low (.defun name params body :: es) (.cons (.lit nval) argsE)

theorem Linked.lower [Libc] {T : Names} {funs : List AklFunction} {d : Data} {f low low' : FRef}
    {es : List Form} {argsE : Args} (linked : Linked T funs d f low es argsE) (le : low' ≤ low) :
    Linked T funs d f low' es argsE := by
  induction linked generalizing low' with
  | nil => exact .nil
  | expr plain resolves others ih => exact .expr plain resolves (ih le)
  | definition payload named behind new draft resolves others ih =>
      exact .definition payload named behind (Nat.le_trans le new) draft resolves others

/-- What a source is compiled to does not depend on the main function. -/
theorem Linked.later [Libc] {T : Names} {funs funs' : List AklFunction} {d : Data} {f low : FRef}
    {es : List Form} {argsE : Args} (linked : Linked T funs d f low es argsE)
    (kept : KeptBehind f funs funs') : Linked T funs' d f low es argsE := by
  induction linked with
  | nil => exact .nil
  | expr plain resolves others ih =>
      exact .expr plain (resolves.later (d.keeps_refl _) _ kept) ih
  | definition payload named behind new draft resolves others ih =>
      exact .definition payload named behind new (kept.draft behind draft)
        (resolves.later (d.keeps_refl _) _ (kept.mono behind)) ih

section Sources

variable [Libc] {functions : Symbol → Prop} {f : FRef}

omit [Libc] in
/-- Behind other code, which was compiled with what was known of the names before. -/
theorem Emitted.behind {S S' : Scope} {args : List Symbol} {code new new' : List Instr}
    {labels more more' : List Label} {s s' s'' : CompState Unit}
    (first : Emitted S f args code labels s s' new more)
    (second : Emitted S' f args (code ++ new) (labels ++ more) s' s'' new' more') :
    Emitted S' f args code labels s s'' (new ++ new') (more ++ more') := by
  refine ⟨second.ready, first.extended.trans second.extended, ?_⟩
  simpa only [List.append_assoc] using second.draft

omit [Libc] in
theorem Extends.length_le {s s' : CompState Unit} (extended : Extends f s s')
    {args : List Symbol} {code : List Instr} {labels : List Label}
    (draft : Draft s'.funs f args code labels) : s.funs.length ≤ s'.funs.length := by
  by_contra shorter
  have inside : s'.funs.length < s.funs.length := Nat.lt_of_not_le shorter
  rcases draft.found with ⟨body, found⟩
  have other : s'.funs.length ≠ f := Nat.ne_of_gt (List.getElem?_eq_some_iff.mp found).1
  have kept := extended.funs _ _ other (List.getElem?_eq_getElem inside)
  exact Nat.lt_irrefl _ (List.getElem?_eq_some_iff.mp kept).1

/-- One expression of a source. -/
theorem Form.TopLevel.taken {T : Names} {e : Form} {code : List Instr} {labels : List Label}
    {s : CompState Unit} (top : e.TopLevel functions) (fresh : ∀ sym ∈ e.defined?, T sym = none)
    (draft : Draft s.funs f [] code labels) (ready : (T.scope functions).Prepared s) :
    ∃ s₁ T₁ E fn, Translates (.next ⟨f, f⟩) e.tokens s fn s₁ ∧ T.Below T₁ ∧
      (∀ sym, sym ∉ e.defined? → T₁ sym = T sym) ∧
      Compiled (T₁.scope functions) f [] code labels s s₁ E ∧
      ∀ {T' : Names} {s' : CompState Unit} {es : List Form} {argsE : Args}, T₁.Below T' →
        Extends f s₁ s' → Linked T' s'.funs s'.data f s₁.funs.length es argsE →
        Linked T' s'.funs s'.data f s.funs.length (e :: es) (.cons E argsE) := by
  by_cases definition : ∃ name params body, e = .defun name params body
  · rcases definition with ⟨name, params, body, rfl⟩
    rcases top with ⟨ordinary, notString, wellFormed, notDefines⟩
    have fresh := fresh _ rfl
    have inside : body.Compiles ((T.define (aklGetOrCreateSymbol name) s.funs.length).scope
        functions) .next := by
      apply Form.WellFormed.compiles wellFormed
      exact fun defines => absurd defines notDefines
    rcases definition_taken (fun s₂ v ready₂ function user =>
        Names.prepared_define ready₂ ordinary function user) notString inside draft ready with
      ⟨s₁, nval, bodyE, taken, compiled, payload, behind, draft₁, resolves⟩
    refine ⟨s₁, _, .lit nval, _, taken, Names.below_define fresh _, ?_, compiled, ?_⟩
    · intro sym other
      apply Function.update_of_ne
      rintro rfl
      exact other rfl
    · intro T' s' es argsE below extended others
      rcases draft₁.found with ⟨_, found⟩
      have longer : s.funs.length + 1 ≤ s₁.funs.length := (List.getElem?_eq_some_iff.mp found).1
      refine .definition (extended.data.payload payload) ?_ behind (le_refl _)
        (extended.keptBehind.draft behind draft₁) ?_ (others.lower longer)
      · exact below _ _ (Function.update_self _ _ _)
      · apply Form.Resolves.mono fun sym fun_ noted => below.noted noted
        exact resolves.later extended.data body (extended.keptBehind.mono behind)
  · have plain : e.defined? = none ∧ e.WellFormed functions ∧ ¬e.Defines := by
      cases e with
      | defun name params body => exact absurd ⟨name, params, body, rfl⟩ definition
      | _ => exact ⟨rfl, top⟩
    rcases plain with ⟨plain, wellFormed, notDefines⟩
    have inside : e.Compiles (T.scope functions) .next := by
      apply Form.WellFormed.compiles wellFormed
      exact fun defines => absurd defines notDefines
    rcases inside f [] code labels s draft ready with ⟨s₁, E, ⟨fn, taken⟩, compiled, resolves⟩
    refine ⟨s₁, T, E, fn, taken, .refl T, fun _ _ => rfl, compiled, ?_⟩
    intro T' s' es argsE below extended others
    refine .expr plain ?_ (others.lower (compiled.extended.length_le compiled.draft))
    apply Form.Resolves.mono fun sym fun_ noted => below.noted noted
    exact resolves.later extended.data e extended.keptBehind

/-- The loop of `akl_compile` takes a source in which no name is defined twice. -/
theorem forms_taken {es : List Form} {T : Names} {code : List Instr} {labels : List Label}
    {s : CompState Unit} (top : ∀ e ∈ es, e.TopLevel functions)
    (distinct : (es.filterMap Form.defined?).Nodup)
    (fresh : ∀ sym ∈ es.filterMap Form.defined?, T sym = none)
    (draft : Draft s.funs f [] code labels) (ready : (T.scope functions).Prepared s) :
    ∃ s' T' argsE, (∀ {σ : Type} [TokenSource σ] (D : Delivery σ) (fuel : Nat) (dev : σ),
        (es.map Form.tokens).flatten.length < fuel →
        D.Ready ((es.map Form.tokens).flatten ++ [endLexeme]) dev →
        ∃ dev', compileForms fuel ⟨f, f⟩ (s.withDev dev) = .ok (s'.withDev dev')) ∧
      T.Below T' ∧ (∀ sym, sym ∉ es.filterMap Form.defined? → T' sym = T sym) ∧
      Emitted (T'.scope functions) f [] code labels s s' (argsE.code f labels.length)
        (boundLabels f labels.length (argsE.binds code.length)) ∧
      Linked T' s'.funs s'.data f s.funs.length es argsE := by
  induction es generalizing T code labels s with
  | nil =>
      refine ⟨s, T, .nil, ?_, .refl T, fun _ _ => rfl, .here ready draft, .nil⟩
      intro σ _ D fuel dev enough available
      rcases Nat.exists_eq_succ_of_ne_zero (Nat.ne_of_gt enough) with ⟨fuel, rfl⟩
      rcases CompState.aklLex_offers (Delivery.offers available) s with ⟨dev', lexEq, -⟩
      refine ⟨dev', ?_⟩
      simp only [compileForms, aklCompileNext, compileNextWith, lexEq, endLexeme, bind,
        Except.bind, pure, Except.pure, if_true]
  | cons e es ih =>
      have definedEq : (e :: es).filterMap Form.defined? =
          e.defined?.toList ++ es.filterMap Form.defined? := by
        cases defined : e.defined? <;> simp [defined]
      rw [definedEq] at distinct fresh
      rcases Form.TopLevel.taken (top e List.mem_cons_self)
        (fun sym mem => fresh sym (List.mem_append_left _ (by simpa using mem))) draft ready with
        ⟨s₁, T₁, E, fn, translates, below, others, compiled, linked⟩
      have fresh₁ : ∀ sym ∈ es.filterMap Form.defined?, T₁ sym = none := by
        intro sym mem
        rw [others sym ?_]
        · exact fresh sym (List.mem_append_right _ mem)
        · intro here
          exact List.disjoint_of_nodup_append distinct (by simpa using here) mem
      rcases ih (fun e' mem => top e' (List.mem_cons_of_mem e mem))
        (List.Nodup.of_append_right distinct) fresh₁ compiled.draft compiled.ready with
        ⟨s', T', argsE, runs, below', others', emitted, linked'⟩
      refine ⟨s', T', .cons E argsE, ?_, below.trans below', ?_,
        (compiled.behind emitted).congr ?_ ?_, linked below' emitted.extended linked'⟩
      · intro σ _ D fuel dev enough available
        have nonempty : 0 < e.tokens.length := by
          rcases e.tokens_first with ⟨first, more, tokens, -⟩
          simp [tokens]
        rw [List.map_cons, List.flatten_cons, List.length_append] at enough
        rw [List.map_cons, List.flatten_cons, List.append_assoc] at available
        rcases Nat.exists_eq_succ_of_ne_zero (show fuel ≠ 0 by omega) with ⟨fuel, rfl⟩
        rcases translates.sound fuel _ dev (by omega) (Delivery.offers available) with
          ⟨tok, dev₁, nextEq, notEof, ready₁⟩
        rcases runs D fuel dev₁ (by omega) ready₁ with ⟨dev', formsEq⟩
        refine ⟨dev', ?_⟩
        simp only [compileForms, nextEq, bind, Except.bind, if_neg notEof]
        exact formsEq
      · intro sym notDefined
        rw [definedEq, List.mem_append, not_or] at notDefined
        exact (others' sym notDefined.2).trans (others sym (by simpa using notDefined.1))
      · simp [Args.code]
      · simp [Args.binds, boundLabels_append]

end Sources

end AkLisp
