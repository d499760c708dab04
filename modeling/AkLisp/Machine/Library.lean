import AkLisp.Machine.Sources

/-!
# C functions under their names

An interpreter declares C functions before it compiles a source.  What a source is
compiled to finds them under their names, in the functions of the machine and in the
program of the evaluator.
-/

namespace AkLisp

/-- The characters of an ASCII name. -/
def chars (name : String) : List Chr := name.toList.map code

namespace Machine

/-- `akl_add_global_cfun` -/
def aklAddGlobalCfun (m : Machine) (name : String) (cfun : Nat → CProg) : Machine :=
  let (value, data) := m.data.newFunctionValue m.funs.length
  { m with
    funs := m.funs ++ [.cfun cfun]
    data := data.aklSetGlobalVar (symbolOf name) value }

/-- `akl_declare_functions` on a table of C functions. -/
def aklDeclareFunctions (m : Machine) (funs : List (String × (Nat → CProg))) : Machine :=
  funs.foldl (fun m fn => m.aklAddGlobalCfun fn.1 fn.2) m

/-- The name is bound to the C function. -/
def Has (m : Machine) (name : String) (cfun : Nat → CProg) : Prop :=
  ∃ v fn, m.data.globals (symbolOf name) = some v ∧ m.data.function? v = some fn ∧
    m.funs[fn]? = some (.cfun cfun)

section

variable {m : Machine} {name other : String} {cfun : Nat → CProg}

theorem Has.named (has : m.Has name cfun) :
    ∃ fn, m.names (symbolOf name) = some fn ∧ m.funs[fn]? = some (.cfun cfun) := by
  rcases has with ⟨v, fn, bound, function, found⟩
  refine ⟨fn, ?_, found⟩
  have fetched : prefetchFunction m.front (symbolOf name) = (.normal, some fn) := by
    simp only [prefetchFunction, front, bound, function, found]
  simp [names, fetched]

theorem Has.callable (has : m.Has name cfun) : m.front.Callable (symbolOf name) := by
  rcases has.named with ⟨fn, named, -⟩
  exact names_callable named

theorem aklAddGlobalCfun_has (m : Machine) (name : String) (cfun : Nat → CProg) :
    (m.aklAddGlobalCfun name cfun).Has name cfun := by
  refine ⟨m.data.values.length, m.funs.length, ?_, ?_, ?_⟩
  · simp [aklAddGlobalCfun, Data.newFunctionValue, Data.aklSetGlobalVar]
  · simp [aklAddGlobalCfun, Data.newFunctionValue, Data.aklSetGlobalVar, Data.function?,
      Data.payload]
  · simp [aklAddGlobalCfun]

/-- What the names of other functions are bound to does not change. -/
theorem aklAddGlobalCfun_other (new : Nat → CProg) {sym : Symbol} (different : sym ≠ symbolOf other)
    {v : VRef} {fn : FRef} {f : AklFunction} (bound : m.data.globals sym = some v)
    (function : m.data.function? v = some fn) (found : m.funs[fn]? = some f) :
    (m.aklAddGlobalCfun other new).data.globals sym = some v ∧
      (m.aklAddGlobalCfun other new).data.function? v = some fn ∧
      (m.aklAddGlobalCfun other new).funs[fn]? = some f := by
  refine ⟨?_, ?_, ?_⟩
  · simp only [aklAddGlobalCfun, Data.newFunctionValue, Data.aklSetGlobalVar]
    rw [Function.update_of_ne different]
    exact bound
  · exact Data.function_later (Data.le_newValue m.data ⟨.function m.funs.length, false, false⟩)
      function
  · simp only [aklAddGlobalCfun]
    rw [List.getElem?_append_left (List.getElem?_eq_some_iff.mp found).1]
    exact found

theorem Has.add (has : m.Has name cfun) (new : Nat → CProg)
    (different : symbolOf name ≠ symbolOf other) :
    (m.aklAddGlobalCfun other new).Has name cfun := by
  rcases has with ⟨v, fn, bound, function, found⟩
  exact ⟨v, fn, aklAddGlobalCfun_other new different bound function found⟩

theorem Idle.add (idle : m.Idle) (new : Nat → CProg)
    (ordinary : ∀ form : SForm, form.symbol ≠ symbolOf other) :
    (m.aklAddGlobalCfun other new).Idle := by
  refine ⟨idle.control, idle.bound.registered _ _, ?_⟩
  intro form
  have special := idle.special form
  simp only [CompState.formName, Option.bind_eq_some_iff, CompState.sform?] at special ⊢
  rcases special with ⟨fn, ⟨v, bound, function⟩, found⟩
  split at found
  · next form' here =>
      cases found
      rcases aklAddGlobalCfun_other new (ordinary form) bound function here with
        ⟨bound', function', found'⟩
      refine ⟨fn, ⟨v, bound', function'⟩, ?_⟩
      have found'' : (m.aklAddGlobalCfun other new).front.funs[fn]? =
          some (.special form) := found'
      simp only [found'']
  · cases found

end

/-- A name that is not declared again stays bound to its function. -/
theorem Has.declare {m : Machine} {name : String} {cfun : Nat → CProg} (has : m.Has name cfun)
    {funs : List (String × (Nat → CProg))}
    (different : ∀ fn ∈ funs, symbolOf name ≠ symbolOf fn.1) :
    (m.aklDeclareFunctions funs).Has name cfun := by
  induction funs generalizing m with
  | nil => exact has
  | cons fn funs ih =>
      apply ih (has.add fn.2 (different fn List.mem_cons_self))
      exact fun fn' mem => different fn' (List.mem_cons_of_mem fn mem)

/-- Declared functions are found under their names. -/
theorem aklDeclareFunctions_has (m : Machine) {funs : List (String × (Nat → CProg))}
    (distinct : (funs.map fun fn => symbolOf fn.1).Nodup) :
    ∀ fn ∈ funs, (m.aklDeclareFunctions funs).Has fn.1 fn.2 := by
  induction funs generalizing m with
  | nil => exact fun fn mem => absurd mem List.not_mem_nil
  | cons fn funs ih =>
      rw [List.map_cons, List.nodup_cons] at distinct
      intro fn' mem
      rcases List.mem_cons.mp mem with rfl | mem
      · apply (m.aklAddGlobalCfun_has fn'.1 fn'.2).declare
        intro other inOthers equal
        exact distinct.1 (List.mem_map.mpr ⟨other, inOthers, equal.symm⟩)
      · exact ih _ distinct.2 fn' mem

theorem Idle.declare {m : Machine} (idle : m.Idle) {funs : List (String × (Nat → CProg))}
    (ordinary : ∀ fn ∈ funs, ∀ form : SForm, form.symbol ≠ symbolOf fn.1) :
    (m.aklDeclareFunctions funs).Idle := by
  induction funs generalizing m with
  | nil => exact idle
  | cons fn funs ih =>
      apply ih (idle.add fn.2 (ordinary fn List.mem_cons_self))
      exact fun fn' mem => ordinary fn' (List.mem_cons_of_mem fn mem)

end Machine

/-! ### In what a source is compiled to -/

section

variable [Libc]

/-- The name stands for the C function. -/
def Image.Has (I : Image) (name : String) (cfun : Nat → CProg) : Prop :=
  ∃ fn, I.names (symbolOf name) = some fn ∧ I.program fn = some (.cfun cfun)

theorem Build.has {m : Machine} {es : List Form} (B : Build m es) {name : String}
    {cfun : Nat → CProg} (has : m.Has name cfun) : B.image.Has name cfun := by
  rcases has.named with ⟨fn, named, found⟩
  exact ⟨fn, B.below _ fn named, B.image.cfuns fn cfun (B.keptFuns fn _ found)⟩

theorem Build.statics {m : Machine} {es : List Form} (B : Build m es)
    (statics : m.data.Statics) : B.image.data.Statics :=
  statics.trans B.keptData.values

/-- A call of a C function that has been declared. -/
theorem Image.Has.call {I : Image} {name : String} {cfun : Nat → CProg} (has : I.Has name cfun)
    {params : List Symbol} {vs : List VRef} {pos : Position} {es : Forms} {d : Data}
    {Q : VRef → Data → Prop} (later : I.data ≤ d)
    (args : I.MeetsAll params vs es d fun ws d₁ =>
      ∀ fn, I.program fn = some (.cfun cfun) → Evaluation.Total (I.program.apply fn ws) d₁ Q) :
    I.Meets params vs pos (.call (chars name) es) d Q := by
  rcases has with ⟨fn, named, callee⟩
  apply Image.meets_call later named
  intro f argsE resolves
  exact (args f argsE resolves).imp fun ws d₁ _ applied => applied fn callee

end

end AkLisp
