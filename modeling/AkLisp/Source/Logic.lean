import AkLisp.Compiler.Sources
import AkLisp.Semantics.Logic

/-!
# Reasoning about sources

An image is what the compiler has made of a source: functions, data, and the functions
names stand for.  The rules say what an expression of the source comes to in an image,
whatever it was compiled to.  So a statement about a source follows its expressions, and
a function is known by its body.
-/

namespace AkLisp

open Evaluation

variable [Libc]

/-- Compiled functions with the data they refer to, the functions names stand for, and the
functions as the evaluator sees them. -/
structure Image where
  funs : List AklFunction
  data : Data
  names : Names
  program : Program
  bound : ∀ sym fn, names sym = some fn → data.Binds sym fn
  compiled : program.CompiledIn funs
  cfuns : ∀ fn cfun, funs[fn]? = some (.cfun cfun) → program fn = some (.cfun cfun)

/-- The C functions, as the evaluator sees them. -/
def Program.ofCfuns (funs : List AklFunction) : Program := fun fn =>
  match funs[fn]? with
  | some (.cfun cfun) => some (.cfun cfun)
  | _ => none

namespace Program

variable {funs : List AklFunction} {fn : FRef} {cfun : Nat → CProg}

omit [Libc] in
theorem ofCfuns_of_cfun (here : funs[fn]? = some (.cfun cfun)) :
    ofCfuns funs fn = some (.cfun cfun) := by
  simp only [ofCfuns, here]

omit [Libc] in
theorem cfun_of_ofCfuns {callee : Callee} (found : ofCfuns funs fn = some callee) :
    ∃ cfun, callee = .cfun cfun ∧ funs[fn]? = some (.cfun cfun) := by
  unfold ofCfuns at found
  split at found
  · next cfun here => exact ⟨cfun, (Option.some.inj found).symm, here⟩
  · cases found

omit [Libc] in
theorem ofCfuns_compiledIn (funs : List AklFunction) : (ofCfuns funs).CompiledIn funs where
  cfun := by
    intro fn cfun found
    rcases cfun_of_ofCfuns found with ⟨cfun', equal, here⟩
    cases equal
    exact here
  user := by
    intro fn argc body found
    rcases cfun_of_ofCfuns found with ⟨_, equal, -⟩
    cases equal

omit [Libc] in
/-- A compiled function can be added. -/
theorem CompiledIn.update {Γ : Program} (compiled : Γ.CompiledIn funs) {args : List Symbol}
    {body : Expr}
    (draft : Draft funs fn args (body.code fn 0) (boundLabels fn 0 (body.binds 0))) :
    Program.CompiledIn (Function.update Γ fn (some (.user args.length body))) funs where
  cfun := by
    intro fn' cfun found
    by_cases same : fn' = fn
    · rw [same, Function.update_self] at found
      cases found
    · rw [Function.update_of_ne same] at found
      exact compiled.cfun found
  user := by
    intro fn' argc body' found
    by_cases same : fn' = fn
    · rw [same, Function.update_self] at found
      cases found
      rw [same]
      exact ⟨args, rfl, draft⟩
    · rw [Function.update_of_ne same] at found
      exact compiled.user found

end Program

/-- The program has the C functions, and each definition of the source. -/
theorem Linked.program {T : Names} {funs : List AklFunction} {d : Data} {f low : FRef}
    {es : List Form} {argsE : Args} (linked : Linked T funs d f low es argsE) :
    ∃ Γ : Program, Γ.CompiledIn funs ∧
      (∀ fn cfun, funs[fn]? = some (.cfun cfun) → Γ fn = some (.cfun cfun)) ∧
      (∀ fn argc bodyE, Γ fn = some (.user argc bodyE) → low ≤ fn) ∧
      ∀ name params body, Form.defun name params body ∈ es → ∃ fn bodyE,
        T (aklGetOrCreateSymbol name) = some fn ∧ Γ fn = some (.user params.length bodyE) ∧
        body.Resolves T.Noted funs d fn (params.map aklGetOrCreateSymbol) .next bodyE := by
  induction linked with
  | nil =>
      refine ⟨Program.ofCfuns funs, Program.ofCfuns_compiledIn funs,
        fun fn cfun => Program.ofCfuns_of_cfun, ?_, fun _ _ _ mem => absurd mem List.not_mem_nil⟩
      intro fn argc bodyE found
      rcases Program.cfun_of_ofCfuns found with ⟨_, equal, -⟩
      cases equal
  | expr plain resolves others ih =>
      rcases ih with ⟨Γ, compiled, cfuns, above, definitions⟩
      refine ⟨Γ, compiled, cfuns, above, ?_⟩
      intro name params body mem
      rcases List.mem_cons.mp mem with rfl | mem
      · cases plain
      · exact definitions name params body mem
  | @definition low name params body es nval fn bodyE argsE payload named behind new draft
      resolves others ih =>
      rcases ih with ⟨Γ, compiled, cfuns, above, definitions⟩
      have added := compiled.update draft
      rw [List.length_map] at added
      have other : ∀ fn', fn' ≠ fn →
          Function.update Γ fn (some (.user params.length bodyE)) fn' = Γ fn' :=
        fun fn' different => Function.update_of_ne different _ _
      refine ⟨Function.update Γ fn (some (.user params.length bodyE)), added, ?_, ?_, ?_⟩
      · intro fn' cfun here
        have different : fn' ≠ fn := by
          rintro rfl
          rcases draft with ⟨ir, found, -⟩
          cases found.symm.trans here
        rw [other fn' different]
        exact cfuns fn' cfun here
      · intro fn' argc body' callee
        by_cases same : fn' = fn
        · rw [same]
          exact new
        · have later := above fn' argc body' ((other fn' same).symm.trans callee)
          exact Nat.le_trans new (Nat.le_of_succ_le later)
      · intro name' params' body' mem
        rcases List.mem_cons.mp mem with equal | mem
        · cases equal
          exact ⟨fn, bodyE, named, Function.update_self _ _ _, resolves⟩
        · rcases definitions name' params' body' mem with ⟨fn', bodyE', named', callee, resolves'⟩
          have later := above fn' _ _ callee
          have different : fn' ≠ fn := Nat.ne_of_gt later
          exact ⟨fn', bodyE', named', (other fn' different).trans callee, resolves'⟩

namespace Image

variable (I : Image)

/-- The function has these parameters and this body. -/
def Known (fn : FRef) (params : List Symbol) (body : Form) : Prop :=
  ∃ bodyE, I.program fn = some (.user params.length bodyE) ∧
    body.Resolves I.names.Noted I.funs I.data fn params .next bodyE

/-- The expression comes to a value of which the condition holds, in a function with these
parameters and arguments. -/
def Meets (params : List Symbol) (vs : List VRef) (pos : Position) (e : Form) (d : Data)
    (Q : VRef → Data → Prop) : Prop :=
  ∀ f E, e.Resolves I.names.Noted I.funs I.data f params pos E →
    Total (I.program.expr vs E) d Q

/-- So do the arguments of a call. -/
def MeetsAll (params : List Symbol) (vs : List VRef) (es : Forms) (d : Data)
    (R : List VRef → Data → Prop) : Prop :=
  ∀ f argsE, es.Resolves I.names.Noted I.funs I.data f params argsE →
    Total (I.program.args vs argsE) d R

/-- So do the expressions of a source. -/
def MeetsSource (es : List Form) (d : Data) (R : List VRef → Data → Prop) : Prop :=
  ∀ f low argsE, Linked I.names I.funs I.data f low es argsE →
    Total (I.program.args [] argsE) d R

section Rules

variable {I} {params : List Symbol} {vs : List VRef} {pos : Position} {d : Data}
  {Q Q' : VRef → Data → Prop} {R : List VRef → Data → Prop}

theorem Meets.imp {e : Form} (meets : I.Meets params vs pos e d Q)
    (weaker : ∀ v d', d ≤ d' → Q v d' → Q' v d') : I.Meets params vs pos e d Q' :=
  fun f E resolves => (meets f E resolves).imp weaker

/-! ### Expressions -/

theorem meets_literal {c : Literal}
    (holds : ∀ v, c.datum.Denoted I.data I.data.present v → Q v d) :
    I.Meets params vs pos (.literal c) d Q := by
  rintro f E ⟨v, rfl, denoted⟩
  exact total_lit (holds v denoted)

/-- A number is a value that is never changed. -/
theorem meets_number {text : List Chr} (later : I.data ≤ d)
    (holds : ∀ v, d.payload v = some (.number (numberOfText text)) → Q v d) :
    I.Meets params vs pos (.literal (.number text)) d Q :=
  meets_literal fun v denoted => holds v (Data.payload_later later denoted)

theorem meets_quoted {x : Datum} (holds : ∀ v, x.Denoted I.data I.data.present v → Q v d) :
    I.Meets params vs pos (.quoted x) d Q := by
  rintro f E ⟨v, rfl, denoted⟩
  exact total_lit (holds v denoted)

/-- The name of a parameter as an argument. -/
theorem meets_param {text : List Chr} {k : Nat} {v : VRef}
    (param : params.findIdx? (· = aklGetOrCreateSymbol text) = some k) (given : vs[k]? = some v)
    (holds : Q v d) : I.Meets params vs .arg (.name text) d Q := by
  intro f E resolves
  have equal : E = operandOf params (aklGetOrCreateSymbol text) := resolves
  rw [equal, operandOf, param]
  exact total_param given holds

/-- Another name as an argument. -/
theorem meets_global {text : List Chr} {v : VRef}
    (other : params.findIdx? (· = aklGetOrCreateSymbol text) = none)
    (bound : d.globals (aklGetOrCreateSymbol text) = some v) (holds : Q v d) :
    I.Meets params vs .arg (.name text) d Q := by
  intro f E resolves
  have equal : E = operandOf params (aklGetOrCreateSymbol text) := resolves
  rw [equal, operandOf, other]
  exact total_global bound holds

/-- The name of a function as an argument. -/
theorem meets_function {text : List Chr} {fn : FRef} (later : I.data ≤ d)
    (other : params.findIdx? (· = aklGetOrCreateSymbol text) = none)
    (named : I.names (aklGetOrCreateSymbol text) = some fn)
    (holds : ∀ v, d.payload v = some (.function fn) → Q v d) :
    I.Meets params vs .arg (.name text) d Q := by
  rcases (I.bound _ fn named).later later with ⟨v, bound, function⟩
  apply meets_global other bound
  apply holds
  unfold Data.function? at function
  split at function
  · next found =>
      cases function
      exact found
  · cases function

/-- Which branch is taken depends on the value of the condition. -/
theorem meets_sif {c a b : Form} (cond : I.Meets params vs .next c d fun w d₁ =>
      I.Meets params vs .next (if d₁.isNil (some w) then b else a) d₁ Q) :
    I.Meets params vs pos (.sif c a b) d Q := by
  rintro f E ⟨cE, aE, bE, rfl, condE, bodyE, otherE⟩
  apply total_sif
  apply (cond f cE condE).imp
  intro w d₁ later meets
  cases holds : d₁.isNil (some w) with
  | true => exact (if_pos holds ▸ meets) f bE otherE
  | false => exact (if_neg (Bool.not_eq_true _ ▸ holds) ▸ meets) f aE bodyE

/-! ### Calls -/

theorem meetsAll_nil (holds : R [] d) : I.MeetsAll params vs .nil d R := by
  rintro f argsE rfl
  exact total_argsNil holds

theorem meetsAll_cons {e : Form} {es : Forms} (first : I.Meets params vs .arg e d fun v d₁ =>
      I.MeetsAll params vs es d₁ fun ws d₂ => R (v :: ws) d₂) :
    I.MeetsAll params vs (.cons e es) d R := by
  rintro f argsE ⟨eE, esE, rfl, resolves, others⟩
  apply total_argsCons
  exact (first f eE resolves).imp fun v d₁ later rest => rest f esE others

/-- A call evaluates its arguments and applies the function its name stands for. -/
theorem meets_call {text : List Chr} {es : Forms} {fn : FRef} (later : I.data ≤ d)
    (named : I.names (aklGetOrCreateSymbol text) = some fn)
    (args : I.MeetsAll params vs es d fun ws d₁ => Total (I.program.apply fn ws) d₁ Q) :
    I.Meets params vs pos (.call text es) d Q := by
  rintro f E ⟨prefetched, argsE, rfl, noted, resolves⟩
  apply total_call (args f argsE resolves) ((I.bound _ fn named).later later)
  rcases noted with nothing | equal
  · exact .inl nothing
  · exact .inr (equal.trans named)

/-- A known function is applied: its body comes to a value. -/
theorem total_known {fn : FRef} {body : Form} (known : I.Known fn params body)
    (count : vs.length = params.length) (few : vs.length < 2 ^ 31)
    (inside : I.Meets params vs .next body d Q) : Total (I.program.apply fn vs) d Q := by
  rcases known with ⟨bodyE, callee, resolves⟩
  rw [← count] at callee
  exact total_applyUser callee few (inside fn bodyE resolves)

/-! ### Sources -/

theorem meetsSource_nil (holds : R [] d) : I.MeetsSource [] d R := by
  rintro f low argsE linked
  cases linked
  exact total_argsNil holds

theorem meetsSource_expr {e : Form} {es : List Form} (plain : e.defined? = none)
    (first : I.Meets [] [] .next e d fun v d₁ =>
      I.MeetsSource es d₁ fun ws d₂ => R (v :: ws) d₂) :
    I.MeetsSource (e :: es) d R := by
  intro f low argsE linked
  cases linked with
  | expr _ resolves others =>
      apply total_argsCons
      exact (first f _ resolves).imp fun v d₁ later rest => rest f low _ others
  | definition => cases plain

/-- A definition leaves the name of the function. -/
theorem meetsSource_definition {text : List Chr} {ps : List (List Chr)} {body : Form}
    {es : List Form} (later : I.data ≤ d)
    (rest : ∀ v, d.payload v = some (.symbol (aklGetOrCreateSymbol text)) →
      I.MeetsSource es d fun ws d₂ => R (v :: ws) d₂) :
    I.MeetsSource (.defun text ps body :: es) d R := by
  intro f low argsE linked
  cases linked with
  | expr plain => cases plain
  | definition payload _ _ _ _ _ others =>
      apply total_argsCons
      exact total_lit (rest _ (Data.payload_later later payload) f _ _ others)

end Rules

end Image

end AkLisp
