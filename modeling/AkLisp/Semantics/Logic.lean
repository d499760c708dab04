import AkLisp.Evaluation.Total
import AkLisp.Semantics.Eval
import Mathlib.Data.List.Infix

/-!
# Reasoning about evaluations

The evaluations of a program that note no slip are tasks that come to a result.  Values
are never changed, and a name that is bound to a function stays bound to it, so what is
known of these is known of all later data.  A C function that neither pushes nor calls
has an outcome that can be computed.
-/

namespace AkLisp

open Evaluation

/-- Later data have the values there were, and the functions under their names. -/
instance : Preorder Data where
  le d d' := d.values <+: d'.values ∧ ∀ sym r fn, d.globals sym = some r →
    d.function? r = some fn → d'.globals sym = some r
  le_refl d := ⟨List.prefix_refl _, fun _ _ _ bound _ => bound⟩
  le_trans d₁ d₂ d₃ first second := by
    refine ⟨first.1.trans second.1, ?_⟩
    intro sym r fn bound function
    apply second.2 sym r fn (first.2 sym r fn bound function)
    rcases first.1 with ⟨more, valuesEq⟩
    unfold Data.function? Data.payload at function ⊢
    cases found : d₁.values[r]? with
    | none => simp [found] at function
    | some value =>
        have inside := (List.getElem?_eq_some_iff.mp found).1
        rw [← valuesEq, List.getElem?_append_left inside]
        exact function

namespace Data

variable {d d' : Data}

theorem value_later (later : d ≤ d') {v : VRef} {value : AklValue}
    (found : d.values[v]? = some value) : d'.values[v]? = some value := by
  rcases later.1 with ⟨more, valuesEq⟩
  rw [← valuesEq, List.getElem?_append_left (List.getElem?_eq_some_iff.mp found).1]
  exact found

theorem payload_later (later : d ≤ d') {v : VRef} {p : Payload} (found : d.payload v = some p) :
    d'.payload v = some p := by
  rcases Option.map_eq_some_iff.mp found with ⟨value, valueEq, rfl⟩
  rw [payload, value_later later valueEq]
  rfl

theorem function_later (later : d ≤ d') {v : VRef} {fn : FRef}
    (function : d.function? v = some fn) : d'.function? v = some fn := by
  unfold function? at function ⊢
  split at function
  · next found => rw [payload_later later found]; exact function
  · cases function

/-- The name of a function. -/
def Binds (d : Data) (sym : Symbol) (fn : FRef) : Prop :=
  ∃ r, d.globals sym = some r ∧ d.function? r = some fn

theorem Binds.later {sym : Symbol} {fn : FRef} (binds : d.Binds sym fn) (later : d ≤ d') :
    d'.Binds sym fn := by
  rcases binds with ⟨r, bound, function⟩
  exact ⟨r, later.2 sym r fn bound function, function_later later function⟩

theorem monotone_binds (sym : Symbol) (fn : FRef) : Monotone fun d : Data => d.Binds sym fn :=
  fun _ _ later binds => binds.later later

theorem le_newValue (d : Data) (value : AklValue) : d ≤ (d.newValue value).2 :=
  ⟨List.prefix_append _ _, fun _ _ _ bound _ => bound⟩

/-- The two static values. -/
def Statics (d : Data) : Prop := [nilValue, trueValue] <+: d.values

theorem Statics.later (statics : d.Statics) (later : d ≤ d') : d'.Statics :=
  statics.trans later.1

theorem Statics.isNil_nil (statics : d.Statics) : d.isNil (some aklNil) = true := by
  rcases statics with ⟨more, valuesEq⟩
  simp [isNil, ← valuesEq, aklNil, nilValue]

theorem Statics.isNil_true (statics : d.Statics) : d.isNil (some aklTrue) = false := by
  rcases statics with ⟨more, valuesEq⟩
  simp [isNil, ← valuesEq, aklTrue, trueValue]

end Data

namespace Program

variable (Γ : Program)

/-- The evaluation of an expression. -/
def expr (ps : List VRef) (e : Expr) (d : Data) (v : VRef) (d' : Data) : Prop :=
  Eval Γ (.expr ps e) d [] [v] d'

/-- The evaluation of arguments. -/
def args (ps : List VRef) (es : Args) (d : Data) (vs : List VRef) (d' : Data) : Prop :=
  Eval Γ (.args ps es) d [] vs d'

/-- The call of a function. -/
def apply (fn : FRef) (vs : List VRef) (d : Data) (v : VRef) (d' : Data) : Prop :=
  Eval Γ (.apply fn vs) d [] [v] d'

/-- The rest of a C function. -/
def cprog (prog : CProg) (vs own : List VRef) (d : Data) (v : VRef) (d' : Data) : Prop :=
  Eval Γ (.cprog prog vs own) d [] [v] d'

end Program

section Rules

variable {Γ : Program} {ps vs own : List VRef} {e : Expr} {es : Args} {d : Data}
  {Q : VRef → Data → Prop} {R : List VRef → Data → Prop} {fn : FRef}

/-! ### Expressions -/

theorem total_lit {v : VRef} (holds : Q v d) : Total (Γ.expr ps (.lit v)) d Q :=
  .of_run Eval.lit le_rfl holds

theorem total_param {k : Nat} {v : VRef} (given : ps[k]? = some v) (holds : Q v d) :
    Total (Γ.expr ps (.param k)) d Q :=
  .of_run (Eval.param given) le_rfl holds

theorem total_global {x : Symbol} {v : VRef} (found : d.globals x = some v) (holds : Q v d) :
    Total (Γ.expr ps (.global x)) d Q :=
  .of_run (Eval.globalBound found) le_rfl holds

/-- Which branch is taken depends on the value of the condition. -/
theorem total_sif {c a b : Expr}
    (cond : Total (Γ.expr ps c) d fun w d₁ =>
      Total (Γ.expr ps (if d₁.isNil (some w) then b else a)) d₁ Q) :
    Total (Γ.expr ps (.sif c a b)) d Q := by
  apply cond.bind
  intro w d₁ v d₂ condRun branchRun
  cases holds : d₁.isNil (some w) with
  | true =>
      rw [holds] at branchRun
      exact .sifFalse condRun holds branchRun
  | false =>
      rw [holds] at branchRun
      exact .sifTrue condRun holds branchRun

/-! ### Calls -/

theorem total_argsNil (holds : R [] d) : Total (Γ.args ps .nil) d R :=
  .of_run Eval.argsNil le_rfl holds

theorem total_argsCons
    (first : Total (Γ.expr ps e) d fun v d₁ =>
      Total (Γ.args ps es) d₁ fun vs d₂ => R (v :: vs) d₂) :
    Total (Γ.args ps (.cons e es)) d R :=
  first.bind fun _ _ _ _ firstRun othersRun => .argsCons firstRun othersRun

/-- A call evaluates its arguments and applies the function its name is bound to then. -/
theorem total_call {name : Symbol} {prefetched : Option FRef}
    (args : Total (Γ.args ps es) d fun vs d₁ => Total (Γ.apply fn vs) d₁ Q)
    (binds : d.Binds name fn) (noted : prefetched = none ∨ prefetched = some fn) :
    Total (Γ.expr ps (.call name prefetched es)) d Q := by
  have bound := args.frame (Data.monotone_binds name fn) binds
  apply Total.bind (bound.imp fun vs d₁ _ both => both.1.via fun v d₂ run => And.intro both.2 run)
  rintro vs d₁ v d₂ argsRun ⟨⟨r, found, function⟩, applied⟩
  exact .call argsRun found function noted applied

theorem total_applyUser {body : Expr} (callee : Γ fn = some (.user vs.length body))
    (few : vs.length < 2 ^ 31) (inside : Total (Γ.expr vs body) d Q) :
    Total (Γ.apply fn vs) d Q :=
  inside.via fun _ _ run => .applyUser callee few run

theorem total_applyCfun {cfun : Nat → CProg} (callee : Γ fn = some (.cfun cfun))
    (few : vs.length < 2 ^ 31) (inside : Total (Γ.cprog (cfun vs.length) vs []) d Q) :
    Total (Γ.apply fn vs) d Q :=
  inside.via fun _ _ run => .applyCfun callee few run

/-! ### C functions -/

section

variable {k : Option VRef → CProg} {next : CProg}

theorem total_shift {take : Option VRef → CProg}
    (inside : Total (Γ.cprog (take vs.head?) vs.tail own) d Q) :
    Total (Γ.cprog (.shift take) vs own) d Q :=
  inside.via fun _ _ run => .shift run

theorem total_read {look : Data → CProg} (inside : Total (Γ.cprog (look d) vs own) d Q) :
    Total (Γ.cprog (.read look) vs own) d Q :=
  inside.via fun _ _ run => .read run

end

/-- What a C function returns that neither pushes nor calls, with the data it leaves. -/
def CProg.outcome : CProg → List VRef → Data → Option (VRef × Data)
  | .ret (some v), _, d => some (v, d)
  | .shift k, vs, d => (k vs.head?).outcome vs.tail d
  | .pop k, vs, d => (k vs.getLast?).outcome vs.dropLast d
  | .read k, vs, d => (k d).outcome vs d
  | .write f k, vs, d => k.outcome vs (f d)
  | .raise _ _ k, vs, d => k.outcome vs d
  | _, _, _ => none

/-- The evaluator finds the outcome. -/
theorem CProg.outcome_eval {prog : CProg} {v : VRef} {d' : Data}
    (outcome : prog.outcome vs d = some (v, d')) : Γ.cprog prog vs [] d v d' := by
  induction prog generalizing vs d with
  | ret value =>
      cases value with
      | none => cases outcome
      | some w =>
          cases outcome
          exact .ret
  | shift k ih => exact .shift (ih _ outcome)
  | pop k ih => exact .pop (ih _ outcome)
  | read k ih => exact .read (ih _ outcome)
  | write f k ih => exact .write (ih outcome)
  | raise level message k ih => exact .raise (ih outcome)
  | _ => cases outcome

theorem total_outcome {prog : CProg} {v : VRef} {d' : Data}
    (outcome : prog.outcome vs d = some (v, d')) (later : d ≤ d') (holds : Q v d') :
    Total (Γ.cprog prog vs []) d Q :=
  .of_run (CProg.outcome_eval outcome) later holds

end Rules

end AkLisp
