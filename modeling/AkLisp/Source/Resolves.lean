import AkLisp.Compiler.Layout
import AkLisp.Source.Form

/-!
# What an expression is compiled to

`Form.Resolves` says which compiled form stands for an expression: literals and
quoted data are values that denote them, names are parameters or globals, and
the functions an expression defines have the code of their bodies.  A name and a
definition are compiled differently in different positions.
-/

namespace AkLisp

/-- Where an expression stands. -/
inductive Position where
  /-- where `akl_compile_next` compiles it -/
  | next
  /-- on the right-hand side of `set!` -/
  | rhs
  /-- as an argument of a call -/
  | arg
  deriving DecidableEq, Repr

/-- What a `lambda` with this function value is compiled to. -/
def Position.lambda (fval : VRef) : Position → Expr
  | .next => .pushes []
  | .rhs | .arg => .lit fval

/-- What a `defun!` with this value of its name and this function value is
compiled to. -/
def Position.defun (name fval : VRef) : Position → Expr
  | .next => .lit name
  | .rhs | .arg => .pushes [name, fval]

/-- What a name is compiled to as an argument. -/
def operandOf (args : List Symbol) (sym : Symbol) : Expr :=
  match args.findIdx? (· = sym) with
  | some k => .param k
  | none => .global sym

/-- What exists in a state. -/
def Data.present (d : Data) : Footprint := ⟨fun a => a < d.entries.top, fun _ => True⟩

section

variable [Libc] (fetched : Symbol → Option FRef → Prop)

mutual

/-- The compiled form stands for the expression, in a function `f` with the
parameters `args`.  The relation `fetched` says which function may have been
noted for a call. -/
def Form.Resolves (funs : List AklFunction) (d : Data) :
    FRef → List Symbol → Position → Form → Expr → Prop
  | _, _, _, .literal c, E => ∃ v, E = .lit v ∧ c.datum.Denoted d d.present v
  | _, _, _, .quoted x, E => ∃ v, E = .lit v ∧ x.Denoted d d.present v
  | _, args, pos, .name text, E =>
      match pos with
      | .arg => E = operandOf args (aklGetOrCreateSymbol text)
      | _ => ∃ v, E = .lit v ∧ d.payload v = some (.symbol (aklGetOrCreateSymbol text))
  | f, args, _, .call head es, E =>
      ∃ prefetched argsE, E = .call (aklGetOrCreateSymbol head) prefetched argsE ∧
        fetched (aklGetOrCreateSymbol head) prefetched ∧ es.Resolves funs d f args argsE
  | f, args, _, .sif c a b, E =>
      ∃ cE aE bE, E = .sif cE aE bE ∧ c.Resolves funs d f args .next cE ∧
        a.Resolves funs d f args .next aE ∧ b.Resolves funs d f args .next bE
  | f, args, _, .set name e, E =>
      ∃ eE, E = .set (aklGetOrCreateSymbol name) eE ∧ e.Resolves funs d f args .rhs eE
  | f, args, _, .when c a, E =>
      ∃ cE aE, E = .when cE aE ∧ c.Resolves funs d f args .next cE ∧
        a.Resolves funs d f args .next aE
  | f, args, _, .swhile c a, E =>
      ∃ cE aE, E = .swhile cE aE ∧ c.Resolves funs d f args .next cE ∧
        a.Resolves funs d f args .next aE
  | f, _, pos, .lambda params body, E =>
      ∃ func bodyE fval, E = pos.lambda fval ∧
        (pos ≠ .next → d.payload fval = some (.function func)) ∧
        f < func ∧ Draft funs func (params.map aklGetOrCreateSymbol) (bodyE.code func 0)
          (boundLabels func 0 (bodyE.binds 0)) ∧
        body.Resolves funs d func (params.map aklGetOrCreateSymbol) .next bodyE
  | f, _, pos, .defun name params body, E =>
      ∃ func bodyE nval fval, E = pos.defun nval fval ∧
        d.payload nval = some (.symbol (aklGetOrCreateSymbol name)) ∧
        (pos ≠ .next → d.payload fval = some (.function func)) ∧
        f < func ∧ Draft funs func (params.map aklGetOrCreateSymbol) (bodyE.code func 0)
          (boundLabels func 0 (bodyE.binds 0)) ∧
        body.Resolves funs d func (params.map aklGetOrCreateSymbol) .next bodyE

/-- The compiled arguments stand for the arguments. -/
def Forms.Resolves (funs : List AklFunction) (d : Data) :
    FRef → List Symbol → Forms → Args → Prop
  | _, _, .nil, argsE => argsE = .nil
  | f, args, .cons e es, argsE =>
      ∃ eE esE, argsE = .cons eE esE ∧ e.Resolves funs d f args .arg eE ∧
        es.Resolves funs d f args esE

end

end

/-! ### Later states -/

theorem Data.Keeps.present {d d' : Data} (keeps : d.Keeps d' d.existing) :
    d.Keeps d' d.present where
  values := keeps.values
  next := keeps.next
  prev := keeps.prev
  data := keeps.data
  list := fun l header _ found =>
    keeps.list l header (List.getElem?_eq_some_iff.mp found).1 found
  top := keeps.top
  lists := keeps.lists

/-- A datum denoted by what exists is still denoted later. -/
theorem Datum.Denoted.later {d d' : Data} [Libc] (keeps : d.Keeps d' d.existing) {v : VRef}
    {x : Datum} (denoted : x.Denoted d d.present v) : x.Denoted d' d'.present v :=
  (Datum.Denoted.keeps keeps.present denoted).mono
    (fun _ below => Nat.lt_of_lt_of_le below keeps.top) fun _ _ => trivial

/-- The functions behind `f` are still there. -/
def KeptBehind (f : FRef) (funs funs' : List AklFunction) : Prop :=
  ∀ g fn, f < g → funs[g]? = some fn → funs'[g]? = some fn

theorem KeptBehind.draft {f g : FRef} {funs funs' : List AklFunction}
    (kept : KeptBehind f funs funs') (behind : f < g) {args : List Symbol} {code : List Instr}
    {labels : List Label} (draft : Draft funs g args code labels) :
    Draft funs' g args code labels := by
  obtain ⟨body, found, bodyEq⟩ := draft
  exact ⟨body, kept g _ behind found, bodyEq⟩

theorem KeptBehind.mono {f g : FRef} {funs funs' : List AklFunction}
    (kept : KeptBehind f funs funs') (behind : f < g) : KeptBehind g funs funs' :=
  fun h fn further found => kept h fn (Nat.lt_trans behind further) found

theorem Extends.keptBehind {f : FRef} {s s' : CompState Unit} (extended : Extends f s s') :
    KeptBehind f s.funs s'.funs :=
  fun g fn behind found => extended.funs g fn (Nat.ne_of_gt behind) found

section Later

variable [Libc] {fetched : Symbol → Option FRef → Prop} {funs funs' : List AklFunction}
  {d d' : Data}

mutual

/-- What an expression is compiled to does not change when the compiler goes on. -/
theorem Form.Resolves.later (keeps : d.Keeps d' d.existing) : ∀ (e : Form) {f : FRef}
    {args : List Symbol} {pos : Position} {E : Expr}, KeptBehind f funs funs' →
    e.Resolves fetched funs d f args pos E → e.Resolves fetched funs' d' f args pos E
  | .literal _, _, _, _, _, _, ⟨v, exprEq, denoted⟩ => ⟨v, exprEq, denoted.later keeps⟩
  | .quoted _, _, _, _, _, _, ⟨v, exprEq, denoted⟩ => ⟨v, exprEq, denoted.later keeps⟩
  | .name _, _, _, .arg, _, _, resolves => resolves
  | .name _, _, _, .next, _, _, ⟨v, exprEq, payload⟩ =>
      ⟨v, exprEq, keeps.payload payload⟩
  | .name _, _, _, .rhs, _, _, ⟨v, exprEq, payload⟩ =>
      ⟨v, exprEq, keeps.payload payload⟩
  | .call _ es, _, _, _, _, kept, ⟨prefetched, argsE, exprEq, noted, args⟩ =>
      ⟨prefetched, argsE, exprEq, noted, Forms.Resolves.later keeps es kept args⟩
  | .sif c a b, _, _, _, _, kept, ⟨cE, aE, bE, exprEq, cond, body, other⟩ =>
      ⟨cE, aE, bE, exprEq, Form.Resolves.later keeps c kept cond,
        Form.Resolves.later keeps a kept body, Form.Resolves.later keeps b kept other⟩
  | .set _ e, _, _, _, _, kept, ⟨eE, exprEq, rhs⟩ =>
      ⟨eE, exprEq, Form.Resolves.later keeps e kept rhs⟩
  | .when c a, _, _, _, _, kept, ⟨cE, aE, exprEq, cond, body⟩ =>
      ⟨cE, aE, exprEq, Form.Resolves.later keeps c kept cond,
        Form.Resolves.later keeps a kept body⟩
  | .swhile c a, _, _, _, _, kept, ⟨cE, aE, exprEq, cond, body⟩ =>
      ⟨cE, aE, exprEq, Form.Resolves.later keeps c kept cond,
        Form.Resolves.later keeps a kept body⟩
  | .lambda _ body, _, _, _, _, kept,
      ⟨func, bodyE, fval, exprEq, function, behind, draft, inside⟩ =>
      ⟨func, bodyE, fval, exprEq, fun other => keeps.payload (function other), behind,
        kept.draft behind draft, Form.Resolves.later keeps body (kept.mono behind) inside⟩
  | .defun _ _ body, _, _, _, _, kept,
      ⟨func, bodyE, nval, fval, exprEq, symbol, function, behind, draft, inside⟩ =>
      ⟨func, bodyE, nval, fval, exprEq, keeps.payload symbol,
        fun other => keeps.payload (function other), behind, kept.draft behind draft,
        Form.Resolves.later keeps body (kept.mono behind) inside⟩

theorem Forms.Resolves.later (keeps : d.Keeps d' d.existing) : ∀ (es : Forms) {f : FRef}
    {args : List Symbol} {argsE : Args}, KeptBehind f funs funs' →
    es.Resolves fetched funs d f args argsE → es.Resolves fetched funs' d' f args argsE
  | .nil, _, _, _, _, resolves => resolves
  | .cons e es, _, _, _, kept, ⟨eE, esE, argsEq, first, others⟩ =>
      ⟨eE, esE, argsEq, Form.Resolves.later keeps e kept first,
        Forms.Resolves.later keeps es kept others⟩

end

end Later

section Noted

variable [Libc] {fetched fetched' : Symbol → Option FRef → Prop} {funs : List AklFunction}
  {d : Data}

mutual

/-- Less may be said of the functions that are noted for calls. -/
theorem Form.Resolves.mono (weaker : ∀ sym fun_, fetched sym fun_ → fetched' sym fun_) :
    ∀ (e : Form) {f : FRef} {args : List Symbol} {pos : Position} {E : Expr},
      e.Resolves fetched funs d f args pos E → e.Resolves fetched' funs d f args pos E
  | .literal _, _, _, _, _, resolves => resolves
  | .quoted _, _, _, _, _, resolves => resolves
  | .name _, _, _, .arg, _, resolves => resolves
  | .name _, _, _, .next, _, resolves => resolves
  | .name _, _, _, .rhs, _, resolves => resolves
  | .call _ es, _, _, _, _, ⟨prefetched, argsE, exprEq, noted, args⟩ =>
      ⟨prefetched, argsE, exprEq, weaker _ _ noted, Forms.Resolves.mono weaker es args⟩
  | .sif c a b, _, _, _, _, ⟨cE, aE, bE, exprEq, cond, body, other⟩ =>
      ⟨cE, aE, bE, exprEq, Form.Resolves.mono weaker c cond, Form.Resolves.mono weaker a body,
        Form.Resolves.mono weaker b other⟩
  | .set _ e, _, _, _, _, ⟨eE, exprEq, rhs⟩ => ⟨eE, exprEq, Form.Resolves.mono weaker e rhs⟩
  | .when c a, _, _, _, _, ⟨cE, aE, exprEq, cond, body⟩ =>
      ⟨cE, aE, exprEq, Form.Resolves.mono weaker c cond, Form.Resolves.mono weaker a body⟩
  | .swhile c a, _, _, _, _, ⟨cE, aE, exprEq, cond, body⟩ =>
      ⟨cE, aE, exprEq, Form.Resolves.mono weaker c cond, Form.Resolves.mono weaker a body⟩
  | .lambda _ body, _, _, _, _, ⟨func, bodyE, fval, exprEq, function, behind, draft, inside⟩ =>
      ⟨func, bodyE, fval, exprEq, function, behind, draft, Form.Resolves.mono weaker body inside⟩
  | .defun _ _ body, _, _, _, _,
      ⟨func, bodyE, nval, fval, exprEq, symbol, function, behind, draft, inside⟩ =>
      ⟨func, bodyE, nval, fval, exprEq, symbol, function, behind, draft,
        Form.Resolves.mono weaker body inside⟩

theorem Forms.Resolves.mono (weaker : ∀ sym fun_, fetched sym fun_ → fetched' sym fun_) :
    ∀ (es : Forms) {f : FRef} {args : List Symbol} {argsE : Args},
      es.Resolves fetched funs d f args argsE → es.Resolves fetched' funs d f args argsE
  | .nil, _, _, _, resolves => resolves
  | .cons e es, _, _, _, ⟨eE, esE, argsEq, first, others⟩ =>
      ⟨eE, esE, argsEq, Form.Resolves.mono weaker e first, Forms.Resolves.mono weaker es others⟩

end

end Noted

end AkLisp
