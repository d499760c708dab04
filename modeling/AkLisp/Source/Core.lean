import AkLisp.Semantics.Eval
import AkLisp.Source.Resolves

/-!
# The core language

Literals, quoted data, calls, `if` and `set!`, with names as arguments only.  What
such an expression is compiled to pushes one value on every path, so an evaluation
in a program of core functions notes no slip.
-/

namespace AkLisp

mutual

/-- An expression of the core language, the calls having a name out of `functions` at
their heads. -/
def Form.Core (functions : Symbol → Prop) : Form → Prop
  | .literal _ | .quoted _ => True
  | .call head es => functions (aklGetOrCreateSymbol head) ∧ es.Core functions
  | .sif c a b => c.Core functions ∧ a.Core functions ∧ b.Core functions
  | .set _ e => e.Core functions
  | _ => False

/-- The arguments are names or expressions of the core language. -/
def Forms.Core (functions : Symbol → Prop) : Forms → Prop
  | .nil => True
  | .cons e es => (e.IsName ∨ e.Core functions) ∧ es.Core functions

end

section

variable {functions : Symbol → Prop}

theorem Form.IsName.wellFormed {e : Form} (name : e.IsName) : e.WellFormed functions := by
  cases e with
  | name => trivial
  | _ => cases name

theorem Form.IsName.not_defines {e : Form} (name : e.IsName) : ¬e.Defines := by
  cases e with
  | name => exact id
  | _ => cases name

mutual

theorem Form.Core.wellFormed : ∀ {e : Form}, e.Core functions → e.WellFormed functions
  | .literal _, _ | .quoted _, _ => trivial
  | .call _ _, ⟨called, arguments⟩ => ⟨called, Forms.Core.wellFormed arguments⟩
  | .sif _ _ _, ⟨cond, body, other⟩ =>
      ⟨Form.Core.wellFormed cond, Form.Core.wellFormed body, Form.Core.wellFormed other⟩
  | .set _ e, core => Form.Core.wellFormed (e := e) core

theorem Forms.Core.wellFormed : ∀ {es : Forms}, es.Core functions → es.WellFormed functions
  | .nil, _ => trivial
  | .cons _ _, ⟨first, others⟩ =>
      ⟨first.elim Form.IsName.wellFormed fun core => Form.Core.wellFormed core,
        Forms.Core.wellFormed others⟩

end

mutual

theorem Form.Core.not_defines : ∀ {e : Form}, e.Core functions → ¬e.Defines
  | .literal _, _ | .quoted _, _ => id
  | .call _ _, ⟨_, arguments⟩ => Forms.Core.not_defines arguments
  | .sif _ _ _, ⟨cond, body, other⟩ => fun defines =>
      defines.elim (Form.Core.not_defines cond) fun defines =>
        defines.elim (Form.Core.not_defines body) (Form.Core.not_defines other)
  | .set _ e, core => Form.Core.not_defines (e := e) core

theorem Forms.Core.not_defines : ∀ {es : Forms}, es.Core functions → ¬es.Defines
  | .nil, _ => id
  | .cons _ _, ⟨first, others⟩ => fun defines =>
      defines.elim (first.elim Form.IsName.not_defines fun core => Form.Core.not_defines core)
        (Forms.Core.not_defines others)

end

end

/-! ### Compiled forms -/

mutual

/-- A compiled form that pushes one value on every path. -/
def Expr.Plain : Expr → Prop
  | .lit _ | .param _ | .global _ => True
  | .call _ _ args => args.Plain
  | .sif c a b => c.Plain ∧ a.Plain ∧ b.Plain
  | .set _ e => e.Plain
  | .when _ _ | .swhile _ _ | .pushes _ => False

def Args.Plain : Args → Prop
  | .nil => True
  | .cons e es => e.Plain ∧ es.Plain

end

theorem operandOf_plain (args : List Symbol) (sym : Symbol) : (operandOf args sym).Plain := by
  unfold operandOf
  split
  · trivial
  · trivial

section

variable [Libc] {functions : Symbol → Prop} {fetched : Symbol → Option FRef → Prop}
  {funs : List AklFunction} {d : Data}

mutual

/-- What a core expression is compiled to is plain. -/
theorem Form.Core.plain : ∀ {e : Form} {f : FRef} {args : List Symbol} {pos : Position}
    {E : Expr}, e.Core functions → e.Resolves fetched funs d f args pos E → E.Plain
  | .literal _, _, _, _, _, _, ⟨_, exprEq, _⟩ => exprEq ▸ trivial
  | .quoted _, _, _, _, _, _, ⟨_, exprEq, _⟩ => exprEq ▸ trivial
  | .call _ _, _, _, _, _, ⟨_, arguments⟩, ⟨_, _, exprEq, _, resolves⟩ =>
      exprEq ▸ Forms.Core.plain arguments resolves
  | .sif _ _ _, _, _, _, _, ⟨cond, body, other⟩, ⟨_, _, _, exprEq, condR, bodyR, otherR⟩ =>
      exprEq ▸ ⟨Form.Core.plain cond condR, Form.Core.plain body bodyR,
        Form.Core.plain other otherR⟩
  | .set _ e, _, _, _, _, core, ⟨_, exprEq, resolves⟩ =>
      have plain := Form.Core.plain (e := e) core resolves
      exprEq ▸ plain

theorem Forms.Core.plain : ∀ {es : Forms} {f : FRef} {args : List Symbol} {argsE : Args},
    es.Core functions → es.Resolves fetched funs d f args argsE → argsE.Plain
  | .nil, _, _, _, _, argsEq => by
      cases argsEq
      trivial
  | .cons (.name text) _, _, args, _, ⟨_, others⟩, ⟨_, _, argsEq, exprEq, resolves⟩ =>
      argsEq ▸ ⟨exprEq ▸ operandOf_plain args (aklGetOrCreateSymbol text),
        Forms.Core.plain others resolves⟩
  | .cons _ _, _, _, _, ⟨.inr core, others⟩, ⟨_, _, argsEq, first, resolves⟩ =>
      argsEq ▸ ⟨Form.Core.plain core first, Forms.Core.plain others resolves⟩

end

end

/-! ### Evaluation -/

/-- A task in which every form is plain. -/
def Task.Plain : Task → Prop
  | .expr _ e => e.Plain
  | .args _ es => es.Plain
  | .loop _ _ _ _ => False
  | .apply _ _ | .cprog _ _ _ => True

/-- The evaluation of a plain task notes no slip, if the user functions have plain
bodies. -/
theorem Eval.clean {Γ : Program}
    (bodies : ∀ fn argc body, Γ fn = some (.user argc body) → body.Plain)
    {task : Task} {d d' : Data} {slips : List Slip} {vs : List VRef}
    (eval : Eval Γ task d slips vs d') (plain : task.Plain) : slips = [] := by
  induction eval with
  | lit | param | globalBound | globalUndefined | argsNil | ret => rfl
  | pushes => cases plain
  | call _ _ _ _ _ ihArgs ihApplied => rw [ihArgs plain, ihApplied trivial]; rfl
  | sifTrue _ _ _ ihCond ihBody => rw [ihCond plain.1, ihBody plain.2.1]; rfl
  | sifFalse _ _ _ ihCond ihBody => rw [ihCond plain.1, ihBody plain.2.2]; rfl
  | set _ ih => exact ih plain
  | whenTrue | whenFalse | swhile | loopEnd | loopRound => cases plain
  | argsCons _ _ ihFirst ihOthers => rw [ihFirst plain.1, ihOthers plain.2]; rfl
  | applyUser callee _ _ ih => exact ih (bodies _ _ _ callee)
  | applyCfun _ _ _ ih => exact ih trivial
  | shift _ ih | pop _ ih | push _ ih | stackPop _ ih | read _ ih | write _ ih | raise _ ih =>
      exact ih trivial
  | callback _ _ ihApplied ihNext => rw [ihApplied trivial, ihNext trivial]; rfl

end AkLisp
