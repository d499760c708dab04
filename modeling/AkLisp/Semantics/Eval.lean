import AkLisp.Semantics.Expr

/-!
# The reference evaluator

`Eval` evaluates compiled forms directly, without a stack: arguments from left
to right, parameter `k` is the `k`-th argument, an undefined global reads as
`NIL`.  Every expression has exactly one value.  Where the code of a form
leaves another number of values on the stack, the evaluation notes a slip.
-/

namespace AkLisp

/-- What is called by a function pointer: a C function, or a user function with
its number of parameters and its body. -/
inductive Callee where
  | cfun (cfun : Nat → CProg)
  | user (argc : Nat) (body : Expr)

/-- The functions of a program. -/
abbrev Program := FRef → Option Callee

/-- A place where the code of a form does not push exactly one value. -/
inductive Slip where
  /-- the condition of a `when` was `NIL` -/
  | whenFalse
  /-- the body of a `while` ran that number of times, which is not one -/
  | whileRounds (n : Nat)
  /-- a definition or `lambda` in a position where it pushes that many values -/
  | pushes (n : Nat)
  deriving DecidableEq, Repr

/-- What is evaluated. -/
inductive Task where
  /-- an expression with given arguments of the enclosing function -/
  | expr (ps : List VRef) (e : Expr)
  /-- the arguments of a call -/
  | args (ps : List VRef) (es : Args)
  /-- a `while`, the rounds behind it having had these values -/
  | loop (ps : List VRef) (c a : Expr) (done : List VRef)
  /-- a function applied to arguments -/
  | apply (fn : FRef) (args : List VRef)
  /-- the rest of a C function, with the arguments it has not taken and the
  values it has pushed -/
  | cprog (prog : CProg) (args own : List VRef)

/-- The evaluation of a task in a state of the data: slips, values, new data.
A C function has to leave the stack below its arguments alone, and it has to
take back what it pushes. -/
inductive Eval (Γ : Program) : Task → Data → List Slip → List VRef → Data → Prop where
  | lit {ps v d} : Eval Γ (.expr ps (.lit v)) d [] [v] d
  | param {ps : List VRef} {k v d} (found : ps[k]? = some v) :
      Eval Γ (.expr ps (.param k)) d [] [v] d
  | globalBound {ps x} {d : Data} {v} (found : d.globals x = some v) :
      Eval Γ (.expr ps (.global x)) d [] [v] d
  | globalUndefined {ps x} {d : Data} (undefined : d.globals x = none) :
      Eval Γ (.expr ps (.global x)) d [] [d.newNilValue.1] d.newNilValue.2
  | pushes {ps vs d} :
      Eval Γ (.expr ps (.pushes vs)) d [.pushes vs.length] [vs.headD Data.aklNil] d
  | call {ps name prefetched es d₀ s₁ vs d₁ r fn s₂ v d₂}
      (args : Eval Γ (.args ps es) d₀ s₁ vs d₁)
      (bound : d₁.globals name = some r) (function : d₁.function? r = some fn)
      (keeps : prefetched = none ∨ prefetched = some fn)
      (applied : Eval Γ (.apply fn vs) d₁ s₂ [v] d₂) :
      Eval Γ (.expr ps (.call name prefetched es)) d₀ (s₁ ++ s₂) [v] d₂
  | sifTrue {ps c a b d₀ s₁ w} {d₁ : Data} {s₂ v d₂}
      (cond : Eval Γ (.expr ps c) d₀ s₁ [w] d₁) (holds : d₁.isNil (some w) = false)
      (body : Eval Γ (.expr ps a) d₁ s₂ [v] d₂) :
      Eval Γ (.expr ps (.sif c a b)) d₀ (s₁ ++ s₂) [v] d₂
  | sifFalse {ps c a b d₀ s₁ w} {d₁ : Data} {s₂ v d₂}
      (cond : Eval Γ (.expr ps c) d₀ s₁ [w] d₁) (fails : d₁.isNil (some w) = true)
      (body : Eval Γ (.expr ps b) d₁ s₂ [v] d₂) :
      Eval Γ (.expr ps (.sif c a b)) d₀ (s₁ ++ s₂) [v] d₂
  | set {ps x e d₀ s v} {d₁ : Data} (rhs : Eval Γ (.expr ps e) d₀ s [v] d₁) :
      Eval Γ (.expr ps (.set x e)) d₀ s [v] (d₁.aklSetGlobalVar x v)
  | whenTrue {ps c a d₀ s₁ w} {d₁ : Data} {s₂ v d₂}
      (cond : Eval Γ (.expr ps c) d₀ s₁ [w] d₁) (holds : d₁.isNil (some w) = false)
      (body : Eval Γ (.expr ps a) d₁ s₂ [v] d₂) :
      Eval Γ (.expr ps (.when c a)) d₀ (s₁ ++ s₂) [v] d₂
  | whenFalse {ps c a d₀ s₁ w} {d₁ : Data}
      (cond : Eval Γ (.expr ps c) d₀ s₁ [w] d₁) (fails : d₁.isNil (some w) = true) :
      Eval Γ (.expr ps (.when c a)) d₀ (s₁ ++ [.whenFalse]) [Data.aklNil] d₁
  | swhile {ps c a d s v d'} (rounds : Eval Γ (.loop ps c a []) d s [v] d') :
      Eval Γ (.expr ps (.swhile c a)) d s [v] d'
  | loopEnd {ps c a d₀ s w} {d₁ : Data} {done : List VRef}
      (cond : Eval Γ (.expr ps c) d₀ s [w] d₁) (fails : d₁.isNil (some w) = true) :
      Eval Γ (.loop ps c a done) d₀
        (s ++ if done.length = 1 then [] else [.whileRounds done.length])
        [done.getLastD Data.aklNil] d₁
  | loopRound {ps c a d₀ s₁ w} {d₁ : Data} {s₂ u d₂ s₃ v d₃} {done : List VRef}
      (cond : Eval Γ (.expr ps c) d₀ s₁ [w] d₁) (holds : d₁.isNil (some w) = false)
      (body : Eval Γ (.expr ps a) d₁ s₂ [u] d₂)
      (rounds : Eval Γ (.loop ps c a (done ++ [u])) d₂ s₃ [v] d₃) :
      Eval Γ (.loop ps c a done) d₀ (s₁ ++ s₂ ++ s₃) [v] d₃
  | argsNil {ps d} : Eval Γ (.args ps .nil) d [] [] d
  | argsCons {ps e es d₀ s₁ v d₁ s₂ vs d₂}
      (first : Eval Γ (.expr ps e) d₀ s₁ [v] d₁) (others : Eval Γ (.args ps es) d₁ s₂ vs d₂) :
      Eval Γ (.args ps (.cons e es)) d₀ (s₁ ++ s₂) (v :: vs) d₂
  | applyUser {fn} {args : List VRef} {body d s v d'}
      (callee : Γ fn = some (.user args.length body)) (intArgc : args.length < 2 ^ 31)
      (value : Eval Γ (.expr args body) d s [v] d') :
      Eval Γ (.apply fn args) d s [v] d'
  | applyCfun {fn} {args : List VRef} {cfun : Nat → CProg} {d s v d'}
      (callee : Γ fn = some (.cfun cfun)) (intArgc : args.length < 2 ^ 31)
      (value : Eval Γ (.cprog (cfun args.length) args []) d s [v] d') :
      Eval Γ (.apply fn args) d s [v] d'
  | ret {args v d} : Eval Γ (.cprog (.ret (some v)) args []) d [] [v] d
  | shift {k} {args own : List VRef} {d s v d'}
      (next : Eval Γ (.cprog (k args.head?) args.tail own) d s [v] d') :
      Eval Γ (.cprog (.shift k) args own) d s [v] d'
  | pop {k} {args own : List VRef} {d s v d'}
      (next : Eval Γ (.cprog (k args.getLast?) args.dropLast own) d s [v] d') :
      Eval Γ (.cprog (.pop k) args own) d s [v] d'
  | push {w k} {args own : List VRef} {d s v d'}
      (next : Eval Γ (.cprog k args (own ++ [w])) d s [v] d') :
      Eval Γ (.cprog (.push w k) args own) d s [v] d'
  | stackPop {w k} {args own : List VRef} {d s v d'}
      (next : Eval Γ (.cprog (k (some w)) args own) d s [v] d') :
      Eval Γ (.cprog (.stackPop k) args (own ++ [w])) d s [v] d'
  | read {k : Data → CProg} {args own d s v d'}
      (next : Eval Γ (.cprog (k d) args own) d s [v] d') :
      Eval Γ (.cprog (.read k) args own) d s [v] d'
  | write {f : Data → Data} {k args own d s v d'}
      (next : Eval Γ (.cprog k args own) (f d) s [v] d') :
      Eval Γ (.cprog (.write f k) args own) d s [v] d'
  | raise {level message k} {args own : List VRef} {d s v d'}
      (next : Eval Γ (.cprog k args own) d s [v] d') :
      Eval Γ (.cprog (.raise level message k) args own) d s [v] d'
  | callback {name fn k} {args own vs : List VRef} {d₀ s₁ w d₁ s₂ v d₂}
      (applied : Eval Γ (.apply fn vs) d₀ s₁ [w] d₁)
      (next : Eval Γ (.cprog (k (some w)) args (own ++ [w])) d₁ s₂ [v] d₂) :
      Eval Γ (.cprog (.call name fn vs.length k) args (own ++ vs)) d₀ (s₁ ++ s₂) [v] d₂

end AkLisp
