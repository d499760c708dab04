import AkLisp.Machine.Core
import AkLisp.Linked.Segment

/-!
# Expressions and their code

An expression is what the compiler makes of a form: names are resolved to
parameters and globals, literals are the values the reader has built, and a
call carries the function that was prefetched for it.  `code` lists the
instructions of an expression at a position of an instruction list, `binds` the
labels it takes from a position of the label table on.
-/

namespace AkLisp

mutual

/-- A compiled form. -/
inductive Expr where
  /-- a literal, quoted data, or the name a definition leaves -/
  | lit (v : VRef)
  /-- a parameter -/
  | param (k : Nat)
  /-- a global variable -/
  | global (x : Symbol)
  | call (name : Symbol) (prefetched : Option FRef) (args : Args)
  | sif (c a b : Expr)
  | set (x : Symbol) (e : Expr)
  | when (c a : Expr)
  | swhile (c a : Expr)
  /-- a definition or a `lambda` for which another number of values than one is
  pushed -/
  | pushes (vs : List VRef)

/-- The arguments of a call. -/
inductive Args where
  | nil
  | cons (e : Expr) (es : Args)

end

/-- The number of arguments. -/
def Args.length : Args → Nat
  | .nil => 0
  | .cons _ es => es.length + 1

mutual

/-- The number of labels an expression takes. -/
def Expr.labelCount : Expr → Nat
  | .lit _ | .param _ | .global _ | .pushes _ => 0
  | .call _ _ args => args.labelCount
  | .sif c a b => 2 + c.labelCount + a.labelCount + b.labelCount
  | .set _ e => e.labelCount
  | .when c a => 1 + c.labelCount + a.labelCount
  | .swhile c a => 2 + c.labelCount + a.labelCount

def Args.labelCount : Args → Nat
  | .nil => 0
  | .cons e es => e.labelCount + es.labelCount

end

mutual

/-- The number of instructions of an expression. -/
def Expr.size : Expr → Nat
  | .lit _ | .param _ | .global _ => 1
  | .pushes vs => vs.length
  | .call _ _ args => args.size + 1
  | .sif c a b => c.size + 1 + a.size + 1 + b.size
  | .set _ e => e.size + 1
  | .when c a => c.size + 1 + a.size
  | .swhile c a => c.size + 1 + a.size + 1

def Args.size : Args → Nat
  | .nil => 0
  | .cons e es => e.size + es.size

end

mutual

/-- The instructions of an expression of the function `f`, the first label of
which has the index `lc`. -/
def Expr.code (f : FRef) (lc : Nat) : Expr → List Instr
  | .lit v => [.push (some v)]
  | .param k => [.load k]
  | .global x => [.get x]
  | .pushes vs => vs.map fun v => .push (some v)
  | .call name fn args => args.code f lc ++ [.call name fn args.length]
  | .sif c a b =>
      c.code f (lc + 2) ++ ([.jn ⟨f, lc + 1⟩] ++ (a.code f (lc + 2 + c.labelCount) ++
        ([.jmp ⟨f, lc⟩] ++ b.code f (lc + 2 + c.labelCount + a.labelCount))))
  | .set x e => e.code f lc ++ [.set x]
  | .when c a =>
      c.code f (lc + 1) ++ ([.jn ⟨f, lc⟩] ++ a.code f (lc + 1 + c.labelCount))
  | .swhile c a =>
      c.code f (lc + 2) ++ ([.jn ⟨f, lc + 1⟩] ++ (a.code f (lc + 2 + c.labelCount) ++
        [.jmp ⟨f, lc⟩]))

def Args.code (f : FRef) (lc : Nat) : Args → List Instr
  | .nil => []
  | .cons e es => e.code f lc ++ es.code f (lc + e.labelCount)

end

mutual

/-- The positions the labels of an expression at position `pos` are bound to. -/
def Expr.binds (pos : Nat) : Expr → List Nat
  | .lit _ | .param _ | .global _ | .pushes _ => []
  | .call _ _ args => args.binds pos
  | .sif c a b =>
      [pos + c.size + 1 + a.size + 1 + b.size, pos + c.size + 1 + a.size + 1] ++
        (c.binds pos ++ (a.binds (pos + c.size + 1) ++
          b.binds (pos + c.size + 1 + a.size + 1)))
  | .set _ e => e.binds pos
  | .when c a =>
      [pos + c.size + 1 + a.size] ++ (c.binds pos ++ a.binds (pos + c.size + 1))
  | .swhile c a =>
      [pos, pos + c.size + 1 + a.size + 1] ++ (c.binds pos ++ a.binds (pos + c.size + 1))

def Args.binds (pos : Nat) : Args → List Nat
  | .nil => []
  | .cons e es => e.binds pos ++ es.binds (pos + e.size)

end

mutual

@[simp]
theorem Expr.code_length (f : FRef) (lc : Nat) (e : Expr) : (e.code f lc).length = e.size := by
  cases e <;>
    simp [Expr.code, Expr.size, Expr.code_length, Args.code_length] <;> omega

@[simp]
theorem Args.code_length (f : FRef) (lc : Nat) (es : Args) :
    (es.code f lc).length = es.size := by
  cases es <;> simp [Args.code, Args.size, Expr.code_length, Args.code_length]

end

mutual

@[simp]
theorem Expr.binds_length (pos : Nat) (e : Expr) : (e.binds pos).length = e.labelCount := by
  cases e <;>
    simp [Expr.binds, Expr.labelCount, Expr.binds_length, Args.binds_length] <;> omega

@[simp]
theorem Args.binds_length (pos : Nat) (es : Args) : (es.binds pos).length = es.labelCount := by
  cases es <;> simp [Args.binds, Args.labelCount, Expr.binds_length, Args.binds_length]

end

/-- The label bound to a position of the function `f`. -/
def boundLabel (f : FRef) (ind pos : Nat) : Label := ⟨some f, some (f, pos), ind⟩

/-- The labels of an expression. -/
def boundLabels (f : FRef) (lc : Nat) (binds : List Nat) : List Label :=
  binds.mapIdx fun i pos => boundLabel f (lc + i) pos

end AkLisp
