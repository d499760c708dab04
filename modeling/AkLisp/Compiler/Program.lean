import AkLisp.Compiler.Compile

/-!
# Compiling a source

`akl_compile` compiles the forms of a device one after the other into the body
of a new function, the main function, until a token of them is the end of the
input.
-/

namespace AkLisp

variable {σ : Type} [TokenSource σ] [Libc]

/-- The loop of `akl_compile`. -/
def compileForms : Nat → CompContext → CompState σ → Except Fault (CompState σ)
  | 0, _, _ => throw .outOfFuel
  | fuel + 1, cx, st => do
      let ((tok, _), st) ← aklCompileNext fuel cx st
      if tok = .tEOF then return st else compileForms fuel cx st

/-- The placeholder at the end of a finished body is taken off. -/
def popNop (ir : List Instr) : List Instr :=
  if ir.getLast? = some .nop then ir.dropLast else ir

/-- `akl_compile`: the main function. -/
def aklCompile (fuel : Nat) (st : CompState σ) : Except Fault (FRef × CompState σ) := do
  let (f, st) := aklNewUserFunction st
  let st ← compileForms fuel ⟨f, f⟩ st
  return (f, st.modifyUfun f fun ufun => { ufun with ufBody := popNop ufun.ufBody })

end AkLisp
