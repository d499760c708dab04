import AkLisp.Builtins.Rules
import AkLisp.Machine.Library
import AkLisp.Machine.Scripts
import AkLisp.Reader.Render

/-!
# An interpreter that calculates

The programs call a few C functions of the library.  They are about interpreters in which
these stand under their names, with a C library that reads decimal integers.
-/

namespace AkLisp

open Evaluation Image

/-- C functions that the programs call, under the names of the library. -/
def calledFunctions [Doubles] (address : Symbol → Int) (rounds : Nat) :
    List (String × (Nat → CProg)) :=
  [("--", .ofTotal Rounded.aklFnDec), ("+", .ofTotal Rounded.aklFnPlus),
    ("-", .ofTotal Rounded.aklFnMinus), ("*", .ofTotal Rounded.aklFnMul),
    ("/", .ofTotal Rounded.aklFnDdiv), ("<=", .ofLocal (aklFnLteq address (rounds + 1))),
    ("length", .ofLocal aklFnLength), ("fold", aklFnFoldl rounds)]

/-- An integer in decimal. -/
def Form.int (z : ℤ) : Form := .literal (.number (decimal z))

/-- A call of the function with this name. -/
def Form.callOf (name : String) (args : List Form) : Form :=
  .call (chars name) (args.foldr Forms.cons .nil)

/-- An integer of at most 53 bits is a double. -/
theorem numberOfText_decimal [Libc] (reading : ReadsDecimals) {z : ℤ} (small : |z| ≤ 2 ^ 53) :
    numberOfText (decimal z) = z := by
  apply reading.numberOfText_decimal ⟨z, _⟩
  rw [Int.abs_eq_natAbs] at small
  have below : z.natAbs ≤ 2 ^ 53 := by exact_mod_cast small
  rcases Nat.lt_or_eq_of_le below with less | equal
  · exact ⟨z, 0, less, by decide, by simp⟩
  · refine ⟨z.sign, 53, ?_, by decide, ?_⟩
    · rw [Int.natAbs_sign]
      split <;> decide
    · have whole := (Int.sign_mul_natAbs z).symm
      rw [equal] at whole
      exact_mod_cast whole

section

variable [Libc] [Doubles] {m : Machine} {I : Image} {address : Symbol → Int} {rounds : Nat}

/-- The C functions are found in the image. -/
structure Image.Calculates (I : Image) (address : Symbol → Int) (rounds : Nat) : Prop where
  has : ∀ fn ∈ calledFunctions address rounds, I.Has fn.1 fn.2
  statics : I.data.Statics
  reading : ReadsDecimals

/-- An interpreter between two sources with the C functions under their names. -/
structure Machine.Prepared (m : Machine) (address : Symbol → Int) (rounds : Nat) : Prop where
  idle : m.Idle
  statics : m.data.Statics
  has : ∀ fn ∈ calledFunctions address rounds, m.Has fn.1 fn.2

omit [Libc] in
theorem Machine.Prepared.callable (prepared : m.Prepared address rounds) (name : String)
    (mem : name ∈ (calledFunctions address rounds).map Prod.fst) :
    m.front.Callable (symbolOf name) := by
  rcases List.mem_map.mp mem with ⟨fn, found, rfl⟩
  exact (prepared.has fn found).callable

theorem Build.calculates {es : List Form} (B : Build m es) (prepared : m.Prepared address rounds)
    (reading : ReadsDecimals) : B.image.Calculates address rounds :=
  ⟨fun fn mem => B.has (prepared.has fn mem), B.statics prepared.statics, reading⟩

end

/-- Arithmetic without rounding. -/
abbrev exactDoubles : Doubles := ⟨id, fun _ _ => rfl⟩

/-- An interpreter with the C functions. -/
def calculator : Machine :=
  Machine.init.aklDeclareFunctions (@calledFunctions exactDoubles (fun _ => 0) 8)

theorem calculator_prepared : @Machine.Prepared exactDoubles calculator (fun _ => 0) 8 := by
  apply @Machine.Prepared.mk exactDoubles
  · apply Machine.init_idle.declare
    intro fn mem form
    revert fn
    cases form <;> decide
  · exact ⟨_, rfl⟩
  · apply Machine.aklDeclareFunctions_has
    decide

end AkLisp
