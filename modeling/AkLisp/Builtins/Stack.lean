import AkLisp.Machine.Run
import AkLisp.Transition.Arrival

/-!
# Clearing the stack

`clear-stack` is the one function of the library that takes from the stack what its
callers have pushed there.
-/

namespace AkLisp

open Linked

/-- `akl_fn_clear_stack`, with at most `rounds` rounds of its loop. -/
def aklFnClearStack : Nat → CProg
  | 0 => .abort
  | rounds + 1 => .stackPop fun
      | some _ => aklFnClearStack rounds
      | none => .ret (some Data.aklNil)

namespace Machine

variable {m : Machine} {funs : List AklFunction} {d : Data} {cells : List (Cell VRef)}
  {cx outer : Context} {ip : Option EntryRef} {below : List Activation} {rounds : Nat}

/-- The call comes back to a stack with `NIL` alone. -/
theorem At.clearStack
    (at_ : m.At funs d cells (.cfun cx (aklFnClearStack rounds) :: .branch outer ip :: below))
    (enough : cells.length < rounds) (on : FrameOn cx.cxFrame ([] : List (Cell VRef))) :
    ∃ m' a, Arrives step (fun m => m.control = .branch outer ip :: below) m m' ∧
      m'.At funs d [(a, Data.aklNil)] (.branch outer ip :: below) := by
  have open_ {prog : CProg} {m : Machine} {cells : List (Cell VRef)}
      (at_ : m.At funs d cells (.cfun cx prog :: .branch outer ip :: below)) :
      m.control ≠ .branch outer ip :: below := by
    rw [at_.control_eq]
    simp
  have popped {rounds : Nat} {m : Machine} {cells : List (Cell VRef)}
      (at_ : m.At funs d cells
        (.cfun cx (aklFnClearStack (rounds + 1)) :: .branch outer ip :: below)) :
      step m = some (m.execCfun cx (.branch outer ip :: below) (aklFnClearStack (rounds + 1))) := by
    rw [step, at_.control_eq]
  induction cells using List.reverseRecOn generalizing rounds m with
  | nil =>
      cases rounds with
      | zero => cases enough
      | succ rounds =>
          have stepEq := popped at_
          simp only [aklFnClearStack, execCfun, at_.holds.pop_nil] at stepEq
          have at₁ : Machine.At { m with
              control := .cfun cx (.ret (some Data.aklNil)) :: .branch outer ip :: below }
              funs d ([] ++ [] ++ [])
                (.cfun cx (.ret (some Data.aklNil)) :: .branch outer ip :: below) :=
            ⟨at_.funs_eq, at_.data_eq, at_.holds, rfl⟩
          obtain ⟨m', a, returned, at'⟩ := at₁.return_cfun on
          exact ⟨m', a, .step (open_ at_) stepEq
            (.step (open_ at₁) returned (.here at'.control_eq)), at'⟩
  | append_singleton cells c ih =>
      cases rounds with
      | zero => cases enough
      | succ rounds =>
          have stepEq := popped at_
          obtain ⟨stack, popEq, holds⟩ := at_.holds.pop
          simp only [aklFnClearStack, execCfun, popEq] at stepEq
          have fewer : cells.length < rounds := by simpa using enough
          have at₁ : Machine.At { m with
              stack := stack
              control := .cfun cx (aklFnClearStack rounds) :: .branch outer ip :: below }
              funs d cells (.cfun cx (aklFnClearStack rounds) :: .branch outer ip :: below) :=
            ⟨at_.funs_eq, at_.data_eq, holds, rfl⟩
          obtain ⟨m', a, arrives, at'⟩ := ih at₁ fewer
          exact ⟨m', a, .step (open_ at_) stepEq arrives, at'⟩

end Machine

end AkLisp
