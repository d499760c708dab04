import AkLisp.State.Code

/-!
# Printing the intermediate representation

`akl_dump_ir` walks over the instruction list of a function and prints in front
of each entry a line for every label that is bound to it.
-/

namespace AkLisp

/-- The labels an instruction names. -/
def Instr.labels : Instr → List LabelRef
  | .branch lt lf => [lt, lf]
  | .jmp l | .jt l | .jn l => [l]
  | _ => []

/-- What a line says. -/
inductive DumpLine where
  /-- `Compiled function` -/
  | compiled
  /-- `.L` with the number of a label -/
  | label (laInd : Nat)
  | instr (in_ : Instr)
  deriving DecidableEq

/-- The lines for the labels at an entry. -/
def labelLines (f : FRef) (labels : List Label) (pos : Nat) : List DumpLine :=
  (labels.filter fun label => label.laBranch = some (f, pos)).map fun label => .label label.laInd

/-- `akl_dump_ir` on the function behind the pointer `f`. -/
def aklDumpIr (f : FRef) : AklFunction → List DumpLine
  | .user ufun =>
      ufun.ufBody.zipIdx.flatMap fun (in_, pos) => labelLines f ufun.ufLabels pos ++ [.instr in_]
  | _ => [.compiled]

/-- The label with this index is bound to an entry of the list of its own function. -/
def LispFun.Linked (f : FRef) (ufun : LispFun) (ind : Nat) : Prop :=
  ∃ label pos, ufun.ufLabels[ind]? = some label ∧ label.laIr = some f ∧
    label.laBranch = some (f, pos) ∧ pos < ufun.ufBody.length

/-- A line is printed for a label that is bound to an entry of the list. -/
theorem LispFun.Linked.printed {f : FRef} {ufun : LispFun} {ind : Nat}
    (linked : ufun.Linked f ind) :
    ∃ label, ufun.ufLabels[ind]? = some label ∧
      DumpLine.label label.laInd ∈ aklDumpIr f (.user ufun) := by
  obtain ⟨label, pos, found, -, branch, inside⟩ := linked
  refine ⟨label, found, List.mem_flatMap.mpr ⟨(ufun.ufBody[pos], pos), ?_, ?_⟩⟩
  · exact List.mk_mem_zipIdx_iff_getElem?.mpr (List.getElem?_eq_getElem inside)
  · apply List.mem_append_left
    apply List.mem_map_of_mem
    simp [branch, List.mem_of_getElem? found]

end AkLisp
