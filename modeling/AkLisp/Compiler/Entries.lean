import Mathlib.Data.List.Induction
import AkLisp.Compiler.Build
import AkLisp.List.Basic
import AkLisp.Transition.Conservation
import Mathlib.Algebra.Group.Nat.Defs

/-!
# The entries of an instruction list

The builders on the entries themselves.  A label is bound to an entry, and what the entry means is
settled by the instruction that is written into it later.  The list is taken for empty where its
count is zero, which it is again when there are 2^32 entries.
-/

namespace AkLisp

open Linked Transition

/-- Pointer to a `struct akl_ir_instruction`: its index among the instructions made so far. -/
abbrev IRef := Nat

/-- What the builders change: the instruction list with its entries, the instructions, and the
entries to which the labels are bound.  The field `la_ir` is left out, there is one list only. -/
structure IrState where
  mem : Mem IRef
  cxIr : AklList
  instrs : List Instr
  laBranch : LabelRef → Option Addr

namespace IrState

/-- `new_instr` -/
def newInstr (s : IrState) : IRef × IrState :=
  (s.instrs.length, { s with instrs := s.instrs ++ [.nop] })

/-- `akl_list_append` to the instruction list. -/
def append (s : IrState) (instr : IRef) : IrState :=
  let (_, mem, cxIr) := aklListAppend s.mem s.cxIr (some instr)
  { s with mem, cxIr }

/-- `create_or_get_instr`.  `akl_list_is_empty` looks at the count. -/
def createOrGetInstr (s : IrState) : Option IRef × IrState :=
  if s.cxIr.liCount = 0 then
    let (instr, s) := s.newInstr
    (some instr, s.append instr)
  else (aklListLast s.mem s.cxIr, s)

/-- `create_instr` -/
def createInstr (s : IrState) : Option IRef × IrState :=
  let (instr, s) := s.createOrGetInstr
  let (nop, s) := s.newInstr
  (instr, s.append nop)

/-- Write the operation and its operands into the instruction that is created.  There is no result
where it is `NULL`. -/
def emit (s : IrState) (instr : Instr) : Option IrState :=
  let (created, s) := s.createInstr
  created.map fun i => { s with instrs := s.instrs.set i instr }

def aklBuildPush (s : IrState) (arg : Option VRef) : Option IrState := s.emit (.push arg)

def aklBuildSet (s : IrState) (sym : Symbol) : Option IrState := s.emit (.set sym)

def aklBuildGet (s : IrState) (sym : Symbol) : Option IrState := s.emit (.get sym)

/-- `akl_build_load` for a user function. -/
def aklBuildLoad (s : IrState) (ufun : LispFun) (sym : Symbol) : Option IrState :=
  match argumentFinder ufun sym with
  | some ind => s.emit (.load ind)
  | none => s.aklBuildGet sym

def aklBuildCall (s : IrState) (sym : Symbol) (fn : Option FRef) (argc : Nat) : Option IrState :=
  s.emit (.call sym fn argc)

/-- `akl_build_label` -/
def aklBuildLabel (s : IrState) (l : LabelRef) : IrState :=
  let (_, s) := s.createOrGetInstr
  { s with laBranch := Function.update s.laBranch l s.cxIr.liLast }

def aklBuildJump (s : IrState) (jt : JumpOp) (l : LabelRef) : Option IrState :=
  s.emit (jt.instr l)

def aklBuildBranch (s : IrState) (lt lf : LabelRef) : Option IrState := s.emit (.branch lt lf)

def aklBuildRet (s : IrState) : Option IrState := s.emit .ret

def aklBuildNop (s : IrState) : Option IrState := s.emit .nop

end IrState

/-- The calls of the builders. -/
inductive BuildCall where
  | push (arg : Option VRef)
  | set (sym : Symbol)
  | get (sym : Symbol)
  | load (ufun : LispFun) (sym : Symbol)
  | call (sym : Symbol) (fn : Option FRef) (argc : Nat)
  | jump (jt : JumpOp) (l : LabelRef)
  | branch (lt lf : LabelRef)
  | ret
  | nop
  | label (l : LabelRef)

namespace BuildCall

def run : BuildCall → IrState → Option IrState
  | push arg, s => s.aklBuildPush arg
  | set sym, s => s.aklBuildSet sym
  | get sym, s => s.aklBuildGet sym
  | load ufun sym, s => s.aklBuildLoad ufun sym
  | call sym fn argc, s => s.aklBuildCall sym fn argc
  | jump jt l, s => s.aklBuildJump jt l
  | branch lt lf, s => s.aklBuildBranch lt lf
  | ret, s => s.aklBuildRet
  | nop, s => s.aklBuildNop
  | label l, s => some (s.aklBuildLabel l)

/-- The instruction that a call emits. -/
def emitted : BuildCall → List Instr
  | push arg => [.push arg]
  | set sym => [.set sym]
  | get sym => [.get sym]
  | load ufun sym =>
      match argumentFinder ufun sym with
      | some ind => [.load ind]
      | none => [.get sym]
  | call sym fn argc => [.call sym fn argc]
  | jump jt l => [jt.instr l]
  | branch lt lf => [.branch lt lf]
  | ret => [.ret]
  | nop => [.nop]
  | label _ => []

/-- A call emits one instruction or binds a label. -/
theorem run_cases (call : BuildCall) :
    (∃ instr, call.emitted = [instr] ∧ (∀ l, call ≠ .label l) ∧ ∀ s, call.run s = s.emit instr) ∨
      ∃ l, call = .label l := by
  cases call with
  | label l => exact .inr ⟨l, rfl⟩
  | load ufun sym =>
      left
      cases found : argumentFinder ufun sym with
      | some ind =>
          refine ⟨.load ind, ?_, nofun, fun s => ?_⟩
          · simp only [emitted, found]
          · simp only [run, IrState.aklBuildLoad, found]
      | none =>
          refine ⟨.get sym, ?_, nofun, fun s => ?_⟩
          · simp only [emitted, found]
          · simp only [run, IrState.aklBuildLoad, found, IrState.aklBuildGet]
  | push arg => exact .inl ⟨_, rfl, nofun, fun _ => rfl⟩
  | set sym => exact .inl ⟨_, rfl, nofun, fun _ => rfl⟩
  | get sym => exact .inl ⟨_, rfl, nofun, fun _ => rfl⟩
  | call sym fn argc => exact .inl ⟨_, rfl, nofun, fun _ => rfl⟩
  | jump jt l => exact .inl ⟨_, rfl, nofun, fun _ => rfl⟩
  | branch lt lf => exact .inl ⟨_, rfl, nofun, fun _ => rfl⟩
  | ret => exact .inl ⟨_, rfl, nofun, fun _ => rfl⟩
  | nop => exact .inl ⟨_, rfl, nofun, fun _ => rfl⟩

end BuildCall

/-- The instructions that the calls emit, in order. -/
def emittedBy (calls : List BuildCall) : List Instr := calls.flatMap BuildCall.emitted

/-- No instruction and no entry has been made. -/
structure IrState.Fresh (s : IrState) : Prop where
  list : s.cxIr.Denotes s.mem []
  instrs : s.instrs = []

/-- The list has these entries, and the instructions in them are the code. -/
structure IrState.Lists (s : IrState) (as : List Addr) (code : List Instr) : Prop where
  denotes : s.cxIr.Denotes s.mem as
  code : as.map (fun a => (s.mem.data a).bind fun i => s.instrs[i]?) = code.map some

/-- The list is the emitted instructions and one placeholder, or nothing while none has been
emitted. -/
def EndsWithPlaceholder (calls : List BuildCall) (code : List Instr) : Prop :=
  code = emittedBy calls ++ [.nop] ∨ emittedBy calls = [] ∧ code = []

/-- Each label that was bound is bound to the entry of the instruction that was emitted next, or of
the placeholder, and stays so until it is bound again. -/
def IrState.LabelsFollow (start : IrState) (calls : List BuildCall) (s : IrState)
    (as : List Addr) : Prop :=
  ∀ before l after, calls = before ++ .label l :: after →
    ∃ s₁ a, runs BuildCall.run (before ++ [.label l]) start = some s₁ ∧ s₁.laBranch l = some a ∧
      as[(emittedBy before).length]? = some a ∧ (.label l ∉ after → s.laBranch l = some a)

/-- What the calls should leave: the instructions in order with one placeholder, and the labels
bound to the entries of the instructions behind them. -/
def IrState.KeepsPlaceholder (start : IrState) (calls : List BuildCall) : Prop :=
  ∃ s as code, runs BuildCall.run calls start = some s ∧ s.Lists as code ∧
    EndsWithPlaceholder calls code ∧ start.LabelsFollow calls s as

section

variable {calls : List BuildCall} {call : BuildCall} {code : List Instr} {instr : Instr}

theorem emittedBy_append (more : List BuildCall) :
    emittedBy (calls ++ more) = emittedBy calls ++ emittedBy more :=
  List.flatMap_append

theorem emittedBy_concat : emittedBy (calls ++ [call]) = emittedBy calls ++ call.emitted := by
  rw [emittedBy_append]
  exact congrArg _ (List.append_nil _)

theorem length_emittedBy_dropLast (calls : List BuildCall) :
    (emittedBy calls.dropLast).length ≤ (emittedBy calls).length := by
  obtain ⟨more, split⟩ := List.dropLast_prefix calls
  conv_rhs => rw [← split, emittedBy_append, List.length_append]
  exact Nat.le_add_right _ _

/-- The last call emits one instruction at most. -/
theorem length_emittedBy_le (calls : List BuildCall) :
    (emittedBy calls).length ≤ (emittedBy calls.dropLast).length + 1 := by
  rcases List.eq_nil_or_concat' calls with rfl | ⟨front, last, rfl⟩
  · exact Nat.zero_le _
  · rw [List.dropLast_concat, emittedBy_concat, List.length_append]
    rcases last.run_cases with ⟨instr, emits, -⟩ | ⟨l, rfl⟩
    · rw [emits]
      rfl
    · exact Nat.le_succ _

/-- Emitting an instruction moves the placeholder. -/
theorem EndsWithPlaceholder.emit (ends : EndsWithPlaceholder calls code)
    (emits : call.emitted = [instr]) :
    EndsWithPlaceholder (calls ++ [call]) (createInstr code instr) := by
  left
  rw [emittedBy_concat, emits]
  rcases ends with rfl | ⟨nothing, rfl⟩
  · rw [createInstr, createOrGetInstr, if_neg (List.append_ne_nil_of_right_ne_nil _ (by simp)),
      List.dropLast_concat, List.append_assoc]
    rfl
  · rw [nothing]
    rfl

/-- Binding a label makes the placeholder if it is missing. -/
theorem EndsWithPlaceholder.label (ends : EndsWithPlaceholder calls code) (l : LabelRef) :
    createOrGetInstr code = emittedBy (calls ++ [.label l]) ++ [.nop] := by
  have same : emittedBy (calls ++ [.label l]) = emittedBy calls := by
    rw [emittedBy_concat]
    exact List.append_nil _
  rw [same]
  rcases ends with rfl | ⟨nothing, rfl⟩
  · rw [createOrGetInstr, if_neg (List.append_ne_nil_of_right_ne_nil _ (by simp))]
  · rw [nothing]
    rfl

theorem EndsWithPlaceholder.length_le (ends : EndsWithPlaceholder calls code) :
    code.length ≤ (emittedBy calls).length + 1 := by
  rcases ends with rfl | ⟨-, rfl⟩
  · exact (List.length_append).le
  · exact Nat.zero_le _

end

namespace IrState

/-- The instructions are those of the entries, in the order in which they were made. -/
structure Represents (s : IrState) (as : List Addr) : Prop where
  denotes : s.cxIr.Denotes s.mem as
  data : as.map s.mem.data = (List.range s.instrs.length).map some

/-- A new instruction in a new entry behind the last one. -/
def addNop (s : IrState) : IrState := s.newInstr.2.append s.newInstr.1

section

variable {s : IrState} {as : List Addr} {instr : Instr}

theorem createOrGetInstr_empty (empty : s.cxIr.liCount = 0) :
    s.createOrGetInstr = (some s.instrs.length, s.addNop) := by
  rw [createOrGetInstr, if_pos empty]
  rfl

namespace Represents

theorem length (represents : s.Represents as) : as.length = s.instrs.length := by
  have lengths := congrArg List.length represents.data
  rwa [List.length_map, List.length_map, List.length_range] at lengths

theorem lists (represents : s.Represents as) : s.Lists as s.instrs where
  denotes := represents.denotes
  code := by
    have fetched : as.map (fun a => (s.mem.data a).bind fun i => s.instrs[i]?) =
        (as.map s.mem.data).map fun p => p.bind fun i => s.instrs[i]? := by
      rw [List.map_map]
      rfl
    rw [fetched, represents.data, List.map_map]
    apply List.ext_getElem
    · simp
    · intro i below below'
      have inside : i < s.instrs.length := by simpa using below'
      simp [inside]

theorem addNop (represents : s.Represents as) : s.addNop.Represents (as ++ [s.mem.top]) where
  denotes := represents.denotes.append _
  data := by
    have old : as.map s.addNop.mem.data = as.map s.mem.data := by
      refine List.map_congr_left fun a mem => ?_
      have ne : a ≠ s.mem.top := Nat.ne_of_lt (represents.denotes.below a mem)
      exact (aklListAppend_data s.mem s.cxIr _ a).trans (if_neg ne)
    have new : s.addNop.mem.data s.mem.top = some s.instrs.length :=
      (aklListAppend_data s.mem s.cxIr _ s.mem.top).trans (if_pos rfl)
    have made : s.addNop.instrs = s.instrs ++ [.nop] := rfl
    rw [List.map_append, old, represents.data, made, List.length_append, List.map_singleton, new,
      List.length_singleton, List.range_succ, List.map_append]
    rfl

/-- Unless there are 2^32 entries, the count tells whether the list is empty. -/
theorem liCount_eq_zero_iff (represents : s.Represents as) (below : as.length < 2 ^ 32) :
    s.cxIr.liCount = 0 ↔ as = [] := by
  rw [represents.denotes.count, ← UInt32.toNat_inj, UInt32.toNat_ofNat', Nat.mod_eq_of_lt below]
  exact List.length_eq_zero_iff

theorem createOrGetInstr_last (represents : s.Represents as) (below : as.length < 2 ^ 32)
    (nonempty : as ≠ []) : s.createOrGetInstr = (some (s.instrs.length - 1), s) := by
  have counted : s.cxIr.liCount ≠ 0 := by
    rwa [ne_eq, represents.liCount_eq_zero_iff below]
  have lastEq : aklListLast s.mem s.cxIr = some (s.instrs.length - 1) := by
    obtain ⟨front, a, rfl⟩ := (List.eq_nil_or_concat' as).resolve_left nonempty
    have made : s.instrs.length = front.length + 1 :=
      represents.length.symm.trans List.length_append
    have datas := congrArg List.getLast? represents.data
    rw [made, List.range_succ, List.map_append, List.map_append, List.map_singleton,
      List.map_singleton, List.getLast?_concat, List.getLast?_concat] at datas
    rw [aklListLast, represents.denotes.last, List.getLast?_concat, Option.bind_some, made]
    exact Option.some.inj datas
  rw [createOrGetInstr, if_neg counted, lastEq]

/-- The entry of the instruction to come is the last one. -/
theorem createOrGetInstr (represents : s.Represents as) (below : as.length < 2 ^ 32) :
    ∃ s' as', s.createOrGetInstr = (some (s'.instrs.length - 1), s') ∧ s'.Represents as' ∧
      as <+: as' ∧ s'.instrs = AkLisp.createOrGetInstr s.instrs ∧ s'.laBranch = s.laBranch := by
  by_cases empty : as = []
  · have none : s.instrs = [] := List.length_eq_zero_iff.mp (represents.length ▸ by rw [empty]; rfl)
    refine ⟨s.addNop, as ++ [s.mem.top], ?_, represents.addNop, List.prefix_append _ _, ?_, rfl⟩
    · rw [createOrGetInstr_empty ((represents.liCount_eq_zero_iff below).mpr empty)]
      have made : s.addNop.instrs = s.instrs ++ [.nop] := rfl
      rw [made, List.length_append]
      rfl
    · rw [AkLisp.createOrGetInstr, if_pos none]
      have made : s.addNop.instrs = s.instrs ++ [.nop] := rfl
      rw [made, none]
      rfl
  · have some_ : s.instrs ≠ [] := by
      intro none
      exact empty (List.length_eq_zero_iff.mp (represents.length.trans (by rw [none]; rfl)))
    refine ⟨s, as, represents.createOrGetInstr_last below empty, represents, List.prefix_refl _, ?_,
      rfl⟩
    rw [AkLisp.createOrGetInstr, if_neg some_]

/-- Emitting an instruction on the entries is emitting it on the list. -/
theorem emit (represents : s.Represents as) (below : as.length < 2 ^ 32) (instr : Instr) :
    ∃ s' as', s.emit instr = some s' ∧ s'.Represents as' ∧ as <+: as' ∧
      s'.instrs = AkLisp.createInstr s.instrs instr ∧ s'.laBranch = s.laBranch := by
  obtain ⟨s₁, as₁, created, represents₁, grown, instrsEq, branchEq⟩ :=
    represents.createOrGetInstr below
  have emitted : s.emit instr =
      some { s₁.addNop with instrs := s₁.addNop.instrs.set (s₁.instrs.length - 1) instr } := by
    rw [IrState.emit, IrState.createInstr, created]
    rfl
  refine ⟨_, as₁ ++ [s₁.mem.top], emitted, ?_, grown.trans (List.prefix_append _ _), ?_, branchEq⟩
  · refine ⟨represents₁.addNop.denotes, ?_⟩
    rw [List.length_set]
    exact represents₁.addNop.data
  · have nonempty : s₁.instrs ≠ [] := instrsEq ▸ createOrGetInstr_ne_nil s.instrs
    have made : s₁.addNop.instrs = s₁.instrs ++ [.nop] := rfl
    obtain ⟨front, last, split⟩ := (List.eq_nil_or_concat' s₁.instrs).resolve_left nonempty
    rw [AkLisp.createInstr, ← instrsEq, made, split, List.dropLast_concat, List.length_append,
      List.append_assoc]
    exact (List.set_append_right _ _ (Nat.le_refl _)).trans (by simp)

/-- A label is bound to the last entry. -/
theorem label (represents : s.Represents as) (below : as.length < 2 ^ 32) (l : LabelRef) :
    ∃ as', (s.aklBuildLabel l).Represents as' ∧ as <+: as' ∧
      (s.aklBuildLabel l).instrs = AkLisp.createOrGetInstr s.instrs ∧
      (s.aklBuildLabel l).laBranch = Function.update s.laBranch l as'.getLast? := by
  obtain ⟨s₁, as₁, created, represents₁, grown, instrsEq, branchEq⟩ :=
    represents.createOrGetInstr below
  have bound : s.aklBuildLabel l =
      { s₁ with laBranch := Function.update s₁.laBranch l s₁.cxIr.liLast } := by
    rw [aklBuildLabel, created]
  rw [bound]
  refine ⟨as₁, ⟨represents₁.denotes, represents₁.data⟩, grown, instrsEq, ?_⟩
  rw [← represents₁.denotes.last, ← branchEq]

end Represents

end

section

variable {start s s' : IrState} {as as' : List Addr} {calls : List BuildCall} {call : BuildCall}

/-- What a label is bound to stays where it is when another call follows. -/
theorem LabelsFollow.concat (follow : start.LabelsFollow calls s as)
    (ran : runs BuildCall.run (calls ++ [call]) start = some s') (grown : as <+: as')
    (kept : ∀ l, call ≠ .label l → s'.laBranch l = s.laBranch l)
    (new : ∀ l, call = .label l →
      ∃ a, s'.laBranch l = some a ∧ as'[(emittedBy calls).length]? = some a) :
    start.LabelsFollow (calls ++ [call]) s' as' := by
  intro before l after split
  rcases List.eq_nil_or_concat' after with rfl | ⟨after, last, rfl⟩
  · obtain ⟨rfl, same⟩ := List.append_inj' split rfl
    cases same
    obtain ⟨a, bound, placed⟩ := new l rfl
    exact ⟨s', a, ran, bound, placed, fun _ => bound⟩
  · rw [← List.cons_append, ← List.append_assoc] at split
    obtain ⟨rfl, same⟩ := List.append_inj' split rfl
    cases same
    obtain ⟨s₁, a, ran₁, bound, placed, later⟩ := follow before l after rfl
    refine ⟨s₁, a, ran₁, bound, ?_, fun notBound => ?_⟩
    · obtain ⟨more, rfl⟩ := grown
      rw [List.getElem?_append_left (List.getElem?_eq_some_iff.mp placed).1, placed]
    · rw [List.mem_append, not_or, List.mem_singleton] at notBound
      rw [kept l (Ne.symm notBound.2)]
      exact later notBound.1

/-- What holds after the calls while the count has not wrapped. -/
structure Follows (start : IrState) (calls : List BuildCall) (s : IrState) (as : List Addr) :
    Prop where
  ran : runs BuildCall.run calls start = some s
  represents : s.Represents as
  ends : EndsWithPlaceholder calls s.instrs
  labels : start.LabelsFollow calls s as

theorem Fresh.follows (fresh : start.Fresh) : start.Follows [] start [] where
  ran := rfl
  represents := ⟨fresh.list, by rw [fresh.instrs]; rfl⟩
  ends := .inr ⟨rfl, fresh.instrs⟩
  labels before l after split :=
    absurd split.symm (List.append_ne_nil_of_right_ne_nil _ (by simp))

namespace Follows

theorem small (follows : start.Follows calls s as)
    (below : (emittedBy calls).length + 1 < 2 ^ 32) : as.length < 2 ^ 32 := by
  rw [follows.represents.length]
  exact follows.ends.length_le.trans_lt below

theorem next (follows : start.Follows calls s as) (call : BuildCall) :
    runs BuildCall.run (calls ++ [call]) start = call.run s := by
  rw [runs_append, follows.ran, Option.bind_some, runs_singleton]

theorem emit (follows : start.Follows calls s as) (below : (emittedBy calls).length + 1 < 2 ^ 32)
    {instr : Instr} (emits : call.emitted = [instr]) (notLabel : ∀ l, call ≠ .label l)
    (runEq : call.run s = s.emit instr) :
    ∃ s' as', start.Follows (calls ++ [call]) s' as' := by
  obtain ⟨s', as', emitted, represents, grown, instrsEq, branchEq⟩ :=
    follows.represents.emit (follows.small below) instr
  have ran := follows.next call
  rw [runEq, emitted] at ran
  have ends : EndsWithPlaceholder (calls ++ [call]) s'.instrs := by
    rw [instrsEq]
    exact follows.ends.emit emits
  refine ⟨s', as', ran, represents, ends, follows.labels.concat ran grown ?_ ?_⟩
  · intro l _
    rw [branchEq]
  · intro l same
    exact absurd same (notLabel l)

theorem label (follows : start.Follows calls s as)
    (below : (emittedBy calls).length + 1 < 2 ^ 32) (l : LabelRef) :
    ∃ s' as', start.Follows (calls ++ [.label l]) s' as' := by
  obtain ⟨as', represents, grown, instrsEq, branchEq⟩ :=
    follows.represents.label (follows.small below) l
  have ran : runs BuildCall.run (calls ++ [.label l]) start = some (s.aklBuildLabel l) :=
    follows.next (.label l)
  have code := instrsEq.trans (follows.ends.label l)
  refine ⟨s.aklBuildLabel l, as', ran, represents, .inl code,
    follows.labels.concat ran grown ?_ ?_⟩
  · intro l' other
    rw [branchEq, Function.update_of_ne]
    rintro rfl
    exact other rfl
  · intro l' same
    cases same
    have lengths := represents.length
    have none : emittedBy (calls ++ [.label l]) = emittedBy calls := by
      rw [emittedBy_concat]
      exact List.append_nil _
    rw [code, none, List.length_append, List.length_singleton] at lengths
    have last : as'.getLast? = as'[(emittedBy calls).length]? := by
      rw [List.getLast?_eq_getElem?, lengths, Nat.add_sub_cancel]
    have inside : (emittedBy calls).length < as'.length := by omega
    refine ⟨as'[(emittedBy calls).length], ?_, List.getElem?_eq_getElem inside⟩
    rw [branchEq, Function.update_self, last, List.getElem?_eq_getElem inside]

/-- A call that is made with fewer than 2^32 entries. -/
theorem step (follows : start.Follows calls s as)
    (below : (emittedBy calls).length + 1 < 2 ^ 32) (call : BuildCall) :
    ∃ s' as', start.Follows (calls ++ [call]) s' as' := by
  rcases call.run_cases with ⟨instr, emits, notLabel, runEq⟩ | ⟨l, rfl⟩
  · exact follows.emit below emits notLabel (runEq s)
  · exact follows.label below l

end Follows

/-- As long as the count does not wrap, the builders keep the placeholder. -/
theorem run_keeps (fresh : start.Fresh)
    (below : (emittedBy calls.dropLast).length + 1 < 2 ^ 32) :
    ∃ s as, start.Follows calls s as := by
  induction calls using List.reverseRecOn with
  | nil => exact ⟨start, [], fresh.follows⟩
  | append_singleton calls call ih =>
      rw [List.dropLast_concat] at below
      have shorter := length_emittedBy_dropLast calls
      obtain ⟨s, as, follows⟩ := ih (by omega)
      exact follows.step below call

/-- A list whose count is zero gets an entry more, whether or not it is empty. -/
theorem createOrGetInstr_denotes (denotes : s.cxIr.Denotes s.mem as) :
    ∃ as', s.createOrGetInstr.2.cxIr.Denotes s.createOrGetInstr.2.mem as' ∧
      as.length + (if s.cxIr.liCount = 0 then 1 else 0) = as'.length := by
  by_cases zero : s.cxIr.liCount = 0
  · rw [createOrGetInstr_empty zero, if_pos zero]
    refine ⟨as ++ [s.mem.top], denotes.append _, ?_⟩
    rw [List.length_append, List.length_singleton]
  · rw [createOrGetInstr, if_neg zero, if_neg zero]
    exact ⟨as, denotes, rfl⟩

/-- How many entries there are after a call. -/
theorem run_denotes (denotes : s.cxIr.Denotes s.mem as) (ran : call.run s = some s') :
    ∃ as', s'.cxIr.Denotes s'.mem as' ∧
      as.length + call.emitted.length + (if s.cxIr.liCount = 0 then 1 else 0) = as'.length := by
  obtain ⟨as₁, denotes₁, lengthEq⟩ := createOrGetInstr_denotes denotes
  rcases call.run_cases with ⟨instr, emits, -, runEq⟩ | ⟨l, rfl⟩
  · rw [runEq] at ran
    obtain ⟨i, -, rfl⟩ := Option.map_eq_some_iff.mp ran
    refine ⟨_, denotes₁.append _, ?_⟩
    rw [emits, List.length_append, ← lengthEq]
    exact Nat.add_right_comm _ _ _
  · cases ran
    exact ⟨as₁, denotes₁, lengthEq⟩

/-- When a call has been made with 2^32 entries, there is an entry too many from then on. -/
theorem run_exceeds (fresh : start.Fresh)
    (long : 2 ^ 32 ≤ (emittedBy calls.dropLast).length + 1)
    (ran : runs BuildCall.run calls start = some s) :
    ∃ as, s.cxIr.Denotes s.mem as ∧ (emittedBy calls).length + 2 ≤ as.length := by
  induction calls using List.reverseRecOn generalizing s with
  | nil => exact absurd long (by decide)
  | append_singleton calls call ih =>
      rw [List.dropLast_concat] at long
      rw [runs_append] at ran
      obtain ⟨s₁, ran₁, last⟩ := Option.bind_eq_some_iff.mp ran
      rw [runs_singleton] at last
      rw [emittedBy_concat, List.length_append]
      by_cases first : (emittedBy calls.dropLast).length + 1 < 2 ^ 32
      · obtain ⟨s₂, as, ran₂, represents, ends, -⟩ := run_keeps fresh first
        cases ran₁.symm.trans ran₂
        have one := length_emittedBy_le calls
        have exact_ : as.length = 2 ^ 32 := by
          rcases ends with code | ⟨nothing, -⟩
          · rw [represents.length, code, List.length_append, List.length_singleton]
            omega
          · rw [nothing] at long
            exact absurd long (by decide)
        have zero : s₁.cxIr.liCount = 0 := by
          rw [represents.denotes.count, exact_]
          rfl
        obtain ⟨as', denotes', lengthEq⟩ := run_denotes represents.denotes last
        rw [if_pos zero] at lengthEq
        exact ⟨as', denotes', by omega⟩
      · obtain ⟨as, denotes, more⟩ := ih (Nat.le_of_not_lt first) ran₁
        obtain ⟨as', denotes', lengthEq⟩ := run_denotes denotes last
        exact ⟨as', denotes', by omega⟩

theorem not_keepsPlaceholder (fresh : start.Fresh)
    (long : 2 ^ 32 ≤ (emittedBy calls.dropLast).length + 1) :
    ¬ start.KeepsPlaceholder calls := by
  rintro ⟨s, as, code, ran, lists, ends, -⟩
  obtain ⟨as', denotes, more⟩ := run_exceeds fresh long ran
  obtain rfl := lists.denotes.unique denotes
  have lengths := congrArg List.length lists.code
  rw [List.length_map, List.length_map] at lengths
  have short := ends.length_le
  omega

end

end IrState

/-- The builders keep the placeholder exactly if the calls before the last one emit fewer
instructions than there may be entries in front of it. -/
theorem keepsPlaceholder_iff {start : IrState} (fresh : start.Fresh) (calls : List BuildCall) :
    start.KeepsPlaceholder calls ↔ (emittedBy calls.dropLast).length < 2 ^ 32 - 1 := by
  constructor
  · intro keeps
    by_contra below
    have long : 2 ^ 32 ≤ (emittedBy calls.dropLast).length + 1 := by omega
    exact IrState.not_keepsPlaceholder fresh long keeps
  · intro short
    have below : (emittedBy calls.dropLast).length + 1 < 2 ^ 32 := by omega
    obtain ⟨s, as, follows⟩ := IrState.run_keeps fresh below
    exact ⟨s, as, s.instrs, follows.ran, follows.represents.lists, follows.ends, follows.labels⟩

/-- Nothing has been built. -/
def noInstrs : IrState := ⟨Mem.empty, aklInitList, [], fun _ => none⟩

theorem noInstrs_fresh : noInstrs.Fresh := ⟨AklList.Denotes.aklInitList _, rfl⟩

theorem keepsPlaceholder_labels :
    noInstrs.KeepsPlaceholder [.label ⟨0, 0⟩, .label ⟨0, 1⟩, .nop, .label ⟨0, 0⟩, .ret] ↔
      (emittedBy [.label ⟨0, 0⟩, .label ⟨0, 1⟩, .nop, .label ⟨0, 0⟩]).length < 2 ^ 32 - 1 :=
  keepsPlaceholder_iff noInstrs_fresh _

theorem length_emittedBy_nops (n : Nat) :
    (emittedBy (List.replicate n .nop)).length = n := by
  induction n with
  | zero => rfl
  | succ n ih => exact congrArg (· + 1) ih

/-- After 2^32 calls of `akl_build_nop` there are two placeholders behind the instructions. -/
theorem not_keepsPlaceholder_nops :
    ¬ noInstrs.KeepsPlaceholder (List.replicate (2 ^ 32) .nop) := by
  refine IrState.not_keepsPlaceholder noInstrs_fresh ?_
  rw [List.dropLast_replicate, length_emittedBy_nops]
  decide

end AkLisp
