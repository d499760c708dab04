import AkLisp.List.Basic
import Mathlib.Data.List.Perm.Subperm
import Mathlib.Data.List.Range
import Mathlib.Algebra.Group.Nat.Defs

/-!
# The evaluation stack and its argument frames

A frame is a second list header over the last entries of the stack list.  An
entry taken from the frame is unlinked twice, once through each header, and the
entries of the frame may lie under others that were pushed after the call
began.  `StackState.Holds` lists the entries of the stack with their values,
`FrameOn` says which of them a frame still covers.
-/

namespace AkLisp

open Linked

universe u

/-- The node memory together with the header of the evaluation stack
(`cx_stack`). -/
structure StackState (α : Type u) where
  mem : Mem α
  cxStack : AklList

variable {α : Type u}

instance : Inhabited (StackState α) := ⟨⟨default, default⟩⟩

/-- The loop `while (--fs && akl_list_it_has_prev(it)) akl_list_it_prev(&it)`.
A chain visits no entry twice, so the number of allocated entries bounds it. -/
def frameWalk (m : Mem α) : Nat → Int → Option Addr → Option Addr
  | 0, _, it => it
  | fuel + 1, fs, it =>
      if fs - 1 ≠ 0 ∧ (it.bind m.prev).isSome then
        frameWalk m fuel (fs - 1) (it.bind m.prev)
      else it

/-- `akl_init_frame`: the header of the frame over the last `len` entries. -/
def aklInitFrame (s : StackState α) (len : Int) : AklList :=
  if len = -1 then aklInitList
  else
    { aklInitList with
      liCount := UInt32.ofInt len
      liLast := s.cxStack.liLast
      liHead := frameWalk s.mem (s.mem.top + 1) len s.cxStack.liLast }

/-- `akl_frame_get_count`. -/
def aklFrameGetCount (frame : AklList) : UInt32 := frame.liCount

/-- `akl_frame_at`. -/
def aklFrameAt (s : StackState α) (frame : AklList) (ind : Nat) : Option α :=
  aklListIndex s.mem frame ind

/-- `akl_stack_push`. -/
def aklStackPush (s : StackState α) (value : α) : StackState α :=
  let (_, mem, cxStack) := aklListAppend s.mem s.cxStack (some value)
  ⟨mem, cxStack⟩

/-- `akl_stack_top`. -/
def aklStackTop (s : StackState α) : Option α :=
  aklListLast s.mem s.cxStack

/-- `akl_stack_pop` of a context whose parent works on the same stack. -/
def aklStackPop (s : StackState α) : Option α × StackState α :=
  let (v, mem, cxStack) := aklListPop s.mem s.cxStack
  (v, ⟨mem, cxStack⟩)

/-- `akl_frame_shift`. -/
def aklFrameShift (s : StackState α) (frame : AklList) :
    Option α × StackState α × AklList :=
  if aklFrameGetCount frame = 0 then (none, s, frame)
  else
    let (ent, mem, frame) := aklListShiftEntry s.mem frame
    let (_, mem, cxStack) := aklListRemoveEntry mem s.cxStack ent
    (ent.bind mem.data, ⟨mem, cxStack⟩, frame)

/-- `akl_frame_pop`. -/
def aklFramePop (s : StackState α) (frame : AklList) :
    Option α × StackState α × AklList :=
  if aklFrameGetCount frame = 0 then (none, s, frame)
  else
    let (ent, mem, frame) := aklListPopEntry s.mem frame
    let (_, mem, cxStack) := aklListRemoveEntry mem s.cxStack ent
    (ent.bind mem.data, ⟨mem, cxStack⟩, frame)

/-- The loop of `akl_frame_destroy`, at most `fuel` rounds. -/
def destroyLoop : Nat → StackState α → AklList → StackState α × AklList
  | 0, s, frame => (s, frame)
  | fuel + 1, s, frame =>
      match aklFramePop s frame with
      | (none, s, frame) => (s, frame)
      | (some _, s, frame) => destroyLoop fuel s frame

/-- `akl_frame_destroy`: pop until `NULL` comes back.  Every other pop lowers
`li_count`, and a frame with count 0 gives `NULL`. -/
def aklFrameDestroy (s : StackState α) (frame : AklList) : StackState α × AklList :=
  destroyLoop (frame.liCount.toNat + 1) s frame

/-- A stack entry with the value it carries. -/
abbrev Cell (α : Type u) := Addr × α

/-- The stack is a well-formed list of exactly these entries. -/
structure StackState.Holds (s : StackState α) (cells : List (Cell α)) : Prop where
  denotes : s.cxStack.Denotes s.mem (cells.map Prod.fst)
  data : ∀ c ∈ cells, s.mem.data c.1 = some c.2

/-- The frame still covers exactly these entries. -/
structure FrameOn (frame : AklList) (cells : List (Cell α)) : Prop where
  count : frame.liCount = UInt32.ofNat cells.length
  small : cells.length < 2 ^ 32
  head : cells ≠ [] → frame.liHead = cells.head?.map Prod.fst
  last : cells ≠ [] → frame.liLast = cells.getLast?.map Prod.fst

namespace FrameOn

variable {frame : AklList}

theorem count_eq_zero_iff {cells : List (Cell α)} (on : FrameOn frame cells) :
    frame.liCount = 0 ↔ cells = [] := by
  rw [on.count]
  constructor
  · intro zero
    have toNat_eq := congrArg UInt32.toNat zero
    rw [UInt32.toNat_ofNat_of_lt' on.small] at toNat_eq
    exact List.length_eq_zero_iff.mp toNat_eq
  · rintro rfl
    rfl

theorem count_toNat {cells : List (Cell α)} (on : FrameOn frame cells) :
    frame.liCount.toNat = cells.length := by
  rw [on.count, UInt32.toNat_ofNat_of_lt' on.small]

end FrameOn

namespace StackState.Holds

variable {s : StackState α} {cells : List (Cell α)} {frame : AklList}

/-- The stack before anything was pushed. -/
theorem empty : (default : StackState α).Holds [] :=
  ⟨.aklInitList _, fun _ mem => absurd mem List.not_mem_nil⟩

theorem nodup (holds : s.Holds cells) : (cells.map Prod.fst).Nodup := holds.denotes.nodup

theorem length_le_top (holds : s.Holds cells) : cells.length ≤ s.mem.top := by
  have included : cells.map Prod.fst ⊆ List.range s.mem.top := fun a mem =>
    List.mem_range.mpr (holds.denotes.below a mem)
  simpa using (List.subperm_of_subset holds.nodup included).length_le

/-- Pushing adds one entry at the end, at a fresh address. -/
theorem push (holds : s.Holds cells) (v : α) :
    (aklStackPush s v).Holds (cells ++ [(s.mem.top, v)]) := by
  have appended := holds.denotes.append (some v)
  refine ⟨by rw [List.map_append]; exact appended, ?_⟩
  intro c mem
  change (aklListAppend s.mem s.cxStack (some v)).2.1.data c.1 = some c.2
  rw [aklListAppend_data]
  rcases List.mem_append.mp mem with mem | mem
  · have below := holds.denotes.below c.1 (List.mem_map_of_mem mem)
    rw [if_neg (Nat.ne_of_lt below), holds.data c mem]
  · rw [List.mem_singleton.mp mem]
    simp

/-- The stack holds one list of entries only. -/
theorem unique {cells' : List (Cell α)} (holds : s.Holds cells) (holds' : s.Holds cells') :
    cells = cells' := by
  have addrs : cells.map Prod.fst = cells'.map Prod.fst :=
    holds.denotes.unique holds'.denotes
  have values {cells : List (Cell α)} (holds : s.Holds cells) :
      (cells.map Prod.fst).map s.mem.data = (cells.map Prod.snd).map some := by
    rw [List.map_map, List.map_map]
    exact List.map_congr_left holds.data
  have contents : cells.map Prod.snd = cells'.map Prod.snd := by
    apply List.map_injective_iff.mpr fun _ _ => Option.some.inj
    rw [← values holds, ← values holds', addrs]
  rw [← List.zip_unzip cells, ← List.zip_unzip cells', List.unzip_eq_map, List.unzip_eq_map, addrs,
    contents]

/-- Unlinking an entry from the stack. -/
theorem removeEntry {xs ys : List (Cell α)} {c : Cell α} (holds : s.Holds (xs ++ c :: ys)) :
    StackState.Holds ⟨s.mem.unlink c.1, s.cxStack.without s.mem c.1⟩ (xs ++ ys) := by
  have denotes : s.cxStack.Denotes s.mem (xs.map Prod.fst ++ c.1 :: ys.map Prod.fst) := by
    simpa using holds.denotes
  refine ⟨by simpa using denotes.without, ?_⟩
  intro d mem
  rw [Mem.unlink_data]
  refine holds.data d ?_
  rcases List.mem_append.mp mem with mem | mem <;> simp [mem]

theorem pop {c : Cell α} (holds : s.Holds (cells ++ [c])) :
    ∃ s', aklStackPop s = (some c.2, s') ∧ s'.Holds cells := by
  have lastEq : s.cxStack.liLast = some c.1 := by simpa using holds.denotes.last
  have data : s.mem.data c.1 = some c.2 := holds.data c (by simp)
  refine ⟨⟨s.mem.unlink c.1, s.cxStack.without s.mem c.1⟩, ?_, ?_⟩
  · simp [aklStackPop, aklListPop, aklListPopEntry, lastEq, data]
  · have holds' : s.Holds (cells ++ c :: []) := holds
    simpa using holds'.removeEntry

theorem pop_nil (holds : s.Holds []) : aklStackPop s = (none, s) := by
  have lastEq : s.cxStack.liLast = none := by simpa using holds.denotes.last
  simp [aklStackPop, aklListPop, aklListPopEntry, lastEq]

theorem top (holds : s.Holds cells) : aklStackTop s = cells.getLast?.map Prod.snd := by
  rcases List.eq_nil_or_concat cells with rfl | ⟨init, c, rfl⟩
  · have lastEq : s.cxStack.liLast = none := by simpa using holds.denotes.last
    simp [aklStackTop, aklListLast, lastEq]
  · rw [List.concat_eq_append] at *
    have lastEq : s.cxStack.liLast = some c.1 := by simpa using holds.denotes.last
    simp [aklStackTop, aklListLast, lastEq, holds.data c (by simp)]

end StackState.Holds

end AkLisp
