import AkLisp.List.Frame
import AkLisp.List.Index

/-!
# The call protocol on the stack and a frame over it

A called function takes its arguments with `akl_frame_shift` and
`akl_frame_pop`, in any order, and leaves its result above what it has not
taken.  `Covers` splits the stack into what lies below the frame, the arguments
the frame still covers, and what was pushed after the call began.
-/

namespace AkLisp

open Linked

universe u

variable {α : Type u}

/-- The stack holds `below`, then the entries `args` which `frame` still
covers, then `above`. -/
structure Covers (s : StackState α) (frame : AklList) (below args above : List (Cell α)) :
    Prop where
  holds : s.Holds (below ++ args ++ above)
  on : FrameOn frame args

/-- The walk of `akl_init_frame` goes from the last of the arguments to the first. -/
theorem frameWalk_chained {m : Mem α} {pre args post : List Addr}
    (linked : Chained m none (pre ++ args ++ post) none) (nonempty : args ≠ []) :
    ∀ {fuel : Nat}, args.length ≤ fuel →
      frameWalk m fuel args.length args.getLast? = args.head? := by
  induction args using List.reverseRecOn generalizing post with
  | nil => exact absurd rfl nonempty
  | append_singleton init a ih =>
      intro fuel enough
      cases fuel with
      | zero => simp at enough
      | succ fuel =>
          have stepEq : ((init ++ [a]).length : Int) - 1 = init.length := by simp
          rw [frameWalk, stepEq]
          rcases List.eq_nil_or_concat init with rfl | ⟨front, b, rfl⟩
          · simp
          · rw [List.concat_eq_append] at *
            have linked' : Chained m none (pre ++ (front ++ [b]) ++ a :: post) none := by
              simpa using linked
            have prevA : m.prev a = some b := by
              rw [linked'.prev_at]
              simp [List.getLast?_append]
            have condition : (((front ++ [b]).length : Int) ≠ 0 ∧
                ((((front ++ [b]) ++ [a]).getLast?).bind m.prev).isSome = true) := by
              simp [List.getLast?_append, prevA]
              omega
            rw [if_pos condition]
            have last_eq : (((front ++ [b]) ++ [a]).getLast?).bind m.prev =
                (front ++ [b]).getLast? := by
              simp [List.getLast?_append, prevA]
            rw [last_eq, ih linked' (by simp) (by simpa using enough)]
            cases front <;> rfl

/-- Without a count the walk goes on to the first entry. -/
theorem frameWalk_zero {m : Mem α} {as post : List Addr}
    (linked : Chained m none (as ++ post) none) {fuel : Nat} (enough : as.length ≤ fuel)
    {fs : Int} (negative : fs ≤ 0) : frameWalk m fuel fs as.getLast? = as.head? := by
  induction as using List.reverseRecOn generalizing post fuel fs with
  | nil =>
      cases fuel with
      | zero => rfl
      | succ fuel => simp [frameWalk]
  | append_singleton init a ih =>
      cases fuel with
      | zero => simp at enough
      | succ fuel =>
          have linked' : Chained m none (init ++ a :: post) none := by simpa using linked
          have prevA : m.prev a = init.getLast? := by simpa using linked'.prev_at
          rw [frameWalk, List.getLast?_concat, Option.bind_some, prevA]
          cases init with
          | nil => simp
          | cons b init =>
              have counts : fs - 1 ≠ 0 ∧ ((b :: init).getLast?).isSome = true := by
                constructor
                · omega
                · simp
              rw [if_pos counts, ih linked' (by simpa using enough) (by omega)]
              rfl

/-- Counting forward along a chain that ends with `NULL`. -/
theorem indexForward_chained {m : Mem α} {pre post : List Addr} {a : Addr}
    (linked : Chained m none (pre ++ a :: post) none) (ind : Nat) :
    indexForward m a ind = (a :: post)[ind]? := by
  rw [indexForward_eq_follow]
  have behind := ((chained_append m none none pre (a :: post)).mp linked).2
  exact behind.walk_next.follow ind

namespace StackState.Holds

variable {s : StackState α} {below args above : List (Cell α)}

/-- `akl_init_frame` covers the last entries of the stack. -/
theorem aklInitFrame (holds : s.Holds (below ++ args)) (small : args.length < 2 ^ 31) :
    Covers s (AkLisp.aklInitFrame s args.length) below args [] := by
  refine ⟨by simpa using holds, ?_⟩
  have notMinus : (args.length : Int) ≠ -1 := by omega
  simp only [AkLisp.aklInitFrame, if_neg notMinus]
  have countEq : UInt32.ofInt args.length = UInt32.ofNat args.length := by
    have reduced : ((args.length : Int) % 2 ^ 32).toNat = args.length := by omega
    rw [UInt32.ofInt, reduced]
  refine ⟨countEq, by omega, ?_, ?_⟩
  · intro nonempty
    have linked : Chained s.mem none (below.map Prod.fst ++ args.map Prod.fst ++ []) none := by
      simpa using holds.denotes.chained
    have lastEq : s.cxStack.liLast = (args.map Prod.fst).getLast? := by
      rw [holds.denotes.last, List.map_append, List.getLast?_append]
      cases h : (args.map Prod.fst).getLast? with
      | none => simp_all
      | some a => rfl
    have enough : (args.map Prod.fst).length ≤ s.mem.top + 1 := by
      have := holds.length_le_top
      simp at this ⊢
      omega
    have walked := frameWalk_chained linked (by simpa using nonempty) enough
    rw [List.length_map] at walked
    simp only [lastEq]
    rw [walked, List.head?_map]
  · intro nonempty
    rw [holds.denotes.last, List.map_append, List.getLast?_append]
    cases h : (args.map Prod.fst).getLast? with
    | none => simp_all
    | some a => simpa using h.symm

/-- The head of a frame over no arguments is the bottom of the stack. -/
theorem aklInitFrame_zero {cells : List (Cell α)} (holds : s.Holds cells) :
    (AkLisp.aklInitFrame s (0 : Nat)).liHead = cells.head?.map Prod.fst := by
  have notMinus : ((0 : Nat) : Int) ≠ -1 := by decide
  have linked : Chained s.mem none (cells.map Prod.fst ++ []) none := by
    simpa using holds.denotes.chained
  have enough : (cells.map Prod.fst).length ≤ s.mem.top + 1 := by
    rw [List.length_map]
    exact Nat.le_succ_of_le holds.length_le_top
  simp only [AkLisp.aklInitFrame, if_neg notMinus, holds.denotes.last]
  rw [frameWalk_zero linked enough (by decide), List.head?_map]

/-- Counting forward from an entry of the stack. -/
theorem indexedEntry {c : Cell α} (holds : s.Holds (below ++ c :: above)) {frame : AklList}
    (headEq : frame.liHead = some c.1) (ind : Nat) :
    aklListIndexEntry s.mem frame ind = (c :: above)[ind]?.map Prod.fst := by
  have linked : Chained s.mem none (below.map Prod.fst ++ c.1 :: above.map Prod.fst) none := by
    simpa using holds.denotes.chained
  have walked := indexForward_chained linked ind
  have addrEq : (c.1 :: above.map Prod.fst)[ind]? = (c :: above)[ind]?.map Prod.fst := by
    rw [← List.map_cons, List.getElem?_map]
  simp only [aklListIndexEntry, headEq, Option.bind_some]
  rw [if_neg (by simp), walked, addrEq]

end StackState.Holds

namespace Covers

variable {s : StackState α} {frame : AklList} {below args above : List (Cell α)}

/-- The chain around one argument. -/
theorem chained_at {c : Cell α} {left right : List (Cell α)}
    (covers : Covers s frame below (left ++ c :: right) above) :
    Chained s.mem none
      ((below ++ left).map Prod.fst ++ c.1 :: (right ++ above).map Prod.fst) none := by
  simpa using covers.holds.denotes.chained

theorem nodup_at {c : Cell α} {left right : List (Cell α)}
    (covers : Covers s frame below (left ++ c :: right) above) :
    ((below ++ left).map Prod.fst ++ c.1 :: (right ++ above).map Prod.fst).Nodup := by
  simpa using covers.holds.nodup

/-- Taking the entry `c` out of the stack. -/
theorem holds_unlink {c : Cell α} {left right : List (Cell α)}
    (covers : Covers s frame below (left ++ c :: right) above) :
    StackState.Holds ⟨s.mem.unlink c.1, s.cxStack.without s.mem c.1⟩
      (below ++ (left ++ right) ++ above) := by
  have holds : s.Holds ((below ++ left) ++ c :: (right ++ above)) := by
    simpa using covers.holds
  simpa using holds.removeEntry

theorem count_pred {n : Nat} : UInt32.ofNat (n + 1) - 1 = UInt32.ofNat n := by
  rw [UInt32.ofNat_add]
  simp

/-- Shifting takes the first argument. -/
theorem shift {c : Cell α} {rest : List (Cell α)}
    (covers : Covers s frame below (c :: rest) above) :
    ∃ s' frame', aklFrameShift s frame = (some c.2, s', frame') ∧
      Covers s' frame' below rest above := by
  have covers' : Covers s frame below ([] ++ c :: rest) above := covers
  have nonzero : frame.liCount ≠ 0 := by simp [covers.on.count_eq_zero_iff]
  have headEq : frame.liHead = some c.1 := by simpa using covers.on.head (by simp)
  have prev_ne := covers'.chained_at.prev_ne_self covers'.nodup_at
  have next_ne := covers'.chained_at.next_ne_self covers'.nodup_at
  have nextEq : s.mem.next c.1 = ((rest ++ above).map Prod.fst).head? := by
    simpa using covers'.chained_at.next_at
  have data : s.mem.data c.1 = some c.2 := covers.holds.data c (by simp)
  -- the frame cuts the link to the second argument, the stack restores it
  have header_eq : s.cxStack.without (s.mem.setPrev? (s.mem.next c.1) none) c.1 =
      s.cxStack.without s.mem c.1 := by
    cases nextC : s.mem.next c.1 with
    | none => rfl
    | some b =>
        have ne : c.1 ≠ b := by
          intro equal
          exact next_ne (equal ▸ nextC)
        simp [AklList.without, Mem.setPrev?, ne]
  refine ⟨⟨s.mem.unlink c.1, s.cxStack.without s.mem c.1⟩, (aklListShiftEntry s.mem frame).2.2,
    ?_, covers'.holds_unlink, ?_⟩
  · simp only [aklFrameShift, aklFrameGetCount, if_neg nonzero, aklListShiftEntry, headEq,
      Option.bind_some, aklListRemoveEntry_some, Mem.unlink_setPrev? next_ne, header_eq,
      Mem.unlink_data, data]
  · simp only [aklListShiftEntry, headEq, Option.bind_some]
    refine ⟨?_, ?_, ?_, ?_⟩
    · split <;> simp only [covers.on.count, List.length_cons, count_pred]
    · have := covers.on.small
      simp at this
      omega
    · intro nonempty
      have headRest : ((rest ++ above).map Prod.fst).head? = rest.head?.map Prod.fst := by
        rw [List.map_append, List.head?_append_of_ne_nil _ (by simpa using nonempty),
          List.head?_map]
      split <;> simp only [nextEq, headRest]
    · intro nonempty
      have lastEq := covers.on.last (by simp)
      rw [List.getLast?_cons_of_ne_nil nonempty] at lastEq
      have ne : some c.1 ≠ rest.getLast?.map Prod.fst := by
        intro equal
        have mem : c.1 ∈ rest.map Prod.fst := by
          rw [← List.getLast?_map] at equal
          exact List.mem_of_getLast? equal.symm
        have := covers'.nodup_at
        simp at this mem
        grind
      simp only [lastEq, if_neg ne]

/-- Popping takes the last argument. -/
theorem pop {c : Cell α} {rest : List (Cell α)}
    (covers : Covers s frame below (rest ++ [c]) above) :
    ∃ s' frame', aklFramePop s frame = (some c.2, s', frame') ∧
      Covers s' frame' below rest above := by
  have nonzero : frame.liCount ≠ 0 := by simp [covers.on.count_eq_zero_iff]
  have lastEq : frame.liLast = some c.1 := by simpa using covers.on.last (by simp)
  have prev_ne := covers.chained_at.prev_ne_self covers.nodup_at
  have next_ne := covers.chained_at.next_ne_self covers.nodup_at
  have prevEq : s.mem.prev c.1 = ((below ++ rest).map Prod.fst).getLast? := by
    simpa using covers.chained_at.prev_at
  have data : s.mem.data c.1 = some c.2 := covers.holds.data c (by simp)
  have nextSelf : (s.mem.unlink c.1).next c.1 = s.mem.next c.1 := by
    simp [Mem.unlink_next, prev_ne]
  have prevSelf : (s.mem.unlink c.1).prev c.1 = s.mem.prev c.1 := by
    simp [Mem.unlink_prev, next_ne]
  have header_eq : s.cxStack.without (s.mem.unlink c.1) c.1 = s.cxStack.without s.mem c.1 := by
    simp [AklList.without, nextSelf, prevSelf]
  have unlinked := covers.holds_unlink
  rw [List.append_nil] at unlinked
  refine ⟨⟨s.mem.unlink c.1, s.cxStack.without s.mem c.1⟩, frame.without s.mem c.1, ?_,
    unlinked, ?_⟩
  · simp only [aklFramePop, aklFrameGetCount, if_neg nonzero, aklListPopEntry, lastEq,
      aklListRemoveEntry_some, Mem.unlink_unlink prev_ne next_ne, header_eq, Mem.unlink_data,
      Option.bind_some, data]
  · refine ⟨?_, ?_, ?_, ?_⟩
    · simp only [AklList.without, covers.on.count, List.length_append, List.length_singleton,
        count_pred]
    · have := covers.on.small
      simp at this
      omega
    · intro nonempty
      have headEq := covers.on.head (by simp)
      rw [List.head?_append_of_ne_nil _ nonempty] at headEq
      have ne : rest.head?.map Prod.fst ≠ some c.1 := by
        intro equal
        have mem : c.1 ∈ rest.map Prod.fst := by
          rw [← List.head?_map] at equal
          exact List.mem_of_head? equal
        have := covers.nodup_at
        simp at this mem
        grind
      simp only [AklList.without, headEq, if_neg ne]
    · intro nonempty
      have lastRest : ((below ++ rest).map Prod.fst).getLast? = rest.getLast?.map Prod.fst := by
        rw [List.map_append, List.getLast?_append_of_ne_nil _ (by simpa using nonempty),
          List.getLast?_map]
      simp only [AklList.without, lastEq, if_pos, prevEq, lastRest]

/-- On an exhausted frame both give `NULL` and change nothing. -/
theorem shift_nil (covers : Covers s frame below [] above) :
    aklFrameShift s frame = (none, s, frame) := by
  have zero : frame.liCount = 0 := covers.on.count_eq_zero_iff.mpr rfl
  simp [aklFrameShift, aklFrameGetCount, zero]

theorem pop_nil (covers : Covers s frame below [] above) :
    aklFramePop s frame = (none, s, frame) := by
  have zero : frame.liCount = 0 := covers.on.count_eq_zero_iff.mpr rfl
  simp [aklFramePop, aklFrameGetCount, zero]

/-- Pushing leaves the frame alone. -/
theorem push (covers : Covers s frame below args above) (v : α) :
    Covers (aklStackPush s v) frame below args (above ++ [(s.mem.top, v)]) := by
  refine ⟨?_, covers.on⟩
  have pushed := covers.holds.push v
  simpa using pushed

/-- `akl_frame_destroy` takes the arguments that are left and nothing else. -/
theorem aklFrameDestroy (covers : Covers s frame below args above) :
    ∃ s' frame', AkLisp.aklFrameDestroy s frame = (s', frame') ∧ s'.Holds (below ++ above) := by
  rw [AkLisp.aklFrameDestroy, covers.on.count_toNat]
  induction args using List.reverseRecOn generalizing s frame with
  | nil =>
      refine ⟨s, frame, ?_, by simpa using covers.holds⟩
      simp [destroyLoop, covers.pop_nil]
  | append_singleton rest c ih =>
      obtain ⟨s₁, frame₁, popEq, covers₁⟩ := covers.pop
      obtain ⟨s', frame', loopEq, holds'⟩ := ih covers₁
      refine ⟨s', frame', ?_, holds'⟩
      rw [List.length_append, List.length_singleton, destroyLoop, popEq]
      exact loopEq

/-- While the frame covers an argument, `akl_frame_at` counts from its first
argument into whatever lies above. -/
theorem entry (covers : Covers s frame below args above) (nonempty : args ≠ []) (ind : Nat) :
    aklListIndexEntry s.mem frame ind = (args ++ above)[ind]?.map Prod.fst := by
  obtain ⟨c, rest, rfl⟩ := List.exists_cons_of_ne_nil nonempty
  have headEq : frame.liHead = some c.1 := by simpa using covers.on.head (by simp)
  have holds : s.Holds (below ++ c :: (rest ++ above)) := by simpa using covers.holds
  simpa using holds.indexedEntry headEq ind

theorem aklFrameAt (covers : Covers s frame below args above) (nonempty : args ≠ [])
    (ind : Nat) :
    AkLisp.aklFrameAt s frame ind = (args ++ above)[ind]?.map Prod.snd := by
  rw [AkLisp.aklFrameAt, aklListIndex, covers.entry nonempty]
  cases found : (args ++ above)[ind]? with
  | none => rfl
  | some c => exact covers.holds.data c (by simp [List.mem_of_getElem? found])

end Covers

/-- The two ways a called function takes an argument. -/
inductive FrameOp where
  | shift
  | pop
  deriving DecidableEq, Repr

/-- One call of `akl_frame_shift` or `akl_frame_pop`. -/
def FrameOp.run (s : StackState α) (frame : AklList) :
    FrameOp → Option α × StackState α × AklList
  | .shift => aklFrameShift s frame
  | .pop => aklFramePop s frame

/-- A sequence of such calls with the values they return. -/
def runFrameOps (s : StackState α) (frame : AklList) :
    List FrameOp → List (Option α) × StackState α × AklList
  | [] => ([], s, frame)
  | op :: ops =>
      let (v, s, frame) := op.run s frame
      let (vs, s, frame) := runFrameOps s frame ops
      (v :: vs, s, frame)

/-- What one such call means for the list of arguments that are left. -/
def FrameOp.take (args : List α) : FrameOp → Option α × List α
  | .shift => (args.head?, args.tail)
  | .pop => (args.getLast?, args.dropLast)

/-- What a sequence of such calls means. -/
def takeArgs (args : List α) : List FrameOp → List (Option α) × List α
  | [] => ([], args)
  | op :: ops =>
      let (v, args) := op.take args
      let (vs, args) := takeArgs args ops
      (v :: vs, args)

/-- One call on the overlapping lists does what it means for the arguments. -/
theorem Covers.run {s : StackState α} {frame : AklList} {below args above : List (Cell α)}
    (covers : Covers s frame below args above) (op : FrameOp) :
    ∃ s' frame', op.run s frame = ((op.take args).1.map Prod.snd, s', frame') ∧
      Covers s' frame' below (op.take args).2 above := by
  cases op with
  | shift =>
      cases args with
      | nil => exact ⟨s, frame, covers.shift_nil, covers⟩
      | cons c rest => exact covers.shift
  | pop =>
      rcases List.eq_nil_or_concat args with rfl | ⟨rest, c, rfl⟩
      · exact ⟨s, frame, covers.pop_nil, covers⟩
      · rw [List.concat_eq_append] at *
        simpa [FrameOp.run, FrameOp.take] using covers.pop

/-- So does a sequence of calls. -/
theorem Covers.runFrameOps {s : StackState α} {frame : AklList}
    {below args above : List (Cell α)} (covers : Covers s frame below args above)
    (ops : List FrameOp) :
    ∃ s' frame', AkLisp.runFrameOps s frame ops =
        ((takeArgs args ops).1.map (Option.map Prod.snd), s', frame') ∧
      Covers s' frame' below (takeArgs args ops).2 above := by
  induction ops generalizing s frame args with
  | nil => exact ⟨s, frame, rfl, covers⟩
  | cons op ops ih =>
      obtain ⟨s₁, frame₁, runEq, covers₁⟩ := covers.run op
      obtain ⟨s', frame', runsEq, covers'⟩ := ih covers₁
      refine ⟨s', frame', ?_, covers'⟩
      simp only [AkLisp.runFrameOps, takeArgs, runEq, runsEq, List.map_cons]

theorem takeArgs_map {β : Type u} (f : α → β) (args : List α) (ops : List FrameOp) :
    takeArgs (args.map f) ops =
      ((takeArgs args ops).1.map (Option.map f), (takeArgs args ops).2.map f) := by
  induction ops generalizing args with
  | nil => rfl
  | cons op ops ih =>
      have tookEq : op.take (args.map f) = ((op.take args).1.map f, (op.take args).2.map f) := by
        cases op <;> simp [FrameOp.take]
      simp only [takeArgs, tookEq, ih, List.map_cons]

/-- The call protocol: on a stack of `below` and `args`, every sequence of
shifts and pops through a frame over the arguments returns what it means for
the list of arguments; and after the result `r` has been pushed and the frame
destroyed, the stack is well formed and holds `below` and `r`.  The argument
count is a C `int`. -/
theorem callProtocol {s : StackState α} {below args : List (Cell α)}
    (holds : s.Holds (below ++ args)) (intArgc : args.length < 2 ^ 31)
    (ops : List FrameOp) (r : α) :
    ∃ results s₁ frame₁ s₂ frame₂ a,
      runFrameOps s (aklInitFrame s args.length) ops = (results, s₁, frame₁) ∧
      results = (takeArgs (args.map Prod.snd) ops).1 ∧
      aklFrameDestroy (aklStackPush s₁ r) frame₁ = (s₂, frame₂) ∧
      s₂.Holds (below ++ [(a, r)]) := by
  obtain ⟨s₁, frame₁, runEq, covers₁⟩ := (holds.aklInitFrame intArgc).runFrameOps ops
  obtain ⟨s₂, frame₂, destroyEq, holds₂⟩ := (covers₁.push r).aklFrameDestroy
  refine ⟨_, s₁, frame₁, s₂, frame₂, s₁.mem.top, runEq, ?_, destroyEq, holds₂⟩
  rw [takeArgs_map]

/-- A stack of three values, a function of two arguments: it takes both and asks
for a third one. -/
theorem callProtocol_two :
    ∃ results s₁ frame₁ s₂ frame₂ a,
      runFrameOps (aklStackPush (aklStackPush (aklStackPush default 7) 8) 9)
          (aklInitFrame (aklStackPush (aklStackPush (aklStackPush default 7) 8) 9) 2)
          [.pop, .shift, .shift] = (results, s₁, frame₁) ∧
        results = [some 9, some 8, none] ∧
        aklFrameDestroy (aklStackPush s₁ 5) frame₁ = (s₂, frame₂) ∧
        s₂.Holds [(0, 7), (a, 5)] :=
  have holds : (aklStackPush (aklStackPush (aklStackPush default 7) 8) 9).Holds
      ([(0, 7)] ++ [(1, 8), (2, 9)]) := ((StackState.Holds.empty.push 7).push 8).push 9
  callProtocol holds (by decide) [.pop, .shift, .shift] 5

end AkLisp
