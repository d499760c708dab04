import AkLisp.Memory.Blocks
import AkLisp.Transition.Conservation

/-!
# The size of the allocated memory

`ai_gc_malloc_size` counts the bytes that are asked for.  The callbacks of the state are not part of
the program: what they answer is given with each call, and they hand out an address only if there is
no live block at it.
-/

namespace AkLisp

open Linked Memory Transition

/-- `akl_nomem_action_t` -/
inductive NomemAction where
  | terminate
  | tryAgain
  | retNull
  deriving DecidableEq

/-- What the callbacks do when they are asked for memory: there is a block, or there is none, and
`mc_nomem_fn` releases blocks by `akl_free` and says what to do. -/
inductive MemAnswer where
  | block (p : Addr)
  | noMemory (freed : List Addr) (action : NomemAction)

/-- The blocks that the callbacks have handed out, and what the program counts. -/
structure MemState where
  live : Blocks
  aiGcMallocSize : UInt32

/-- The counter as `akl_gc_init` sets it, before the first block. -/
def MemState.init : MemState := ⟨∅, 0⟩

/-- The counter is the sum of the sizes modulo 2^32. -/
def MemState.Conserved (m : MemState) : Prop :=
  m.aiGcMallocSize.toNat = m.live.total % 2 ^ 32

/-- `akl_free`.  The callback may be given live blocks only. -/
def aklFree (ptr : Addr) (size : UInt64) (m : MemState) : Option MemState :=
  if ptr ∈ m.live then some ⟨m.live.erase ptr, m.aiGcMallocSize - size.toUInt32⟩ else none

/-- `akl_free` with the current size of the block. -/
def releaseBlock (ptr : Addr) (m : MemState) : Option MemState :=
  (m.live.lookup ptr).bind fun size => aklFree ptr (UInt64.ofNat size) m

/-- What `akl_alloc`, `akl_calloc` and `akl_realloc` do with the answers to their callback: the
bytes are counted before the answer is looked at.  The call ends with a pointer, which may be
null, or not at all. -/
def aklRequest (bytes : UInt64) : List MemAnswer → MemState → Option (Option Addr × MemState)
  | [], _ => none
  | answer :: answers, m =>
      let m := { m with aiGcMallocSize := m.aiGcMallocSize + bytes.toUInt32 }
      match answer with
      | .block p => some (some p, m)
      | .noMemory freed action => do
          let m ← runs releaseBlock freed m
          match action with
          | .terminate => none
          | .tryAgain => aklRequest bytes answers m
          | .retNull => some (none, m)

/-- `akl_alloc` -/
def aklAlloc (size : UInt64) (answers : List MemAnswer) (m : MemState) :
    Option (Option Addr × MemState) :=
  aklRequest size answers m

/-- `akl_calloc` -/
def aklCalloc (nmemb size : UInt64) (answers : List MemAnswer) (m : MemState) :
    Option (Option Addr × MemState) :=
  aklRequest (size * nmemb) answers m

/-- `akl_realloc`.  The callback is given the pointer, but the counter does not depend on it. -/
def aklRealloc (_ptr : Option Addr) (size : UInt64) (answers : List MemAnswer) (m : MemState) :
    Option (Option Addr × MemState) :=
  aklRequest size answers m

/-- The block that a successful call has got from its callback. -/
def MemState.granted (m : MemState) (p : Addr) (size : Nat) : Option MemState :=
  if p ∈ m.live then none else some { m with live := m.live.insert p size }

/-- The block that the callback of a successful `akl_realloc` has released. -/
def MemState.released (m : MemState) : Option Addr → Option MemState
  | none => some m
  | some p => if p ∈ m.live then some { m with live := m.live.erase p } else none

/-- The calls. -/
inductive MemCall where
  | alloc (size : UInt64) (answers : List MemAnswer)
  | calloc (nmemb size : UInt64) (answers : List MemAnswer)
  | realloc (ptr : Option Addr) (size : UInt64) (answers : List MemAnswer)
  | free (ptr : Addr)

/-- The state after the call, if it is successful. -/
def MemCall.run : MemCall → MemState → Option MemState
  | .alloc size answers, m =>
      match aklAlloc size answers m with
      | some (some p, m) => m.granted p size.toNat
      | _ => none
  | .calloc nmemb size answers, m =>
      match aklCalloc nmemb size answers m with
      | some (some p, m) => m.granted p (nmemb.toNat * size.toNat)
      | _ => none
  | .realloc ptr size answers, m =>
      match aklRealloc ptr size answers m with
      | some (some p, m) => (m.released ptr).bind fun m => m.granted p size.toNat
      | _ => none
  | .free ptr, m => releaseBlock ptr m

/-- How often memory was asked for in vain. -/
def retries : List MemAnswer → Nat
  | .noMemory _ _ :: answers => retries answers + 1
  | _ => 0

/-- The bytes that a call counts too many: those it counts again each time it tries again, and those
of the block that is moved. -/
def MemCall.excess : MemCall → Blocks → Nat
  | .alloc size answers, _ => size.toNat * retries answers
  | .calloc nmemb size answers, _ => nmemb.toNat * size.toNat * retries answers
  | .realloc ptr size answers, live => size.toNat * retries answers + live.sizeAt ptr
  | .free _, _ => 0

/-- They are none modulo 2^32. -/
def MemCall.Balanced (call : MemCall) (m : MemState) : Prop := 2 ^ 32 ∣ call.excess m.live

namespace MemState

/-- The counter is larger than the sum of the sizes, by a number modulo 2^32. -/
def Exceeds (m : MemState) (excess : Nat) : Prop :=
  m.aiGcMallocSize = UInt32.ofNat (m.live.total + excess)

variable {m m' : MemState} {live : Blocks} {count : UInt32} {p : Addr} {size excess : Nat}

theorem exceeds_mk : Exceeds ⟨live, count⟩ excess ↔ count = UInt32.ofNat (live.total + excess) :=
  Iff.rfl

theorem conserved_iff_exceeds : m.Conserved ↔ m.Exceeds 0 := by
  rw [Conserved, Exceeds, ← UInt32.toNat_inj, UInt32.toNat_ofNat', Nat.add_zero]

/-- The excess is seen unless it is a multiple of 2^32. -/
theorem Exceeds.conserved_iff (exceeds : m.Exceeds excess) : m.Conserved ↔ 2 ^ 32 ∣ excess := by
  rw [Conserved, exceeds, UInt32.toNat_ofNat']
  omega

theorem Exceeds.counted (exceeds : m.Exceeds excess) {bytes : UInt64}
    (same : bytes.toNat % 2 ^ 32 = size % 2 ^ 32) :
    Exceeds { m with aiGcMallocSize := m.aiGcMallocSize + bytes.toUInt32 } (excess + size) := by
  rw [exceeds_mk, ← UInt32.toNat_inj, exceeds, UInt32.toNat_add,
    UInt64.toNat_toUInt32, UInt32.toNat_ofNat', UInt32.toNat_ofNat']
  omega

theorem Exceeds.granted (exceeds : m.Exceeds (size + excess))
    (granted : m.granted p size = some m') : m'.Exceeds excess := by
  rw [MemState.granted] at granted
  split at granted
  · cases granted
  · next fresh =>
      cases granted
      rw [Exceeds, Blocks.total_insert fresh, Nat.add_assoc]
      exact exceeds

theorem Exceeds.released {ptr : Option Addr} (exceeds : m.Exceeds excess)
    (released : m.released ptr = some m') : m'.Exceeds (excess + m.live.sizeAt ptr) := by
  cases ptr with
  | none =>
      cases released
      exact exceeds
  | some p =>
      rw [MemState.released] at released
      split at released
      · next mem =>
          cases released
          obtain ⟨size, found⟩ := Option.isSome_iff_exists.mp (AList.lookup_isSome.mpr mem)
          have gone := Blocks.total_erase found
          rw [exceeds_mk, exceeds, Blocks.sizeAt, found, Option.getD_some, ← gone, Nat.add_assoc,
            Nat.add_comm size]
      · cases released

end MemState

section

variable {m m' : MemState} {excess size : Nat}

/-- The blocks that are still there are the same. -/
def Kept (before after : Blocks) : Prop :=
  ∀ p size, after.lookup p = some size → before.lookup p = some size

theorem Kept.sizeAt {before after : Blocks} (kept : Kept before after) {p : Addr}
    (mem : p ∈ after) : after.sizeAt (some p) = before.sizeAt (some p) := by
  obtain ⟨size, found⟩ := Option.isSome_iff_exists.mp (AList.lookup_isSome.mpr mem)
  rw [Blocks.sizeAt, Blocks.sizeAt, found, kept p size found]

/-- `akl_free` subtracts what the block has. -/
theorem releaseBlock_exceeds {p : Addr} (exceeds : m.Exceeds excess)
    (released : releaseBlock p m = some m') : m'.Exceeds excess ∧ Kept m.live m'.live := by
  obtain ⟨size, found, freed⟩ := Option.bind_eq_some_iff.mp released
  rw [aklFree, if_pos (AList.lookup_isSome.mp (by rw [found]; rfl))] at freed
  cases freed
  have gone := Blocks.total_erase found
  constructor
  · rw [MemState.exceeds_mk, exceeds, ← gone, ← UInt32.toNat_inj, UInt32.toNat_sub,
      UInt64.toNat_toUInt32, UInt64.toNat_ofNat', UInt32.toNat_ofNat', UInt32.toNat_ofNat']
    omega
  · intro q size' found'
    have other : q ≠ p := by
      rintro rfl
      rw [AList.lookup_erase] at found'
      cases found'
    rwa [AList.lookup_erase_ne other] at found'

theorem releaseBlocks_exceeds {freed : List Addr} (exceeds : m.Exceeds excess)
    (released : runs releaseBlock freed m = some m') : m'.Exceeds excess ∧ Kept m.live m'.live := by
  induction freed generalizing m with
  | nil =>
      cases released
      exact ⟨exceeds, fun p size found => found⟩
  | cons p freed ih =>
      obtain ⟨m₁, first, others⟩ := Option.bind_eq_some_iff.mp released
      obtain ⟨exceeds₁, kept₁⟩ := releaseBlock_exceeds exceeds first
      obtain ⟨exceeds', kept'⟩ := ih exceeds₁ others
      exact ⟨exceeds', fun q size found => kept₁ q size (kept' q size found)⟩

/-- A call that is granted counts its bytes once for each time it has asked. -/
theorem aklRequest_exceeds {bytes : UInt64} (same : bytes.toNat % 2 ^ 32 = size % 2 ^ 32)
    {answers : List MemAnswer} {p : Addr} (exceeds : m.Exceeds excess)
    (granted : aklRequest bytes answers m = some (some p, m')) :
    m'.Exceeds (size + (excess + size * retries answers)) ∧ Kept m.live m'.live := by
  induction answers generalizing m excess with
  | nil => cases granted
  | cons answer answers ih =>
      have counted := exceeds.counted same
      cases answer with
      | block q =>
          cases granted
          rw [retries, Nat.mul_zero, Nat.add_zero, Nat.add_comm]
          · exact ⟨counted, fun p size found => found⟩
          · nofun
      | noMemory freed action =>
          obtain ⟨m₁, released, granted⟩ := Option.bind_eq_some_iff.mp granted
          obtain ⟨exceeds₁, kept₁⟩ := releaseBlocks_exceeds counted released
          cases action with
          | terminate => cases granted
          | retNull => cases granted
          | tryAgain =>
              obtain ⟨exceeds', kept'⟩ := ih exceeds₁ granted
              refine ⟨?_, fun q size found => kept₁ q size (kept' q size found)⟩
              rw [retries, Nat.mul_succ, Nat.add_comm (size * retries answers),
                ← Nat.add_assoc excess]
              exact exceeds'

/-- When the block is there, the attempts in vain are counted too many. -/
theorem aklRequest_granted {bytes : UInt64} (same : bytes.toNat % 2 ^ 32 = size % 2 ^ 32)
    {answers : List MemAnswer} {p : Addr} {m₁ : MemState} (conserved : m.Conserved)
    (requested : aklRequest bytes answers m = some (some p, m₁))
    (granted : m₁.granted p size = some m') : m'.Exceeds (size * retries answers) := by
  have exceeds := MemState.conserved_iff_exceeds.mp conserved
  have counted := (aklRequest_exceeds same exceeds requested).1
  rw [Nat.zero_add] at counted
  exact counted.granted granted

/-- What the counter exceeds the sizes by after a call. -/
theorem MemCall.run_exceeds {call : MemCall} (conserved : m.Conserved)
    (called : call.run m = some m') : m'.Exceeds (call.excess m.live) := by
  cases call with
  | alloc bytes answers =>
      simp only [run] at called
      split at called
      · next p m₁ requested => exact aklRequest_granted rfl conserved requested called
      · cases called
  | calloc nmemb bytes answers =>
      have same : (bytes * nmemb).toNat % 2 ^ 32 = (nmemb.toNat * bytes.toNat) % 2 ^ 32 := by
        rw [UInt64.toNat_mul, Nat.mod_mod_of_dvd _ (by decide), Nat.mul_comm]
      simp only [run] at called
      split at called
      · next p m₁ requested => exact aklRequest_granted same conserved requested called
      · cases called
  | realloc ptr bytes answers =>
      simp only [run] at called
      split at called
      · next p m₁ granted =>
          have exceeds := MemState.conserved_iff_exceeds.mp conserved
          obtain ⟨counted, kept⟩ := aklRequest_exceeds rfl exceeds granted
          obtain ⟨m₂, released, called⟩ := Option.bind_eq_some_iff.mp called
          have moved := counted.released released
          have same : m₁.live.sizeAt ptr = m.live.sizeAt ptr := by
            cases ptr with
            | none => rfl
            | some q =>
                rw [MemState.released] at released
                split at released
                · next mem => exact kept.sizeAt mem
                · cases released
          rw [Nat.zero_add, same, Nat.add_assoc] at moved
          exact moved.granted called
      · cases called
  | free ptr =>
      exact (releaseBlock_exceeds (MemState.conserved_iff_exceeds.mp conserved) called).1

/-- A call keeps the counter right exactly if it is balanced. -/
theorem MemCall.conserved_iff {call : MemCall} (conserved : m.Conserved)
    (called : call.run m = some m') : m'.Conserved ↔ call.Balanced m :=
  (run_exceeds conserved called).conserved_iff

end

/-- The counter is the sum of the sizes in every state of a run exactly if each call of the run is
balanced: a block that is moved has no bytes, and memory is there when it is asked for first, but
for numbers that are multiples of 2^32. -/
theorem accounting_iff {calls : List MemCall} {final : MemState}
    (ran : runs MemCall.run calls .init = some final) :
    Throughout MemCall.run MemState.Conserved calls .init ↔
      EachStep MemCall.run MemCall.Balanced calls .init :=
  throughout_iff MemCall.conserved_iff rfl ran

theorem accounting_released :
    Throughout MemCall.run MemState.Conserved [.alloc 8 [.block 1], .free 1] .init ↔
      EachStep MemCall.run MemCall.Balanced [.alloc 8 [.block 1], .free 1] .init :=
  @accounting_iff _ ⟨∅, 0⟩ rfl

/-- Eight bytes that become sixteen are counted as twenty-four. -/
theorem accounting_moved : ¬ Throughout MemCall.run MemState.Conserved
    [.alloc 8 [.block 1], .realloc (some 1) 16 [.block 2]] .init := by
  intro throughout
  have conserved := throughout _ [] ⟨AList.singleton 2 16, 24⟩ (List.append_nil _).symm rfl
  exact absurd conserved (by decide : (24 : Nat) ≠ 16 % 2 ^ 32)

end AkLisp
