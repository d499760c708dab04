import AkLisp.Gc.Pool
import Mathlib.Data.List.Range

/-!
# The garbage-collected heap

Every registered type has a chain of pools, from `gt_pool_head` along
`gp_next`.  A request takes a slot of the last pool, of an older one, or of a
new one; when nothing is free and the collector is on, it sweeps first.  The
contents of the slots are a parameter: `marked` reads the mark of a slot, and a
marker of a type changes the contents.
-/

namespace AkLisp

open Linked

universe u

/-- A slot of a pool. -/
structure Ref where
  pool : Addr
  slot : Nat
  deriving DecidableEq

/-- `struct akl_gc_type`; the marker is `NULL` or sets or clears marks. -/
structure GcType (σ : Type u) where
  gtMarkerFn : Option (Ref → Bool → σ → σ)
  gtPoolLast : Option Addr
  gtPoolCount : UInt32
  gtPoolHead : Option Addr

/-- The fields of `struct akl_state` the collector works on, the pools, of which
those from `top` on have not been created, and the contents of their slots. -/
structure GcState (σ : Type u) where
  useGc : Bool
  aiGcLastWasMark : Bool
  aiGcTypes : Nat → GcType σ
  aiGcTypesCount : Nat
  pools : Addr → GcPool
  top : Addr
  objects : σ

/-- What C leaves open in one call of `akl_gc_malloc`: the value of the
uninitialised variable `ind` and the memory a new pool's bitmap is made of. -/
structure Unset where
  ind : Nat
  freemap : Nat → BitVec 32

variable {σ : Type u}

/-- Replace one pool. -/
def GcState.setPool (g : GcState σ) (a : Addr) (p : GcPool) : GcState σ :=
  { g with pools := Function.update g.pools a p }

@[simp]
theorem GcState.setPool_pools (g : GcState σ) (a b : Addr) (p : GcPool) :
    (g.setPool a p).pools b = if b = a then p else g.pools b := by
  simp [GcState.setPool, Function.update_apply]

/-- `akl_gc_register_type`. -/
def aklGcRegisterType (g : GcState σ) (marker : Option (Ref → Bool → σ → σ)) : GcState σ :=
  { g with
    aiGcTypes := Function.update g.aiGcTypes g.aiGcTypesCount ⟨marker, none, 0, none⟩
    aiGcTypesCount := g.aiGcTypesCount + 1 }

/-- `akl_gc_init`: the collector is off and the given types are registered.  The
first six are the base types; more may be registered later. -/
def aklGcInit (markers : List (Option (Ref → Bool → σ → σ))) (objects : σ) : GcState σ :=
  markers.foldl aklGcRegisterType
    ⟨false, false, fun _ => ⟨none, none, 0, none⟩, 0, fun _ => default, 0, objects⟩

/-- The bitmap of a new pool.  The call of `memset` clears two bytes of it. -/
def clearedFreemap (freemap : Nat → BitVec 32) : Nat → BitVec 32 :=
  Function.update freemap 0 (freemap 0 &&& 0xFFFF0000#32)

theorem clearedFreemap_zero : clearedFreemap (fun _ => 0) = fun _ => 0 := by
  funext k
  simp [clearedFreemap, Function.update_apply]

/-- `akl_gc_pool_create`. -/
def aklGcPoolCreate (g : GcState σ) (tid : Nat) (freemap : Nat → BitVec 32) :
    GcState σ × Addr :=
  let pool := g.top
  let pools := Function.update g.pools pool ⟨0, none, clearedFreemap freemap⟩
  let t := g.aiGcTypes tid
  let pools :=
    match t.gtPoolLast with
    | none => pools
    | some last => Function.update pools last { pools last with gpNext := some pool }
  let t := if t.gtPoolHead = none then { t with gtPoolHead := some pool } else t
  let t := { t with gtPoolLast := some pool, gtPoolCount := t.gtPoolCount + 1 }
  ({ g with pools := pools, top := g.top + 1, aiGcTypes := Function.update g.aiGcTypes tid t },
    pool)

/-- The loop of `akl_gc_type_have_free` over the pools before the last one.  A
chain visits no pool twice, so the number of pools bounds it. -/
def olderPool (g : GcState σ) (last : Addr) : Nat → Option Addr → Option Addr
  | 0, _ => none
  | _ + 1, none => none
  | fuel + 1, some p =>
      if p = last then none
      else if aklGcPoolHaveFree (g.pools p) then some p
      else olderPool g last fuel (g.pools p).gpNext

/-- `akl_gc_type_have_free`: the pool and the slot, or `none` for `FALSE`.  An
older pool leaves `*ind` as it was.  A type with a first pool has a last one. -/
def aklGcTypeHaveFree (g : GcState σ) (tid : Nat) (unset : Unset) :
    Option (GcState σ × Addr × Nat) :=
  let t := g.aiGcTypes tid
  match t.gtPoolHead, t.gtPoolLast with
  | none, _ =>
      let (g, pool) := aklGcPoolCreate g tid unset.freemap
      some (g, pool, 0)
  | some _, none => none
  | some head, some last =>
      if aklGcPoolHaveFree (g.pools last) then
        some (g, last, (aklGcPoolFindFree (g.pools last)).getD (2 ^ 32 - 1))
      else
        (olderPool g last g.top (some head)).map fun pool => (g, pool, unset.ind)

/-- One round of the loop of `akl_gc_sweep_pool`. -/
def sweepSlot (marked : σ → Ref → Bool) (marker : Ref → Bool → σ → σ) (p : Addr)
    (g : GcState σ) (i : Nat) : GcState σ :=
  if aklGcPoolInUse (g.pools p) i then
    if marked g.objects ⟨p, i⟩ then { g with objects := marker ⟨p, i⟩ false g.objects }
    else g.setPool p (aklGcPoolClearUse (g.pools p) i)
  else g

/-- `akl_gc_sweep_pool`, at most `fuel` pools. -/
def aklGcSweepPool (marked : σ → Ref → Bool) (marker : Ref → Bool → σ → σ) :
    Nat → GcState σ → Option Addr → GcState σ
  | 0, g, _ => g
  | _ + 1, g, none => g
  | fuel + 1, g, some p =>
      let g := (List.range aklGcPoolSize).foldl (sweepSlot marked marker p) g
      aklGcSweepPool marked marker fuel g (g.pools p).gpNext

/-- The round of `akl_gc_sweep` for one type. -/
def sweepType (marked : σ → Ref → Bool) (g : GcState σ) (i : Nat) : GcState σ :=
  let t := g.aiGcTypes i
  match t.gtMarkerFn with
  | none => g
  | some marker => aklGcSweepPool marked marker g.top g t.gtPoolHead

/-- `akl_gc_sweep`. -/
def aklGcSweep (marked : σ → Ref → Bool) (g : GcState σ) : GcState σ :=
  if g.useGc then (List.range g.aiGcTypesCount).foldl (sweepType marked) g else g

/-- Everything `akl_gc_malloc` does before it takes the slot: a sweep if nothing
is free, one is due and the collector is on, and a new pool if still nothing is
free.  `akl_gc_mark` does nothing. -/
def aklGcFindCalls (marked : σ → Ref → Bool) :
    Nat → GcState σ → Nat → (Nat → Unset) → GcState σ × Addr × Nat
  | 0, g, _, _ => (g, g.top, 0)
  | calls + 1, g, tid, unset =>
      match aklGcTypeHaveFree g tid (unset 0) with
      | some found => found
      | none =>
          if g.aiGcLastWasMark = false ∧ g.useGc = true then
            aklGcFindCalls marked calls { aklGcSweep marked g with aiGcLastWasMark := true } tid
              fun call => unset (call + 1)
          else
            let (g, pool) := aklGcPoolCreate g tid (unset 0).freemap
            ({ g with aiGcLastWasMark := false }, pool, 0)

/-- The search of `akl_gc_malloc`.  The second call finds the flag set and does
not sweep again, so there is no third one. -/
def aklGcFind (marked : σ → Ref → Bool) : GcState σ → Nat → (Nat → Unset) →
    GcState σ × Addr × Nat :=
  aklGcFindCalls marked 2

/-- `akl_gc_malloc`: the slot it returns and the state it leaves. -/
def aklGcMalloc (marked : σ → Ref → Bool) (g : GcState σ) (tid : Nat) (unset : Nat → Unset) :
    GcState σ × Ref :=
  let (g, p, ind) := aklGcFind marked g tid unset
  (g.setPool p (aklGcPoolUse (g.pools p) ind), ⟨p, ind⟩)

/-- Whether a slot is in use. -/
def GcState.inUse (g : GcState σ) (r : Ref) : Bool :=
  aklGcPoolInUse (g.pools r.pool) r.slot

/-! ## Creating a pool -/

section Create

variable (g : GcState σ) (tid : Nat) (freemap : Nat → BitVec 32)

@[simp]
theorem aklGcPoolCreate_types (i : Nat) :
    (aklGcPoolCreate g tid freemap).1.aiGcTypes i =
      if i = tid then
        { g.aiGcTypes tid with
          gtPoolLast := some g.top
          gtPoolCount := (g.aiGcTypes tid).gtPoolCount + 1
          gtPoolHead := (g.aiGcTypes tid).gtPoolHead.or (some g.top) }
      else g.aiGcTypes i := by
  simp only [aklGcPoolCreate, Function.update_apply]
  cases headEq : (g.aiGcTypes tid).gtPoolHead with
  | none => simp
  | some head => simp [headEq]

/-- The new pool is empty and hangs behind the last one; nothing else changes. -/
theorem aklGcPoolCreate_pools (a : Addr) :
    (aklGcPoolCreate g tid freemap).1.pools a =
      { (if a = g.top then ⟨0, none, clearedFreemap freemap⟩ else g.pools a) with
        gpNext := if (g.aiGcTypes tid).gtPoolLast = some a then some g.top
          else if a = g.top then none else (g.pools a).gpNext } := by
  simp only [aklGcPoolCreate]
  cases (g.aiGcTypes tid).gtPoolLast with
  | none =>
      by_cases new : a = g.top
      · simp [new]
      · simp [new]
  | some last =>
      by_cases isLast : last = a
      · subst isLast
        by_cases new : last = g.top
        · simp [new]
        · simp [new]
      · by_cases new : a = g.top
        · simp [new, new ▸ isLast, new ▸ Ne.symm isLast]
        · simp [new, isLast, Ne.symm isLast]

end Create

/-- The search makes the calls the source makes: after a sweep it starts again. -/
theorem aklGcFind_eq (marked : σ → Ref → Bool) (g : GcState σ) (tid : Nat)
    (unset : Nat → Unset) :
    aklGcFind marked g tid unset =
      match aklGcTypeHaveFree g tid (unset 0) with
      | some found => found
      | none =>
          if g.aiGcLastWasMark = false ∧ g.useGc = true then
            aklGcFind marked { aklGcSweep marked g with aiGcLastWasMark := true } tid
              fun call => unset (call + 1)
          else
            let (g, pool) := aklGcPoolCreate g tid (unset 0).freemap
            ({ g with aiGcLastWasMark := false }, pool, 0) := by
  rw [aklGcFind, aklGcFindCalls]
  cases aklGcTypeHaveFree g tid (unset 0) with
  | some found => rfl
  | none =>
      by_cases due : g.aiGcLastWasMark = false ∧ g.useGc = true
      · simp [due, aklGcFindCalls]
      · simp [due]

end AkLisp
