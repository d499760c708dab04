import AkLisp.Gc.Placement
import Mathlib.Data.Finset.Lattice.Fold

/-!
# The length of a request

`akl_gc_malloc` calls itself after a sweep, and the scan over the older pools of
a type stays at a pool for which `akl_gc_pool_find_free` fails.  Here every loop
and every call has a budget, and a computation whose budget is used up has no
result.  A request keeps count of its calls and of the pools its scans visit.
-/

namespace AkLisp

open Linked

universe u

variable {σ : Type u}

/-- The loop of `akl_gc_type_have_free` over the older pools: the pool with room
and the pools visited. -/
def olderPoolWithin (g : GcState σ) (last : Addr) :
    Nat → Option Addr → Option (Option Addr × List Addr)
  | 0, _ => none
  | _ + 1, none => some (none, [])
  | fuel + 1, some p =>
      if p = last then some (none, [])
      else if aklGcPoolHaveFree (g.pools p) then
        match aklGcPoolFindFree (g.pools p) with
        | none => (olderPoolWithin g last fuel (some p)).map fun r => (r.1, p :: r.2)
        | some _ => some (some p, [p])
      else (olderPoolWithin g last fuel (g.pools p).gpNext).map fun r => (r.1, p :: r.2)

/-- `akl_gc_type_have_free`, with the pools visited. -/
def typeHaveFreeWithin (fuel : Nat) (g : GcState σ) (tid : Nat) (unset : Unset) :
    Option (Option (GcState σ × Addr × Nat) × List Addr) :=
  let t := g.aiGcTypes tid
  match t.gtPoolHead, t.gtPoolLast with
  | none, _ =>
      let (g, pool) := aklGcPoolCreate g tid unset.freemap
      some (some (g, pool, 0), [])
  | some _, none => some (none, [])
  | some head, some last =>
      if aklGcPoolHaveFree (g.pools last) then
        some (some (g, last, (aklGcPoolFindFree (g.pools last)).getD (2 ^ 32 - 1)), [])
      else
        (olderPoolWithin g last fuel (some head)).map fun r =>
          (r.1.map fun pool => (g, pool, unset.ind), r.2)

/-- `akl_gc_sweep_pool`. -/
def sweepPoolWithin (marked : σ → Ref → Bool) (marker : Ref → Bool → σ → σ) :
    Nat → GcState σ → Option Addr → Option (GcState σ)
  | 0, _, _ => none
  | _ + 1, g, none => some g
  | fuel + 1, g, some p =>
      let g := (List.range aklGcPoolSize).foldl (sweepSlot marked marker p) g
      sweepPoolWithin marked marker fuel g (g.pools p).gpNext

/-- The round of `akl_gc_sweep` for one type. -/
def sweepTypeWithin (marked : σ → Ref → Bool) (fuel : Nat) (g : GcState σ) (i : Nat) :
    Option (GcState σ) :=
  let t := g.aiGcTypes i
  match t.gtMarkerFn with
  | none => some g
  | some marker => sweepPoolWithin marked marker fuel g t.gtPoolHead

/-- `akl_gc_sweep`. -/
def sweepWithin (marked : σ → Ref → Bool) (fuel : Nat) (g : GcState σ) : Option (GcState σ) :=
  if g.useGc then (List.range g.aiGcTypesCount).foldlM (sweepTypeWithin marked fuel) g
  else some g

/-- Take the slot that the search came to. -/
def takeSlot (found : GcState σ × Addr × Nat) : GcState σ × Ref :=
  let (g, p, ind) := found
  (g.setPool p (aklGcPoolUse (g.pools p) ind), ⟨p, ind⟩)

/-- A finished request: the state, the slot, the number of calls of
`akl_gc_malloc`, and the pools visited by the scan of each call. -/
structure Allocation (σ : Type u) where
  state : GcState σ
  slot : Ref
  calls : Nat
  scans : List (List Addr)

/-- `akl_gc_malloc`. -/
def mallocWithin (marked : σ → Ref → Bool) :
    Nat → GcState σ → Nat → (Nat → Unset) → Option (Allocation σ)
  | 0, _, _, _ => none
  | fuel + 1, g, tid, unset =>
      match typeHaveFreeWithin fuel g tid (unset 0) with
      | none => none
      | some (some found, visited) =>
          let (g, r) := takeSlot found
          some ⟨g, r, 1, [visited]⟩
      | some (none, visited) =>
          if g.aiGcLastWasMark = false ∧ g.useGc = true then
            match sweepWithin marked fuel g with
            | none => none
            | some g =>
                (mallocWithin marked fuel { g with aiGcLastWasMark := true } tid
                  fun call => unset (call + 1)).map fun a =>
                    { a with calls := a.calls + 1, scans := visited :: a.scans }
          else
            let (g, pool) := aklGcPoolCreate g tid (unset 0).freemap
            let (g, r) := takeSlot ({ g with aiGcLastWasMark := false }, pool, 0)
            some ⟨g, r, 1, [visited]⟩

/-- The pools of every type are a list from the head to the last pool. -/
structure PoolChains (g : GcState σ) (chains : Nat → List Addr) : Prop where
  walk : ∀ i < g.aiGcTypesCount, Walk (fun a => (g.pools a).gpNext) (g.aiGcTypes i).gtPoolHead
    (chains i)
  last : ∀ i < g.aiGcTypesCount, (g.aiGcTypes i).gtPoolLast = (chains i).getLast?

/-! ## The scan -/

section Scan

variable {g : GcState σ} {p : Option Addr} {ps : List Addr}

/-- The scan ends, and the pools it visits are the first ones of the list. -/
theorem olderPoolWithin_ends (last : Addr) (walk : Walk (fun a => (g.pools a).gpNext) p ps) :
    ∃ visited, visited <+: ps ∧
      ∀ fuel n, ps.length < fuel → ps.length ≤ n →
        olderPoolWithin g last fuel p = some (olderPool g last n p, visited) := by
  induction ps generalizing p with
  | nil =>
      refine ⟨[], List.prefix_rfl, ?_⟩
      intro fuel n enough _
      obtain ⟨fuel, rfl⟩ := Nat.exists_eq_succ_of_ne_zero (Nat.ne_zero_of_lt enough)
      rw [Walk.nil_iff.mp walk]
      cases n with
      | zero => rfl
      | succ n => rfl
  | cons a as ih =>
      obtain ⟨rfl, others⟩ := walk
      obtain ⟨visited, isPrefix, ends⟩ := ih others
      have step : ∀ fuel n, (a :: as).length < fuel → (a :: as).length ≤ n →
          ∃ fuel' n', fuel = fuel' + 1 ∧ n = n' + 1 ∧ as.length < fuel' ∧ as.length ≤ n' := by
        intro fuel n enough enough'
        rw [List.length_cons] at enough enough'
        exact ⟨fuel - 1, n - 1, by omega, by omega, by omega, by omega⟩
      by_cases isLast : a = last
      · refine ⟨[], List.nil_prefix, ?_⟩
        intro fuel n enough enough'
        obtain ⟨fuel, n, rfl, rfl, -, -⟩ := step fuel n enough enough'
        rw [olderPoolWithin, olderPool, if_pos isLast, if_pos isLast]
      · cases room : aklGcPoolHaveFree (g.pools a) with
        | true =>
            obtain ⟨ind, found⟩ := aklGcPoolFindFree_isSome room
            refine ⟨[a], List.prefix_append [a] as, ?_⟩
            intro fuel n enough enough'
            obtain ⟨fuel, n, rfl, rfl, -, -⟩ := step fuel n enough enough'
            simp only [olderPoolWithin, olderPool, if_neg isLast, room, if_true, found]
        | false =>
            refine ⟨a :: visited, (List.prefix_cons_inj a).mpr isPrefix, ?_⟩
            intro fuel n enough enough'
            obtain ⟨fuel, n, rfl, rfl, small, small'⟩ := step fuel n enough enough'
            simp only [olderPoolWithin, olderPool, if_neg isLast, room, Bool.false_eq_true,
              if_false, ends fuel n small small', Option.map_some]

end Scan

/-! ## The sweep -/

/-- What a sweep leaves alone: the lists of the pools, and whether the collector
is on. -/
structure KeepsLists (g g' : GcState σ) : Prop where
  next : ∀ a, (g'.pools a).gpNext = (g.pools a).gpNext
  types : g'.aiGcTypes = g.aiGcTypes
  typesCount : g'.aiGcTypesCount = g.aiGcTypesCount
  top : g'.top = g.top

namespace KeepsLists

variable {g g' g'' : GcState σ}

theorem refl (g : GcState σ) : KeepsLists g g :=
  ⟨fun _ => rfl, rfl, rfl, rfl⟩

theorem trans (first : KeepsLists g g') (second : KeepsLists g' g'') : KeepsLists g g'' where
  next a := (second.next a).trans (first.next a)
  types := second.types.trans first.types
  typesCount := second.typesCount.trans first.typesCount
  top := second.top.trans first.top

theorem walk {p : Option Addr} {ps : List Addr} (keeps : KeepsLists g g')
    (before : Walk (fun a => (g.pools a).gpNext) p ps) :
    Walk (fun a => (g'.pools a).gpNext) p ps :=
  before.congr fun a _ => keeps.next a

theorem chains {chains : Nat → List Addr} (keeps : KeepsLists g g')
    (lists : PoolChains g chains) : PoolChains g' chains := by
  constructor
  · intro i bound
    rw [keeps.typesCount] at bound
    rw [keeps.types]
    exact keeps.walk (lists.walk i bound)
  · intro i bound
    rw [keeps.typesCount] at bound
    rw [keeps.types]
    exact lists.last i bound

end KeepsLists

section Sweep

variable (marked : σ → Ref → Bool) (marker : Ref → Bool → σ → σ)

theorem sweepSlot_keeps (g : GcState σ) (p : Addr) (i : Nat) :
    KeepsLists g (sweepSlot marked marker p g i) := by
  unfold sweepSlot
  split
  · split
    · exact ⟨fun _ => rfl, rfl, rfl, rfl⟩
    · constructor
      · intro a
        rw [GcState.setPool_pools]
        split
        · next same => rw [same]; rfl
        · rfl
      · rfl
      · rfl
      · rfl
  · exact KeepsLists.refl g

theorem sweepSlots_keeps (g : GcState σ) (p : Addr) (is : List Nat) :
    KeepsLists g (is.foldl (sweepSlot marked marker p) g) := by
  induction is generalizing g with
  | nil => exact KeepsLists.refl g
  | cons i is ih => exact (sweepSlot_keeps marked marker g p i).trans (ih _)

/-- The sweep of a list of pools ends. -/
theorem sweepPoolWithin_ends {g : GcState σ} {p : Option Addr} {ps : List Addr}
    (walk : Walk (fun a => (g.pools a).gpNext) p ps) :
    ∃ g', KeepsLists g g' ∧
      (∀ fuel, ps.length < fuel → sweepPoolWithin marked marker fuel g p = some g') ∧
      ∀ n, ps.length ≤ n → aklGcSweepPool marked marker n g p = g' := by
  induction ps generalizing g p with
  | nil =>
      rw [Walk.nil_iff.mp walk]
      refine ⟨g, KeepsLists.refl g, ?_, ?_⟩
      · intro fuel enough
        obtain ⟨fuel, rfl⟩ := Nat.exists_eq_succ_of_ne_zero (Nat.ne_zero_of_lt enough)
        rfl
      · intro n _
        cases n with
        | zero => rfl
        | succ n => rfl
  | cons a as ih =>
      obtain ⟨rfl, others⟩ := walk
      have keeps := sweepSlots_keeps marked marker g a (List.range aklGcPoolSize)
      have rest := keeps.walk others
      dsimp only at rest
      rw [← keeps.next a] at rest
      obtain ⟨g', keeps', ends, same⟩ := ih rest
      refine ⟨g', keeps.trans keeps', ?_, ?_⟩
      · intro fuel enough
        obtain ⟨fuel, rfl⟩ := Nat.exists_eq_succ_of_ne_zero (Nat.ne_zero_of_lt enough)
        exact ends fuel (Nat.lt_of_succ_lt_succ enough)
      · intro n enough
        obtain ⟨n, rfl⟩ :=
          Nat.exists_eq_succ_of_ne_zero (Nat.ne_zero_of_lt (Nat.lt_of_succ_le enough))
        exact same n (Nat.le_of_succ_le_succ enough)

/-- A sweep ends. -/
theorem sweepWithin_ends {g : GcState σ} {chains : Nat → List Addr}
    (lists : PoolChains g chains) :
    ∃ g', KeepsLists g g' ∧
      (∀ fuel, (∀ i < g.aiGcTypesCount, (chains i).length < fuel) →
        sweepWithin marked fuel g = some g') ∧
      ((∀ i < g.aiGcTypesCount, (chains i).length ≤ g.top) → aklGcSweep marked g = g') := by
  have types : ∀ (is : List Nat) (g₁ : GcState σ), (∀ i ∈ is, i < g.aiGcTypesCount) →
      KeepsLists g g₁ → ∃ g', KeepsLists g g' ∧
        (∀ fuel, (∀ i < g.aiGcTypesCount, (chains i).length < fuel) →
          is.foldlM (sweepTypeWithin marked fuel) g₁ = some g') ∧
        ((∀ i < g.aiGcTypesCount, (chains i).length ≤ g.top) →
          is.foldl (sweepType marked) g₁ = g') := by
    intro is
    induction is with
    | nil => exact fun g₁ _ keeps => ⟨g₁, keeps, fun _ _ => rfl, fun _ => rfl⟩
    | cons i is ih =>
        intro g₁ small keeps
        have bound := small i List.mem_cons_self
        have smaller : ∀ j ∈ is, j < g.aiGcTypesCount :=
          fun j mem => small j (List.mem_cons_of_mem i mem)
        cases markerEq : (g₁.aiGcTypes i).gtMarkerFn with
        | none =>
            obtain ⟨g', keeps', ends, same⟩ := ih g₁ smaller keeps
            refine ⟨g', keeps', ?_, ?_⟩
            · intro fuel enough
              rw [List.foldlM_cons, sweepTypeWithin, markerEq]
              exact ends fuel enough
            · intro short
              rw [List.foldl_cons, sweepType, markerEq]
              exact same short
        | some marker =>
            have walk := keeps.walk (lists.walk i bound)
            rw [← keeps.types] at walk
            obtain ⟨g₂, keeps₂, ends₂, same₂⟩ := sweepPoolWithin_ends marked marker walk
            obtain ⟨g', keeps', ends, same⟩ := ih g₂ smaller (keeps.trans keeps₂)
            refine ⟨g', keeps', ?_, ?_⟩
            · intro fuel enough
              simp only [List.foldlM_cons, sweepTypeWithin, markerEq,
                ends₂ fuel (enough i bound)]
              exact ends fuel enough
            · intro short
              have enough : (chains i).length ≤ g₁.top := by
                rw [keeps.top]
                exact short i bound
              simp only [List.foldl_cons, sweepType, markerEq, same₂ g₁.top enough]
              exact same short
  cases on : g.useGc with
  | false =>
      refine ⟨g, KeepsLists.refl g, ?_, ?_⟩
      · intro fuel _
        rw [sweepWithin, if_neg (by simp [on])]
      · intro _
        rw [aklGcSweep, if_neg (by simp [on])]
  | true =>
      obtain ⟨g', keeps, ends, same⟩ := types (List.range g.aiGcTypesCount) g
        (fun i mem => List.mem_range.mp mem) (KeepsLists.refl g)
      refine ⟨g', keeps, ?_, ?_⟩
      · intro fuel enough
        rw [sweepWithin, if_pos on]
        exact ends fuel enough
      · intro short
        rw [aklGcSweep, if_pos on]
        exact same short

end Sweep

/-! ## The request -/

section Request

variable {g : GcState σ} {chains : Nat → List Addr} {tid : Nat}

/-- The search of one call ends, and its scan visits no pool twice. -/
theorem typeHaveFreeWithin_ends (lists : PoolChains g chains) (known : tid < g.aiGcTypesCount)
    (unset : Unset) :
    ∃ found visited, visited.Nodup ∧
      (∀ fuel, (chains tid).length < fuel →
        typeHaveFreeWithin fuel g tid unset = some (found, visited)) ∧
      ((chains tid).length ≤ g.top → aklGcTypeHaveFree g tid unset = found) := by
  have walk := lists.walk tid known
  have last := lists.last tid known
  cases headEq : (g.aiGcTypes tid).gtPoolHead with
  | none =>
      refine ⟨aklGcTypeHaveFree g tid unset, [], List.nodup_nil, ?_, fun _ => rfl⟩
      intro fuel _
      simp only [typeHaveFreeWithin, aklGcTypeHaveFree, headEq]
  | some head =>
      rw [headEq] at walk
      cases lastEq : (g.aiGcTypes tid).gtPoolLast with
      | none =>
          rw [lastEq] at last
          rw [List.getLast?_eq_none_iff.mp last.symm] at walk
          cases walk
      | some last =>
          cases room : aklGcPoolHaveFree (g.pools last) with
          | true =>
              refine ⟨aklGcTypeHaveFree g tid unset, [], List.nodup_nil, ?_, fun _ => rfl⟩
              intro fuel _
              simp only [typeHaveFreeWithin, aklGcTypeHaveFree, headEq, lastEq, room, if_true]
          | false =>
              obtain ⟨visited, isPrefix, ends⟩ := olderPoolWithin_ends last walk
              have exact := fun fuel enough => ends fuel (chains tid).length enough (Nat.le_refl _)
              refine ⟨(olderPool g last (chains tid).length (some head)).map
                fun pool => (g, pool, unset.ind), visited,
                isPrefix.sublist.nodup walk.nodup, ?_, ?_⟩
              · intro fuel enough
                simp only [typeHaveFreeWithin, headEq, lastEq, room, Bool.false_eq_true, if_false,
                  exact fuel enough, Option.map_some]
              · intro short
                have same := ends ((chains tid).length + 1) g.top (Nat.lt_succ_self _) short
                rw [exact _ (Nat.lt_succ_self _)] at same
                have sameFound : olderPool g last (chains tid).length (some head) =
                    olderPool g last g.top (some head) :=
                  congrArg Prod.fst (Option.some.inj same)
                simp only [aklGcTypeHaveFree, headEq, lastEq, room, Bool.false_eq_true, if_false,
                  sameFound]

/-- A call that does not sweep ends. -/
theorem mallocWithin_ends_once (marked : σ → Ref → Bool) (lists : PoolChains g chains)
    (known : tid < g.aiGcTypesCount) (noSweep : ¬ (g.aiGcLastWasMark = false ∧ g.useGc = true))
    (unset : Nat → Unset) :
    ∃ a : Allocation σ, a.calls = 1 ∧ (∀ scan ∈ a.scans, scan.Nodup) ∧
      (∀ fuel, (chains tid).length < fuel →
        mallocWithin marked (fuel + 1) g tid unset = some a) ∧
      ((chains tid).length ≤ g.top → ∀ calls,
        takeSlot (aklGcFindCalls marked (calls + 1) g tid unset) = (a.state, a.slot)) := by
  obtain ⟨found, visited, nodup, ends, same⟩ := typeHaveFreeWithin_ends lists known (unset 0)
  have nodups : ∀ scan ∈ [visited], scan.Nodup := by simpa using nodup
  cases found with
  | some found =>
      refine ⟨⟨(takeSlot found).1, (takeSlot found).2, 1, [visited]⟩, rfl, nodups, ?_, ?_⟩
      · intro fuel enough
        simp only [mallocWithin, ends fuel enough]
      · intro short calls
        simp only [aklGcFindCalls, same short]
  | none =>
      let created := aklGcPoolCreate g tid (unset 0).freemap
      let taken := takeSlot ({ created.1 with aiGcLastWasMark := false }, created.2, 0)
      refine ⟨⟨taken.1, taken.2, 1, [visited]⟩, rfl, nodups, ?_, ?_⟩
      · intro fuel enough
        simp only [mallocWithin, ends fuel enough, if_neg noSweep]
        rfl
      · intro short calls
        simp only [aklGcFindCalls, same short, if_neg noSweep]
        rfl

/-- Every request ends, after at most two calls, and no scan visits a pool twice.
The result is the one of `aklGcMalloc`. -/
theorem malloc_terminates (marked : σ → Ref → Bool) (lists : PoolChains g chains)
    (known : tid < g.aiGcTypesCount) (unset : Nat → Unset) :
    ∃ a : Allocation σ, a.calls ≤ 2 ∧ (∀ scan ∈ a.scans, scan.Nodup) ∧
      (∃ bound, ∀ fuel, bound ≤ fuel → mallocWithin marked fuel g tid unset = some a) ∧
      ((∀ i < g.aiGcTypesCount, ∀ p ∈ chains i, p < g.top) →
        aklGcMalloc marked g tid unset = (a.state, a.slot)) := by
  let longest := (Finset.range g.aiGcTypesCount).sup fun i => (chains i).length
  have within : ∀ i < g.aiGcTypesCount, (chains i).length ≤ longest := fun i small =>
    Finset.le_sup (f := fun i => (chains i).length) (Finset.mem_range.mpr small)
  have short : (∀ i < g.aiGcTypesCount, ∀ p ∈ chains i, p < g.top) →
      ∀ i < g.aiGcTypesCount, (chains i).length ≤ g.top :=
    fun below i small => (lists.walk i small).length_le (below i small)
  by_cases due : g.aiGcLastWasMark = false ∧ g.useGc = true
  · obtain ⟨found, visited, nodup, ends, same⟩ := typeHaveFreeWithin_ends lists known (unset 0)
    cases found with
    | some found =>
        refine ⟨⟨(takeSlot found).1, (takeSlot found).2, 1, [visited]⟩, Nat.le_succ 1,
          by simpa using nodup, ⟨longest + 2, ?_⟩, ?_⟩
        · intro fuel enough
          obtain ⟨fuel, rfl⟩ := Nat.exists_eq_succ_of_ne_zero (Nat.ne_zero_of_lt enough)
          have bound := within tid known
          simp only [mallocWithin, ends fuel (by omega)]
        · intro below
          show takeSlot (aklGcFindCalls marked 2 g tid unset) = _
          simp only [aklGcFindCalls, same (short below tid known)]
    | none =>
        -- the second call finds the flag set
        obtain ⟨g', keeps, sweeps, sameSweep⟩ := sweepWithin_ends marked lists
        have lists' : PoolChains { g' with aiGcLastWasMark := true } chains :=
          ⟨(keeps.chains lists).walk, (keeps.chains lists).last⟩
        have known' : tid < g'.aiGcTypesCount := by
          rw [keeps.typesCount]
          exact known
        obtain ⟨a, calls, nodups, ends', same'⟩ :=
          mallocWithin_ends_once (g := { g' with aiGcLastWasMark := true }) marked lists' known'
            (by simp) fun call => unset (call + 1)
        refine ⟨{ a with calls := a.calls + 1, scans := visited :: a.scans }, ?_, ?_,
          ⟨longest + 3, ?_⟩, ?_⟩
        · exact Nat.succ_le_succ (Nat.le_of_eq calls)
        · intro scan mem
          rcases List.mem_cons.mp mem with rfl | later
          · exact nodup
          · exact nodups scan later
        · intro fuel enough
          obtain ⟨fuel, rfl⟩ : ∃ n, fuel = n + 1 + 1 := ⟨fuel - 2, by omega⟩
          have bound := within tid known
          simp only [mallocWithin.eq_2 marked _ _ _ (fuel + 1), ends (fuel + 1) (by omega),
            if_pos due, sweeps (fuel + 1) fun i small => by have := within i small; omega,
            ends' fuel (by omega), Option.map_some]
        · intro below
          have enough := short below
          have sameTop : ({ g' with aiGcLastWasMark := true } : GcState σ).top = g.top := keeps.top
          have second := same' (sameTop ▸ enough tid known) 0
          show takeSlot (aklGcFindCalls marked (1 + 1) g tid unset) = _
          rw [aklGcFindCalls, same (enough tid known)]
          simp only [if_pos due, sameSweep enough]
          exact second
  · obtain ⟨a, calls, nodups, ends, same⟩ := mallocWithin_ends_once marked lists known due unset
    refine ⟨a, Nat.le_succ_of_le (Nat.le_of_eq calls), nodups, ⟨longest + 2, ?_⟩, ?_⟩
    · intro fuel enough
      obtain ⟨fuel, rfl⟩ := Nat.exists_eq_succ_of_ne_zero (Nat.ne_zero_of_lt enough)
      have bound := within tid known
      exact ends fuel (by omega)
    · intro below
      exact same (short below tid known) 1

/-- With the collector off every type has its list after any sequence of requests. -/
theorem Layout.poolChains {served : List (Nat × Ref)} (layout : Layout g served chains) :
    PoolChains g chains :=
  ⟨fun i _ => (layout.placed i).walk, fun i _ => (layout.placed i).last⟩

/-- The lists do not depend on the switch of the collector and the contents. -/
theorem PoolChains.switch (lists : PoolChains g chains) (on : Bool) (objects : σ) :
    PoolChains { g with useGc := on, objects := objects } chains :=
  ⟨lists.walk, lists.last⟩

end Request

/-- 64 entries, all marked, and the collector is on. -/
def fullPool : GcState (Ref → Bool) :=
  { (aklGcMallocs (fun marks r => marks r)
      (aklGcInit (List.replicate 6 (some setMark)) fun _ => false)
      (List.replicate 64 (3, zeroUnset))).1 with
    useGc := true
    objects := fun _ => true }

/-- The next request sweeps in vain. -/
theorem malloc_terminates_full :
    ∃ a : Allocation (Ref → Bool), a.calls ≤ 2 ∧ (∀ scan ∈ a.scans, scan.Nodup) ∧
      ∃ bound, ∀ fuel, bound ≤ fuel →
        mallocWithin (fun marks r => marks r) fuel fullPool 3 zeroUnset = some a := by
  have zero : ∀ q ∈ List.replicate 64 (3, zeroUnset), ZeroFilled q.2 := by
    intro q mem
    rw [List.eq_of_mem_replicate mem]
    exact fun _ => rfl
  obtain ⟨chains, layout⟩ :=
    (Layout.init (List.replicate 6 (some setMark)) fun _ => false).mallocs (fun marks r => marks r)
      (List.replicate 64 (3, zeroUnset)) zero
  have lists : PoolChains fullPool chains := layout.poolChains.switch true fun _ => true
  have known : 3 < fullPool.aiGcTypesCount := by decide +kernel
  obtain ⟨a, calls, nodups, ends, -⟩ :=
    malloc_terminates (fun marks r => marks r) lists known zeroUnset
  exact ⟨a, calls, nodups, ends⟩

end AkLisp
