import AkLisp.Gc.Live
import AkLisp.Linked.Walk

/-!
# Where requests go while the collector is off

Without sweeps no slot is ever given back, so the pools of a type fill up one
after the other.  `Placed` ties the chain of pools, its two ends, its count and
the bitmaps to the slots handed out so far; one request preserves it for the
type asked for and leaves the other types alone.
-/

namespace AkLisp

open Linked

universe u

variable {σ : Type u}

/-- A request: the type and what C leaves open in it. -/
abbrev GcRequest := Nat × (Nat → Unset)

/-- Requests one after the other, with the slot each of them is served by. -/
def aklGcMallocs (marked : σ → Ref → Bool) :
    GcState σ → List GcRequest → GcState σ × List (Nat × Ref)
  | g, [] => (g, [])
  | g, (tid, unset) :: requests =>
      let (g, r) := aklGcMalloc marked g tid unset
      let (g, served) := aklGcMallocs marked g requests
      (g, (tid, r) :: served)

/-- The slots that have served the requests of one type. -/
def servedFor (tid : Nat) (served : List (Nat × Ref)) : List Ref :=
  served.filterMap fun s => if s.1 = tid then some s.2 else none

/-- The last pool of a type, in which the first `n` slots are in use. -/
structure Filling (g : GcState σ) (tid : Nat) (pool : Addr) (n : Nat) : Prop where
  head : (g.aiGcTypes tid).gtPoolHead ≠ none
  last : (g.aiGcTypes tid).gtPoolLast = some pool
  counted : (g.pools pool).Counted
  filled : ∀ ind < 64, g.inUse ⟨pool, ind⟩ = decide (ind < n)

namespace Filling

variable {g : GcState σ} {tid n : Nat} {pool : Addr}

/-- The next slot is taken, whatever the collector is set to. -/
theorem malloc (filling : Filling g tid pool n) (bound : n < 64) (marked : σ → Ref → Bool)
    (unset : Nat → Unset) :
    aklGcMalloc marked g tid unset =
      (g.setPool pool (aklGcPoolUse (g.pools pool) n), ⟨pool, n⟩) := by
  have room : aklGcPoolHaveFree (g.pools pool) = true := by
    rw [aklGcPoolHaveFree_iff_exists]
    refine ⟨n, bound, ?_⟩
    have free := filling.filled n bound
    rwa [decide_eq_false (Nat.lt_irrefl n)] at free
  have found := aklGcPoolFindFree_next filling.counted bound filling.filled
  obtain ⟨head, headEq⟩ := Option.ne_none_iff_exists'.mp filling.head
  rw [aklGcMalloc, aklGcFind_eq]
  simp only [aklGcTypeHaveFree, headEq, filling.last, room, if_true, found, Option.getD_some]

/-- Then one slot more is in use. -/
theorem next (filling : Filling g tid pool n) (bound : n < 64) :
    Filling (g.setPool pool (aklGcPoolUse (g.pools pool) n)) tid pool (n + 1) where
  head := filling.head
  last := filling.last
  counted := by
    have free := filling.filled n bound
    rw [decide_eq_false (Nat.lt_irrefl n)] at free
    rw [GcState.setPool_pools, if_pos rfl]
    exact filling.counted.use bound free
  filled := by
    intro ind small
    have before := filling.filled ind small
    simp only [GcState.inUse, GcState.setPool_pools, if_true] at before ⊢
    rw [aklGcPoolInUse_use, before, Bool.eq_iff_iff, Bool.or_eq_true, decide_eq_true_eq,
      decide_eq_true_eq, decide_eq_true_eq]
    omega

end Filling

/-- The pools `ps` of a type and the slots `refs` that were handed out in them. -/
structure Placed (g : GcState σ) (tid : Nat) (refs : List Ref) (ps : List Addr) : Prop where
  walk : Walk (fun a => (g.pools a).gpNext) (g.aiGcTypes tid).gtPoolHead ps
  last : (g.aiGcTypes tid).gtPoolLast = ps.getLast?
  count : (g.aiGcTypes tid).gtPoolCount = UInt32.ofNat ps.length
  length : ps.length = (refs.length + 63) / 64
  below : ∀ a ∈ ps, a < g.top
  placed : ∀ n r, refs[n]? = some r → r.slot = n % 64 ∧ ps[n / 64]? = some r.pool
  filled : ∀ i a, ps[i]? = some a → ∀ j < 64,
    g.inUse ⟨a, j⟩ = decide (64 * i + j < refs.length)

namespace Placed

variable {g : GcState σ} {tid : Nat} {refs : List Ref} {ps : List Addr}

/-- Other types and other pools may change. -/
theorem congr {g' : GcState σ} (placed : Placed g tid refs ps)
    (types : g'.aiGcTypes tid = g.aiGcTypes tid) (pools : ∀ a ∈ ps, g'.pools a = g.pools a)
    (top : g.top ≤ g'.top) : Placed g' tid refs ps where
  walk := by
    rw [types]
    apply placed.walk.congr
    intro a mem
    rw [pools a mem]
  last := by rw [types, placed.last]
  count := by rw [types, placed.count]
  length := placed.length
  below := fun a mem => Nat.lt_of_lt_of_le (placed.below a mem) top
  placed := placed.placed
  filled := by
    intro i a found j bound
    have same := placed.filled i a found j bound
    simp only [GcState.inUse] at same ⊢
    rw [pools a (List.mem_of_getElem? found), same]

/-- A pool that is not the last one of its type is full. -/
theorem full_of_not_last (placed : Placed g tid refs ps) {i : Nat} {a : Addr}
    (found : ps[i]? = some a) (inner : i + 1 < ps.length) :
    ∀ j < 64, g.inUse ⟨a, j⟩ = true := by
  intro j bound
  have length := placed.length
  rw [placed.filled i a found j bound, decide_eq_true]
  omega

/-- When the requests fill whole pools there is no room. -/
theorem full (placed : Placed g tid refs ps) (whole : refs.length % 64 = 0) {a : Addr}
    (mem : a ∈ ps) : aklGcPoolHaveFree (g.pools a) = false := by
  have length := placed.length
  obtain ⟨i, bound, found⟩ := List.getElem_of_mem mem
  rw [Bool.eq_false_iff, Ne, aklGcPoolHaveFree_iff_exists]
  rintro ⟨j, small, free⟩
  have taken := placed.filled i a (by rw [List.getElem?_eq_getElem bound, found]) j small
  rw [decide_eq_true (by omega)] at taken
  simp only [GcState.inUse] at taken
  rw [taken] at free
  cases free

/-- A new pool serves the next request. -/
theorem grow (placed : Placed g tid refs ps) (whole : refs.length % 64 = 0) {g' : GcState σ}
    (types : g'.aiGcTypes tid = (aklGcPoolCreate g tid fun _ => 0).1.aiGcTypes tid)
    (top : g'.top = g.top + 1)
    (pools : ∀ a, g'.pools a = if a = g.top
      then aklGcPoolUse ((aklGcPoolCreate g tid fun _ => 0).1.pools g.top) 0
      else (aklGcPoolCreate g tid fun _ => 0).1.pools a) :
    Placed g' tid (refs ++ [⟨g.top, 0⟩]) (ps ++ [g.top]) := by
  have length := placed.length
  have old : ∀ a ∈ ps, a ≠ g.top := fun a mem => Nat.ne_of_lt (placed.below a mem)
  have lastNe : (g.aiGcTypes tid).gtPoolLast ≠ some g.top := by
    rw [placed.last]
    intro equal
    exact old g.top (List.mem_of_getLast? equal) rfl
  have nextTop : (g'.pools g.top).gpNext = none := by
    rw [pools, if_pos rfl]
    show ((aklGcPoolCreate g tid fun _ => 0).1.pools g.top).gpNext = none
    rw [aklGcPoolCreate_pools]
    simp [lastNe]
  have nextOld : ∀ a ∈ ps, (g'.pools a).gpNext =
      if (g.aiGcTypes tid).gtPoolLast = some a then some g.top else (g.pools a).gpNext := by
    intro a mem
    rw [pools, if_neg (old a mem), aklGcPoolCreate_pools]
    simp [old a mem]
  have freemapOld : ∀ a ∈ ps, ∀ j, g'.inUse ⟨a, j⟩ = g.inUse ⟨a, j⟩ := by
    intro a mem j
    simp only [GcState.inUse, pools, if_neg (old a mem), aklGcPoolCreate_pools,
      aklGcPoolInUse_eq]
  constructor
  · rw [types, aklGcPoolCreate_types, if_pos rfl]
    cases ps using List.reverseRecOn with
    | nil =>
        have headNone : (g.aiGcTypes tid).gtPoolHead = none := placed.walk
        exact ⟨by simp [headNone], nextTop⟩
    | append_singleton ps last =>
        have lastEq : (g.aiGcTypes tid).gtPoolLast = some last := by
          rw [placed.last, List.getLast?_concat]
        have headEq : (g.aiGcTypes tid).gtPoolHead.or (some g.top) =
            (g.aiGcTypes tid).gtPoolHead := by
          rw [placed.walk.head]
          cases ps <;> rfl
        rw [headEq]
        apply placed.walk.concat
        · intro b mem
          have notLast : last ≠ b := by
            rintro rfl
            exact (List.nodup_append.mp placed.walk.nodup).2.2 last mem last (by simp) rfl
          show (g'.pools b).gpNext = (g.pools b).gpNext
          rw [nextOld b (List.mem_append_left _ mem), lastEq]
          simp [notLast]
        · show (g'.pools last).gpNext = some g.top
          rw [nextOld last (by simp), lastEq, if_pos rfl]
        · exact nextTop
  · rw [types, aklGcPoolCreate_types, if_pos rfl, List.getLast?_concat]
  · rw [types, aklGcPoolCreate_types, if_pos rfl, List.length_append, UInt32.ofNat_add]
    simp only [placed.count]
    rfl
  · rw [List.length_append, List.length_append, length]
    simp only [List.length_singleton]
    omega
  · intro a mem
    rw [top]
    rcases List.mem_append.mp mem with inside | new
    · exact Nat.lt_succ_of_lt (placed.below a inside)
    · rw [List.mem_singleton.mp new]
      exact Nat.lt_succ_self _
  · intro n r found
    rw [List.getElem?_append] at found ⊢
    split at found
    · next inside =>
        obtain ⟨slot, pool⟩ := placed.placed n r found
        refine ⟨slot, ?_⟩
        rw [if_pos (by omega), pool]
    · rw [List.getElem?_singleton] at found
      split at found
      · cases found
        have nEq : n = refs.length := by omega
        refine ⟨by rw [nEq, whole], ?_⟩
        have atEnd : n / 64 - ps.length = 0 := by omega
        rw [if_neg (by omega), atEnd]
        rfl
      · cases found
  · intro i a found j bound
    rw [List.length_append, List.length_singleton]
    rw [List.getElem?_append] at found
    split at found
    · next inside =>
        rw [freemapOld a (List.mem_of_getElem? found), placed.filled i a found j bound,
          decide_eq_decide]
        omega
    · rw [List.getElem?_singleton] at found
      split at found
      · cases found
        have iEq : i = ps.length := by omega
        simp only [GcState.inUse, pools, if_true, aklGcPoolInUse_use]
        have empty := aklGcPoolInUse_zero
          ((aklGcPoolCreate g tid fun _ => 0).1.pools g.top).avCount
          ((aklGcPoolCreate g tid fun _ => 0).1.pools g.top).gpNext j
        rw [aklGcPoolInUse_eq] at empty
        rw [aklGcPoolInUse_eq, aklGcPoolCreate_pools]
        simp only [if_true, clearedFreemap_zero]
        rw [empty, Bool.or_false, decide_eq_decide]
        omega
      · cases found

/-- The last pool serves the next request. -/
theorem fill (placed : Placed g tid refs ps) (part : refs.length % 64 ≠ 0) {a : Addr}
    (lastEq : ps.getLast? = some a) :
    Placed (g.setPool a (aklGcPoolUse (g.pools a) (refs.length % 64))) tid
      (refs ++ [⟨a, refs.length % 64⟩]) ps := by
  have length := placed.length
  have lastAt : ps[refs.length / 64]? = some a := by
    rw [← lastEq, List.getLast?_eq_getElem?]
    congr 1
    omega
  constructor
  · apply placed.walk.congr
    intro b _
    by_cases same : b = a
    · simp [same, aklGcPoolUse]
    · simp [same]
  · exact placed.last
  · exact placed.count
  · rw [List.length_append, List.length_singleton, length]
    omega
  · exact placed.below
  · intro n r found
    rw [List.getElem?_append] at found
    split at found
    · exact placed.placed n r found
    · rw [List.getElem?_singleton] at found
      split at found
      · cases found
        have nEq : n = refs.length := by omega
        rw [nEq]
        exact ⟨rfl, lastAt⟩
      · cases found
  · intro i b found j bound
    have before := placed.filled i b found j bound
    rw [List.length_append, List.length_singleton]
    simp only [GcState.inUse, GcState.setPool_pools] at before ⊢
    by_cases same : b = a
    · subst same
      have iEq : i = refs.length / 64 := by
        apply (List.getElem?_inj (List.getElem?_eq_some_iff.mp found).1 placed.walk.nodup).mp
        rw [found, lastAt]
      rw [if_pos rfl, aklGcPoolInUse_use, before, iEq, Bool.eq_iff_iff, Bool.or_eq_true,
        decide_eq_true_eq, decide_eq_true_eq, decide_eq_true_eq]
      omega
    · have iNe : i ≠ refs.length / 64 := by
        rintro rfl
        rw [lastAt] at found
        exact same (Option.some.inj found).symm
      have inner := (List.getElem?_eq_some_iff.mp found).1
      rw [if_neg same, before, decide_eq_decide]
      omega

/-! ## What a request does -/

/-- With all pools full the loop over the older pools finds nothing. -/
theorem olderPool_none {last : Addr} (fuel : Nat) {p : Option Addr} {as : List Addr}
    (walk : Walk (fun a => (g.pools a).gpNext) p as)
    (full : ∀ a ∈ as, aklGcPoolHaveFree (g.pools a) = false) : olderPool g last fuel p = none := by
  induction fuel generalizing p as with
  | zero => rfl
  | succ fuel ih =>
      cases as with
      | nil =>
          rw [Walk.nil_iff.mp walk]
          rfl
      | cons a as =>
          rw [walk.1, olderPool]
          split
          · rfl
          · rw [full a List.mem_cons_self, if_neg Bool.false_ne_true]
            exact ih walk.2 fun b mem => full b (List.mem_cons_of_mem a mem)

/-- Without room, and with the collector off, a new pool is created. -/
theorem malloc_whole (placed : Placed g tid refs ps) (whole : refs.length % 64 = 0)
    (off : g.useGc = false) (marked : σ → Ref → Bool) {unset : Nat → Unset}
    (zero : ZeroFilled unset) :
    ∃ flag, aklGcMalloc marked g tid unset =
      (GcState.setPool { (aklGcPoolCreate g tid fun _ => 0).1 with aiGcLastWasMark := flag } g.top
        (aklGcPoolUse ((aklGcPoolCreate g tid fun _ => 0).1.pools g.top) 0), ⟨g.top, 0⟩) := by
  cases ps with
  | nil =>
      have headNone : (g.aiGcTypes tid).gtPoolHead = none := placed.walk
      refine ⟨g.aiGcLastWasMark, ?_⟩
      rw [aklGcMalloc, aklGcFind_eq]
      simp only [aklGcTypeHaveFree, headNone, zero 0]
      rfl
  | cons head ps =>
      have headEq : (g.aiGcTypes tid).gtPoolHead = some head := placed.walk.1
      obtain ⟨last, lastEq⟩ : ∃ last, (g.aiGcTypes tid).gtPoolLast = some last := by
        rw [placed.last]
        exact ⟨_, List.getLast?_eq_some_getLast (List.cons_ne_nil head ps)⟩
      have lastMem : last ∈ head :: ps := List.mem_of_getLast? (placed.last ▸ lastEq)
      have lastFull := placed.full whole lastMem
      have older : olderPool g last g.top (some head) = none :=
        olderPool_none g.top (headEq ▸ placed.walk) fun a mem => placed.full whole mem
      refine ⟨false, ?_⟩
      rw [aklGcMalloc, aklGcFind_eq]
      simp only [aklGcTypeHaveFree, headEq, lastEq, lastFull, Bool.false_eq_true, if_false, older,
        Option.map_none, off, and_false, zero 0]
      rfl

/-- The next slot of the last pool is taken. -/
theorem malloc_part (placed : Placed g tid refs ps) (part : refs.length % 64 ≠ 0)
    (sane : g.Sane) {a : Addr} (lastEq : ps.getLast? = some a) (marked : σ → Ref → Bool)
    (unset : Nat → Unset) :
    aklGcMalloc marked g tid unset =
      (g.setPool a (aklGcPoolUse (g.pools a) (refs.length % 64)), ⟨a, refs.length % 64⟩) := by
  have length := placed.length
  have bound : refs.length % 64 < 64 := Nat.mod_lt _ (by decide)
  have lastAt : ps[ps.length - 1]? = some a := by rw [← lastEq, List.getLast?_eq_getElem?]
  have filling : Filling g tid a (refs.length % 64) := by
    refine ⟨?_, by rw [placed.last, lastEq], sane.counted a, ?_⟩
    · rw [placed.walk.head]
      cases ps with
      | nil => cases lastEq
      | cons head ps => simp
    · intro ind small
      rw [placed.filled _ a lastAt ind small, decide_eq_decide]
      omega
  exact filling.malloc bound marked unset

end Placed

/-! ## Sequences of requests -/

theorem servedFor_append (tid : Nat) (served : List (Nat × Ref)) (u : Nat) (r : Ref) :
    servedFor tid (served ++ [(u, r)]) =
      if u = tid then servedFor tid served ++ [r] else servedFor tid served := by
  rw [servedFor, List.filterMap_append]
  by_cases same : u = tid
  · simp [same, servedFor]
  · simp [same, servedFor]

/-- All types at once: their chains have no pool in common. -/
structure Layout (g : GcState σ) (served : List (Nat × Ref)) (chains : Nat → List Addr) :
    Prop where
  off : g.useGc = false
  sane : g.Sane
  placed : ∀ tid, Placed g tid (servedFor tid served) (chains tid)
  apart : ∀ t u, t ≠ u → ∀ a ∈ chains t, a ∉ chains u

/-- The configuration `akl_gc_init` leaves. -/
theorem Layout.init (markers : List (Option (Ref → Bool → σ → σ))) (objects : σ) :
    Layout (aklGcInit markers objects) [] fun _ => [] := by
  have types : ∀ (markers : List (Option (Ref → Bool → σ → σ))) (g : GcState σ),
      g.useGc = false → (∀ tid, (g.aiGcTypes tid).gtPoolHead = none ∧
        (g.aiGcTypes tid).gtPoolLast = none ∧ (g.aiGcTypes tid).gtPoolCount = 0) →
      (markers.foldl aklGcRegisterType g).useGc = false ∧
        ∀ tid, ((markers.foldl aklGcRegisterType g).aiGcTypes tid).gtPoolHead = none ∧
          ((markers.foldl aklGcRegisterType g).aiGcTypes tid).gtPoolLast = none ∧
          ((markers.foldl aklGcRegisterType g).aiGcTypes tid).gtPoolCount = 0 := by
    intro markers
    induction markers with
    | nil => exact fun g off empty => ⟨off, empty⟩
    | cons marker markers ih =>
        intro g off empty
        apply ih
        · exact off
        · intro tid
          simp only [aklGcRegisterType, Function.update_apply]
          split
          · exact ⟨rfl, rfl, rfl⟩
          · exact empty tid
  obtain ⟨off, empty⟩ := types markers
    ⟨false, false, fun _ => ⟨none, none, 0, none⟩, 0, fun _ => default, 0, objects⟩ rfl
    fun _ => ⟨rfl, rfl, rfl⟩
  constructor
  · exact off
  · exact GcState.Sane.init markers objects
  · intro tid
    obtain ⟨head, last, count⟩ := empty tid
    exact ⟨head, last, count, by simp [servedFor], by simp, by simp [servedFor], by simp⟩
  · intro t u _ a mem
    cases mem

/-- One request. -/
theorem Layout.malloc {g : GcState σ} {served : List (Nat × Ref)} {chains : Nat → List Addr}
    (layout : Layout g served chains) (marked : σ → Ref → Bool) (tid : Nat)
    {unset : Nat → Unset} (zero : ZeroFilled unset) :
    ∃ chains', Layout (aklGcMalloc marked g tid unset).1
      (served ++ [(tid, (aklGcMalloc marked g tid unset).2)]) chains' := by
  have placed := layout.placed tid
  by_cases whole : (servedFor tid served).length % 64 = 0
  · obtain ⟨flag, result⟩ := placed.malloc_whole whole layout.off marked zero
    have others : ∀ u a, a ∈ chains u → a ≠ g.top :=
      fun u a mem => Nat.ne_of_lt ((layout.placed u).below a mem)
    refine ⟨Function.update chains tid (chains tid ++ [g.top]), ?_⟩
    rw [result]
    constructor
    · exact layout.off
    · have taken := (layout.sane.create tid).take (by decide) (create_free g tid)
      exact ⟨taken.counted, taken.last⟩
    · intro u
      rw [servedFor_append]
      by_cases same : tid = u
      · subst same
        rw [if_pos rfl, Function.update_self]
        apply placed.grow whole
        · rfl
        · rfl
        · intro a
          rw [GcState.setPool_pools]
      · rw [if_neg same, Function.update_of_ne (Ne.symm same)]
        apply (layout.placed u).congr
        · show (aklGcPoolCreate g tid fun _ => 0).1.aiGcTypes u = g.aiGcTypes u
          rw [aklGcPoolCreate_types, if_neg (Ne.symm same)]
        · intro a mem
          rw [GcState.setPool_pools, if_neg (others u a mem)]
          show (aklGcPoolCreate g tid fun _ => 0).1.pools a = g.pools a
          have notLast : (g.aiGcTypes tid).gtPoolLast ≠ some a := by
            rw [placed.last]
            intro equal
            exact layout.apart tid u same a (List.mem_of_getLast? equal) mem
          rw [aklGcPoolCreate_pools, if_neg notLast, if_neg (others u a mem),
            if_neg (others u a mem)]
        · exact Nat.le_succ _
    · intro t u ne a memT memU
      simp only [Function.update_apply] at memT memU
      split at memT
      · next isT =>
          rw [if_neg (isT ▸ Ne.symm ne)] at memU
          rcases List.mem_append.mp memT with inside | new
          · exact layout.apart tid u (isT ▸ ne) a inside memU
          · exact others u a memU (List.mem_singleton.mp new)
      · split at memU
        · next isU =>
            rcases List.mem_append.mp memU with inside | new
            · exact layout.apart t tid (isU ▸ ne) a memT inside
            · exact others t a memT (List.mem_singleton.mp new)
        · exact layout.apart t u ne a memT memU
  · obtain ⟨last, lastEq⟩ : ∃ last, (chains tid).getLast? = some last := by
      have length := placed.length
      have nonempty : chains tid ≠ [] := by
        intro empty
        rw [empty, List.length_nil] at length
        omega
      exact ⟨_, List.getLast?_eq_some_getLast nonempty⟩
    have result := placed.malloc_part whole layout.sane lastEq marked unset
    have grown := placed.fill whole lastEq
    refine ⟨chains, ?_⟩
    rw [result]
    constructor
    · exact layout.off
    · have bound : (servedFor tid served).length % 64 < 64 := Nat.mod_lt _ (by decide)
      have lastAt : (chains tid)[(chains tid).length - 1]? = some last := by
        rw [← lastEq, List.getLast?_eq_getElem?]
      apply layout.sane.take bound
      rw [placed.filled _ last lastAt _ bound, decide_eq_false_iff_not]
      have length := placed.length
      omega
    · intro u
      rw [servedFor_append]
      by_cases same : tid = u
      · subst same
        rw [if_pos rfl]
        exact grown
      · rw [if_neg same]
        apply (layout.placed u).congr
        · rfl
        · intro a mem
          have ne : a ≠ last := by
            rintro rfl
            exact layout.apart tid u same a (List.mem_of_getLast? lastEq) mem
          rw [GcState.setPool_pools, if_neg ne]
        · exact Nat.le_refl _
    · exact layout.apart

/-- A sequence of requests. -/
theorem Layout.mallocs {g : GcState σ} {served : List (Nat × Ref)} {chains : Nat → List Addr}
    (layout : Layout g served chains) (marked : σ → Ref → Bool) (requests : List GcRequest)
    (zero : ∀ q ∈ requests, ZeroFilled q.2) :
    ∃ chains', Layout (aklGcMallocs marked g requests).1
      (served ++ (aklGcMallocs marked g requests).2) chains' := by
  induction requests generalizing g served chains with
  | nil =>
      refine ⟨chains, ?_⟩
      rw [aklGcMallocs, List.append_nil]
      exact layout
  | cons q requests ih =>
      obtain ⟨tid, unset⟩ := q
      obtain ⟨chains', layout'⟩ := layout.malloc marked tid (zero _ List.mem_cons_self)
      obtain ⟨chains'', layout''⟩ := ih layout' fun q mem => zero q (List.mem_cons_of_mem _ mem)
      refine ⟨chains'', ?_⟩
      rw [List.append_assoc] at layout''
      exact layout''

/-- With the collector off, the `n`-th request of a type is served by slot
`n mod 64` of pool number `n div 64` of the type; all pools but the last are
full, the counts agree with the bitmaps, and the last pointer and the pool count
with the chain. -/
theorem gc_off_placement (marked : σ → Ref → Bool)
    (markers : List (Option (Ref → Bool → σ → σ))) (objects : σ) (requests : List GcRequest)
    (zero : ∀ q ∈ requests, ZeroFilled q.2) (tid : Nat) :
    let (g, served) := aklGcMallocs marked (aklGcInit markers objects) requests
    ∃ ps, Walk (fun a => (g.pools a).gpNext) (g.aiGcTypes tid).gtPoolHead ps ∧
      (∀ n r, (servedFor tid served)[n]? = some r →
        r.slot = n % 64 ∧ ps[n / 64]? = some r.pool) ∧
      (∀ i a, ps[i]? = some a → i + 1 < ps.length → ∀ j < 64, g.inUse ⟨a, j⟩ = true) ∧
      (∀ a ∈ ps, (g.pools a).avCount = UInt32.ofNat (g.pools a).used.card) ∧
      (g.aiGcTypes tid).gtPoolLast = ps.getLast? ∧
      (g.aiGcTypes tid).gtPoolCount = UInt32.ofNat ps.length := by
  obtain ⟨chains, layout⟩ := (Layout.init markers objects).mallocs marked requests zero
  rw [List.nil_append] at layout
  have placed := layout.placed tid
  exact ⟨chains tid, placed.walk, placed.placed, fun i a => placed.full_of_not_last,
    fun a _ => layout.sane.counted a, placed.last, placed.count⟩

/-- Two requests of one type around one of another. -/
theorem gc_off_placement_three :
    let (g, served) := aklGcMallocs (fun marks r => marks r)
      (aklGcInit (List.replicate 6 (some setMark)) fun _ => false)
      [(3, zeroUnset), (0, zeroUnset), (3, zeroUnset)]
    (servedFor 3 served)[1]? = some ⟨0, 1⟩ ∧
      ∃ ps : List Addr, ps[0]? = some 0 ∧ (g.aiGcTypes 3).gtPoolLast = ps.getLast? ∧
        (g.aiGcTypes 3).gtPoolCount = UInt32.ofNat ps.length := by
  have zero : ∀ q ∈ [(3, zeroUnset), (0, zeroUnset), (3, zeroUnset)], ZeroFilled q.2 := by
    intro q mem
    simp only [List.mem_cons, List.not_mem_nil, or_false] at mem
    rcases mem with rfl | rfl | rfl
    · exact fun _ => rfl
    · exact fun _ => rfl
    · exact fun _ => rfl
  have second : (servedFor 3 (aklGcMallocs (fun marks r => marks r)
      (aklGcInit (List.replicate 6 (some setMark)) fun _ => false)
      [(3, zeroUnset), (0, zeroUnset), (3, zeroUnset)]).2)[1]? = some ⟨0, 1⟩ := by
    decide +kernel
  obtain ⟨ps, -, placed, -, -, last, count⟩ := gc_off_placement (fun marks r => marks r)
    (List.replicate 6 (some setMark)) (fun _ => false)
    [(3, zeroUnset), (0, zeroUnset), (3, zeroUnset)] zero 3
  exact ⟨second, ps, (placed 1 _ second).2, last, count⟩

end AkLisp
