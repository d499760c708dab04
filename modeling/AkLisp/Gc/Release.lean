import AkLisp.Gc.Placement

/-!
# Releasing empty pools

When no memory is left, `akl_gc_tryfree` walks over the pools of every type and
frees the ones whose bitmap words add up to zero.  A freed pool is unlinked from
the one before it, and `gt_pool_last` follows, but `gt_pool_head` and
`gt_pool_count` stay as they are.

`akl_gc_pool_free` gives the bitmap to the free callback of the state, and the bitmap is an
array inside the pool.  The callback is taken to return; that of the C library aborts there.
-/

namespace AkLisp

open Linked

universe u

variable {σ : Type u}

/-- `akl_gc_pool_is_empty`; the sum is an `int`. -/
def aklGcPoolIsEmpty (p : GcPool) : Bool :=
  (List.range (aklGcPoolSize / bitsInUint)).foldl (fun s i => s + p.gpFreemap i) 0#32 == 0#32

/-- What a release leaves, when every call of the free callback returns: the state, the pools
given to `akl_gc_pool_free` in that order, and the variable `succeed`. -/
structure Tryfree (σ : Type u) where
  state : GcState σ
  released : List Addr
  succeed : Bool

/-- The links around a pool that is going to be freed. -/
def GcState.unlinkPool (g : GcState σ) (tid : Nat) (prev next : Option Addr) : GcState σ :=
  { g with
    pools :=
      match prev with
      | none => g.pools
      | some a => Function.update g.pools a { g.pools a with gpNext := next }
    aiGcTypes :=
      if next = none then
        Function.update g.aiGcTypes tid { g.aiGcTypes tid with gtPoolLast := prev }
      else g.aiGcTypes }

/-- The loop of `akl_gc_type_tryfree`, at most `fuel` pools. -/
def tryfreeLoop (tid : Nat) : Nat → Tryfree σ → Option Addr → Option Addr → Tryfree σ
  | 0, t, _, _ => t
  | _ + 1, t, _, none => t
  | fuel + 1, t, prev, some p =>
      let next := (t.state.pools p).gpNext
      if aklGcPoolIsEmpty (t.state.pools p) then
        tryfreeLoop tid fuel ⟨t.state.unlinkPool tid prev next, t.released ++ [p], true⟩ prev next
      else tryfreeLoop tid fuel t (some p) next

/-- `akl_gc_type_tryfree`.  A list of pools visits none twice, so their number
bounds the loop. -/
def aklGcTypeTryfree (g : GcState σ) (tid : Nat) : Tryfree σ :=
  tryfreeLoop tid g.top ⟨g, [], false⟩ none (g.aiGcTypes tid).gtPoolHead

/-- The round of `akl_gc_tryfree` for one type. -/
def tryfreeType (t : Tryfree σ) (i : Nat) : Tryfree σ :=
  let r := aklGcTypeTryfree t.state i
  ⟨r.state, t.released ++ r.released, t.succeed || r.succeed⟩

/-- `akl_gc_tryfree`. -/
def aklGcTryfree (g : GcState σ) : Tryfree σ :=
  (List.range g.aiGcTypesCount).foldl tryfreeType ⟨g, [], false⟩

/-- The link field of the pools. -/
def GcState.next (g : GcState σ) (a : Addr) : Option Addr :=
  (g.pools a).gpNext

/-- The pools of a type are the list `ps`: from the head along the links, with
its last pool and its length. -/
structure PoolList (g : GcState σ) (tid : Nat) (ps : List Addr) : Prop where
  walk : Walk g.next (g.aiGcTypes tid).gtPoolHead ps
  last : (g.aiGcTypes tid).gtPoolLast = ps.getLast?
  count : (g.aiGcTypes tid).gtPoolCount.toNat = ps.length

/-- Every type has its list of pools, and no pool is in two lists. -/
structure PoolLists (g : GcState σ) (chains : Nat → List Addr) : Prop where
  list : ∀ i < g.aiGcTypesCount, PoolList g i (chains i)
  below : ∀ i < g.aiGcTypesCount, ∀ a ∈ chains i, a < g.top
  apart : ∀ i < g.aiGcTypesCount, ∀ j < g.aiGcTypesCount, i ≠ j → ∀ a ∈ chains i, a ∉ chains j

/-- After the release the list consists of the pools that are left, no freed pool
is on the way from the head, and the result says whether a pool was freed. -/
def ReleasesSoundly (g : GcState σ) (tid : Nat) (ps : List Addr) : Prop :=
  let t := aklGcTypeTryfree g tid
  PoolList t.state tid (ps.filter (· ∉ t.released)) ∧
    (∀ as, Walk t.state.next (t.state.aiGcTypes tid).gtPoolHead as → ∀ a ∈ t.released, a ∉ as) ∧
    (t.succeed = true ↔ t.released ≠ [])

/-- The bitmap words of a pool in use add up to zero. -/
def GcPool.CancelsOut (p : GcPool) : Prop :=
  p.gpFreemap 0 ≠ 0 ∧ p.gpFreemap 0 + p.gpFreemap 1 = 0

/-! ## The sum of a bitmap -/

theorem aklGcPoolIsEmpty_iff (p : GcPool) :
    aklGcPoolIsEmpty p = true ↔ p.gpFreemap 0 + p.gpFreemap 1 = 0 := by
  have words : List.range (aklGcPoolSize / bitsInUint) = [0, 1] := rfl
  rw [aklGcPoolIsEmpty, words]
  simp

/-- No slot is in use when both words are zero. -/
theorem GcPool.free_iff (p : GcPool) :
    (∀ ind < 64, aklGcPoolInUse p ind = false) ↔ p.gpFreemap 0 = 0 ∧ p.gpFreemap 1 = 0 := by
  constructor
  · intro free
    constructor
    · apply BitVec.eq_of_getLsbD_eq
      intro j bound
      have bit := free j (by omega)
      rw [aklGcPoolInUse_eq, Nat.div_eq_of_lt bound, Nat.mod_eq_of_lt bound] at bit
      simpa using bit
    · apply BitVec.eq_of_getLsbD_eq
      intro j bound
      have word : (32 + j) / 32 = 1 := by omega
      have place : (32 + j) % 32 = j := by omega
      have bit := free (32 + j) (by omega)
      rw [aklGcPoolInUse_eq, word, place] at bit
      simpa using bit
  · rintro ⟨first, second⟩ ind bound
    have word : ind / 32 = 0 ∨ ind / 32 = 1 := by omega
    rw [aklGcPoolInUse_eq]
    rcases word with word | word
    · rw [word, first]
      exact BitVec.getLsbD_zero
    · rw [word, second]
      exact BitVec.getLsbD_zero

/-- A pool that counts as empty has a slot in use when its words cancel out. -/
theorem GcPool.free_of_empty {p : GcPool} (empty : aklGcPoolIsEmpty p = true) :
    (∀ ind < 64, aklGcPoolInUse p ind = false) ↔ ¬ p.CancelsOut := by
  rw [aklGcPoolIsEmpty_iff] at empty
  rw [p.free_iff]
  constructor
  · rintro ⟨first, -⟩ cancels
    exact cancels.1 first
  · intro sound
    have first : p.gpFreemap 0 = 0 := by
      by_contra used
      exact sound ⟨used, empty⟩
    rw [first] at empty
    exact ⟨first, by simpa using empty⟩

/-! ## One pass over a list of pools -/

section Pass

variable {g g' : GcState σ} {tid : Nat} {prev : Option Addr} {ps : List Addr}

/-- The pools of a list that are not released. -/
def GcState.kept (g : GcState σ) (ps : List Addr) : List Addr :=
  ps.filter fun a => !aklGcPoolIsEmpty (g.pools a)

/-- What the loop does to the pools `ps` behind the pool `prev`. -/
structure Released (g : GcState σ) (tid : Nat) (prev : Option Addr) (ps : List Addr)
    (g' : GcState σ) : Prop where
  walk : Walk g'.next (g.kept ps).head? (g.kept ps)
  link : ∀ a, prev = some a → g'.next a = (g.kept ps).head?
  last : (g'.aiGcTypes tid).gtPoolLast = (prev.toList ++ g.kept ps).getLast?
  types : ∀ i, g'.aiGcTypes i =
    { g.aiGcTypes i with gtPoolLast := (g'.aiGcTypes i).gtPoolLast }
  lasts : ∀ i, i ≠ tid → (g'.aiGcTypes i).gtPoolLast = (g.aiGcTypes i).gtPoolLast
  freemap : ∀ a, (g'.pools a).gpFreemap = (g.pools a).gpFreemap
  others : ∀ a, a ∉ ps → prev ≠ some a → g'.next a = g.next a
  top : g'.top = g.top
  typesCount : g'.aiGcTypesCount = g.aiGcTypesCount

/-- Whether a pool counts as empty depends on its bitmap only. -/
theorem aklGcPoolIsEmpty_congr {p q : GcPool} (same : p.gpFreemap = q.gpFreemap) :
    aklGcPoolIsEmpty p = aklGcPoolIsEmpty q := by
  unfold aklGcPoolIsEmpty
  rw [same]

theorem GcState.kept_congr (same : ∀ a ∈ ps, (g'.pools a).gpFreemap = (g.pools a).gpFreemap) :
    g'.kept ps = g.kept ps := by
  apply List.filter_congr
  intro a mem
  rw [aklGcPoolIsEmpty_congr (same a mem)]

@[simp]
theorem GcState.unlinkPool_next (g : GcState σ) (tid : Nat) (prev next : Option Addr) (a : Addr) :
    (g.unlinkPool tid prev next).next a = if prev = some a then next else g.next a := by
  cases prev with
  | none => rfl
  | some b =>
      simp only [GcState.next, GcState.unlinkPool, Function.update_apply, Option.some.injEq]
      by_cases same : b = a
      · simp [same]
      · simp [same, Ne.symm same]

@[simp]
theorem GcState.unlinkPool_freemap (g : GcState σ) (tid : Nat) (prev next : Option Addr)
    (a : Addr) :
    ((g.unlinkPool tid prev next).pools a).gpFreemap = (g.pools a).gpFreemap := by
  cases prev with
  | none => rfl
  | some b =>
      simp only [GcState.unlinkPool, Function.update_apply]
      by_cases same : a = b
      · simp [same]
      · simp [same]

/-- One round: the pools from `p` on were `p` and those behind it. -/
theorem Released.cons {p : Addr} {out : GcState σ} (behind : ∀ a, prev = some a → a ∉ p :: ps)
    (linked : ∀ a, prev = some a → g.next a = some p)
    (rest : if aklGcPoolIsEmpty (g.pools p) then
        Released (g.unlinkPool tid prev (g.next p)) tid prev ps out
      else Released g tid (some p) ps out) : Released g tid prev (p :: ps) out := by
  cases empty : aklGcPoolIsEmpty (g.pools p) with
  | true =>
      rw [if_pos empty] at rest
      have keptEq : g.kept (p :: ps) = g.kept ps := by simp [GcState.kept, empty]
      have sameKept : (g.unlinkPool tid prev (g.next p)).kept ps = g.kept ps :=
        GcState.kept_congr fun a _ => GcState.unlinkPool_freemap g tid prev (g.next p) a
      have sameTypes : ∀ i, (g.unlinkPool tid prev (g.next p)).aiGcTypes i =
          { g.aiGcTypes i with
            gtPoolLast := ((g.unlinkPool tid prev (g.next p)).aiGcTypes i).gtPoolLast } := by
        intro i
        simp only [GcState.unlinkPool]
        split
        · by_cases own : i = tid
          · simp [own]
          · simp [own]
        · rfl
      constructor
      · rw [keptEq, ← sameKept]
        exact rest.walk
      · rw [keptEq, ← sameKept]
        exact rest.link
      · rw [keptEq, ← sameKept]
        exact rest.last
      · intro i
        rw [rest.types i, sameTypes i]
      · intro i other
        rw [rest.lasts i other]
        simp only [GcState.unlinkPool]
        split
        · simp [other]
        · rfl
      · exact fun a => (rest.freemap a).trans (GcState.unlinkPool_freemap g tid prev (g.next p) a)
      · intro a notIn notPrev
        rw [rest.others a (fun mem => notIn (List.mem_cons_of_mem p mem)) notPrev,
          GcState.unlinkPool_next, if_neg notPrev]
      · exact rest.top
      · exact rest.typesCount
  | false =>
      rw [if_neg (by simp [empty])] at rest
      have keptEq : g.kept (p :: ps) = p :: g.kept ps := by simp [GcState.kept, empty]
      constructor
      · rw [keptEq]
        constructor
        · rfl
        · rw [rest.link p rfl]
          exact rest.walk
      · intro a isPrev
        have apart := behind a isPrev
        have notOwn : some p ≠ some a := by
          rintro ⟨rfl⟩
          exact apart List.mem_cons_self
        rw [rest.others a (fun mem => apart (List.mem_cons_of_mem p mem)) notOwn,
          linked a isPrev, keptEq]
        rfl
      · rw [rest.last, keptEq]
        cases prev with
        | none => rfl
        | some a => simp [List.getLast?_cons]
      · exact rest.types
      · exact rest.lasts
      · exact rest.freemap
      · intro a notIn notPrev
        apply rest.others a
        · exact fun mem => notIn (List.mem_cons_of_mem p mem)
        · rintro ⟨rfl⟩
          exact notIn List.mem_cons_self
      · exact rest.top
      · exact rest.typesCount

/-- The loop frees the pools that count as empty. -/
theorem tryfreeLoop_spec {fuel : Nat} {t : Tryfree σ} {p : Option Addr}
    (walk : Walk t.state.next p ps) (enough : ps.length ≤ fuel)
    (behind : ∀ a, prev = some a → a ∉ ps) (linked : ∀ a, prev = some a → t.state.next a = p)
    (last : (t.state.aiGcTypes tid).gtPoolLast = (prev.toList ++ ps).getLast?) :
    Released t.state tid prev ps (tryfreeLoop tid fuel t prev p).state ∧
      (tryfreeLoop tid fuel t prev p).released =
        t.released ++ ps.filter (fun a => aklGcPoolIsEmpty (t.state.pools a)) ∧
      (tryfreeLoop tid fuel t prev p).succeed =
        (t.succeed || ps.any fun a => aklGcPoolIsEmpty (t.state.pools a)) := by
  induction ps generalizing fuel t prev p with
  | nil =>
      have stop : tryfreeLoop tid fuel t prev p = t := by
        cases walk
        cases fuel with
        | zero => rfl
        | succ fuel => rfl
      rw [stop]
      constructor
      · constructor
        · rfl
        · intro a isPrev
          rw [linked a isPrev, Walk.nil_iff.mp walk]
          rfl
        · exact last
        · exact fun i => rfl
        · exact fun i other => rfl
        · exact fun a => rfl
        · exact fun a notIn notPrev => rfl
        · rfl
        · rfl
      · simp
  | cons a as ih =>
      obtain ⟨rfl, others⟩ := walk
      obtain ⟨fuel, rfl⟩ : ∃ n, fuel = n + 1 :=
        Nat.exists_eq_succ_of_ne_zero (by rw [List.length_cons] at enough; omega)
      have nodup := (show Walk t.state.next (some a) (a :: as) from ⟨rfl, others⟩).nodup
      rw [List.nodup_cons] at nodup
      have short : as.length ≤ fuel := Nat.le_of_succ_le_succ enough
      cases empty : aklGcPoolIsEmpty (t.state.pools a) with
      | true =>
          have round : tryfreeLoop tid (fuel + 1) t prev (some a) =
              tryfreeLoop tid fuel
                ⟨t.state.unlinkPool tid prev (t.state.next a), t.released ++ [a], true⟩ prev
                (t.state.next a) := by
            rw [tryfreeLoop, if_pos empty]
            rfl
          have behind' : ∀ b, prev = some b → b ∉ as :=
            fun b isPrev mem => behind b isPrev (List.mem_cons_of_mem a mem)
          have walk' : Walk (t.state.unlinkPool tid prev (t.state.next a)).next
              (t.state.next a) as := by
            apply others.congr
            intro b mem
            rw [GcState.unlinkPool_next, if_neg fun isPrev => behind' b isPrev mem]
          have last' : ((t.state.unlinkPool tid prev (t.state.next a)).aiGcTypes tid).gtPoolLast =
              (prev.toList ++ as).getLast? := by
            rw [others.head]
            cases as with
            | nil =>
                cases prev with
                | none => simp [GcState.unlinkPool]
                | some b => simp [GcState.unlinkPool]
            | cons b as =>
                rw [List.getLast?_append] at last ⊢
                simpa [GcState.unlinkPool, List.getLast?_cons] using last
          have linked' : ∀ b, prev = some b →
              (t.state.unlinkPool tid prev (t.state.next a)).next b = t.state.next a := by
            intro b isPrev
            rw [GcState.unlinkPool_next, if_pos isPrev]
          obtain ⟨rest, released, succeed⟩ :=
            ih (t := ⟨t.state.unlinkPool tid prev (t.state.next a), t.released ++ [a], true⟩)
              walk' short behind' linked' last'
          have sameEmpty : ∀ b, aklGcPoolIsEmpty
              ((t.state.unlinkPool tid prev (t.state.next a)).pools b) =
                aklGcPoolIsEmpty (t.state.pools b) :=
            fun b => aklGcPoolIsEmpty_congr (GcState.unlinkPool_freemap _ _ _ _ b)
          rw [round]
          constructor
          · apply Released.cons behind linked
            rw [if_pos empty]
            exact rest
          · rw [released, succeed]
            simp [sameEmpty, empty]
      | false =>
          have round : tryfreeLoop tid (fuel + 1) t prev (some a) =
              tryfreeLoop tid fuel t (some a) (t.state.next a) := by
            rw [tryfreeLoop, if_neg (by simp [empty])]
            rfl
          have behind' : ∀ b, some a = some b → b ∉ as := by
            rintro b ⟨rfl⟩
            exact nodup.1
          have last' : (t.state.aiGcTypes tid).gtPoolLast = ((some a).toList ++ as).getLast? := by
            rw [last, List.getLast?_append]
            simp [List.getLast?_cons]
          obtain ⟨rest, released, succeed⟩ := ih others short behind'
            (by rintro b ⟨rfl⟩; rfl) last'
          rw [round]
          constructor
          · apply Released.cons behind linked
            rw [if_neg (by simp [empty])]
            exact rest
          · rw [released, succeed]
            simp [empty]

end Pass

/-! ## The pools of one type -/

section OneType

variable {g : GcState σ} {tid : Nat} {ps : List Addr}

theorem aklGcTypeTryfree_spec (list : PoolList g tid ps) (below : ∀ a ∈ ps, a < g.top) :
    Released g tid none ps (aklGcTypeTryfree g tid).state ∧
      (aklGcTypeTryfree g tid).released = ps.filter (fun a => aklGcPoolIsEmpty (g.pools a)) ∧
      (aklGcTypeTryfree g tid).succeed = ps.any fun a => aklGcPoolIsEmpty (g.pools a) := by
  have enough := list.walk.length_le below
  have noPrev : ∀ a, (none : Option Addr) = some a → a ∉ ps := by
    rintro a ⟨⟩
  have notLinked : ∀ a, (none : Option Addr) = some a →
      g.next a = (g.aiGcTypes tid).gtPoolHead := by
    rintro a ⟨⟩
  exact tryfreeLoop_spec (t := ⟨g, [], false⟩) list.walk enough noPrev notLinked list.last

/-- The pools that are left are the ones that are not freed. -/
theorem filter_notMem_released (list : PoolList g tid ps) (below : ∀ a ∈ ps, a < g.top) :
    ps.filter (· ∉ (aklGcTypeTryfree g tid).released) = g.kept ps := by
  obtain ⟨-, released, -⟩ := aklGcTypeTryfree_spec list below
  apply List.filter_congr
  intro a mem
  rw [released]
  cases empty : aklGcPoolIsEmpty (g.pools a) with
  | true => simp [mem, empty]
  | false => simp [empty]

/-- The links are right exactly when the first pool is not freed. -/
theorem aklGcTypeTryfree_walk_iff (list : PoolList g tid ps) (below : ∀ a ∈ ps, a < g.top) :
    Walk (aklGcTypeTryfree g tid).state.next
        ((aklGcTypeTryfree g tid).state.aiGcTypes tid).gtPoolHead (g.kept ps) ↔
      ∀ a, ps.head? = some a → aklGcPoolIsEmpty (g.pools a) = false := by
  obtain ⟨after, -, -⟩ := aklGcTypeTryfree_spec list below
  have sameHead : ((aklGcTypeTryfree g tid).state.aiGcTypes tid).gtPoolHead = ps.head? := by
    rw [after.types tid, ← list.walk.head]
  rw [sameHead]
  cases ps with
  | nil =>
      constructor
      · intro _ a first
        cases first
      · exact fun _ => after.walk
  | cons p ps =>
      constructor
      · rintro walk a ⟨rfl⟩
        by_contra empty
        have mem := List.mem_of_mem_head? (walk.head.symm ▸ rfl : p ∈ (g.kept (p :: ps)).head?)
        have notEmpty := List.of_mem_filter mem
        simp [empty] at notEmpty
      · intro kept
        have keptEq : g.kept (p :: ps) = p :: g.kept ps := by simp [GcState.kept, kept p rfl]
        have walk := after.walk
        rw [keptEq] at walk ⊢
        exact walk

/-- Releasing pools of a type is sound exactly when there is none to release: a
release leaves the count as it was. -/
theorem type_tryfree_sound_iff (list : PoolList g tid ps) (below : ∀ a ∈ ps, a < g.top) :
    ReleasesSoundly g tid ps ↔ ∀ a ∈ ps, aklGcPoolIsEmpty (g.pools a) = false := by
  obtain ⟨after, released, succeed⟩ := aklGcTypeTryfree_spec list below
  unfold ReleasesSoundly
  dsimp only
  rw [filter_notMem_released list below]
  constructor
  · rintro ⟨sound, -, -⟩
    have count : (g.kept ps).length = ps.length := by
      rw [← sound.count, after.types tid, ← list.count]
    intro a mem
    simpa using List.length_filter_eq_length_iff.mp count a mem
  · intro none
    have keptEq : g.kept ps = ps := List.filter_eq_self.mpr fun a mem => by simp [none a mem]
    have released' : (aklGcTypeTryfree g tid).released = [] := by
      rw [released, List.filter_eq_nil_iff]
      exact fun a mem => by simp [none a mem]
    constructor
    · constructor
      · apply (aklGcTypeTryfree_walk_iff list below).mpr
        exact fun a first => none a (List.mem_of_mem_head? first)
      · simpa using after.last
      · rw [after.types tid, keptEq]
        exact list.count
    · constructor
      · rw [released']
        exact fun as _ a mem => nomatch mem
      · rw [released', succeed]
        simpa using none

end OneType

/-- One request of the type. -/
def oneInUse : GcState (Ref → Bool) :=
  (aklGcInit (List.replicate 6 (some setMark)) fun _ => false).run (fun marks r => marks r)
    [.malloc 0 zeroUnset]

theorem oneInUse_list : PoolList oneInUse 0 [0] := by
  constructor
  · constructor
    · decide +kernel
    · apply Walk.nil_iff.mpr
      decide +kernel
  · decide +kernel
  · decide +kernel

/-- A pool in use stays. -/
theorem type_tryfree_sound_one : ReleasesSoundly oneInUse 0 [0] := by
  apply (type_tryfree_sound_iff oneInUse_list (by decide +kernel)).mpr
  decide +kernel

/-- The same request, swept without a mark. -/
def oneSwept : GcState (Ref → Bool) :=
  oneInUse.run (fun marks r => marks r) [.enable, .sweep]

/-- The only pool is freed, and the count still says one. -/
theorem type_tryfree_leaves_count : ¬ ReleasesSoundly oneSwept 0 [0] := by
  intro sound
  have released : (aklGcTypeTryfree oneSwept 0).released = [0] := by decide +kernel
  have count : ((aklGcTypeTryfree oneSwept 0).state.aiGcTypes 0).gtPoolCount.toNat = 1 := by
    decide +kernel
  have counted := sound.1.count
  rw [released, count] at counted
  exact absurd counted (by decide)

/-! ## The pools of all types -/

/-- With the collector off the lists are right after any sequence of requests. -/
theorem Layout.poolLists {g : GcState σ} {served : List (Nat × Ref)} {chains : Nat → List Addr}
    (layout : Layout g served chains) (few : served.length < 2 ^ 32) : PoolLists g chains := by
  constructor
  · intro i _
    have placed := layout.placed i
    constructor
    · exact placed.walk
    · exact placed.last
    · have refs : (servedFor i served).length ≤ served.length := List.length_filterMap_le _ _
      have length := placed.length
      rw [placed.count, UInt32.toNat_ofNat']
      apply Nat.mod_eq_of_lt
      omega
  · exact fun i _ => (layout.placed i).below
  · exact fun i _ j _ => layout.apart i j

section AllTypes

variable {g : GcState σ} {chains : Nat → List Addr}

/-- The releases for the first `n` types. -/
theorem tryfreeTypes_spec (lists : PoolLists g chains) {n : Nat} (bound : n ≤ g.aiGcTypesCount) :
    let t := (List.range n).foldl tryfreeType ⟨g, [], false⟩
    t.released = (List.range n).flatMap
        (fun i => (chains i).filter fun a => aklGcPoolIsEmpty (g.pools a)) ∧
      (∀ a, (t.state.pools a).gpFreemap = (g.pools a).gpFreemap) ∧ t.state.top = g.top ∧
      ∀ i, n ≤ i → i < g.aiGcTypesCount → PoolList t.state i (chains i) := by
  induction n with
  | zero => exact ⟨rfl, fun a => rfl, rfl, fun i _ small => lists.list i small⟩
  | succ n ih =>
      obtain ⟨released, freemap, top, list⟩ := ih (Nat.le_of_succ_le bound)
      rw [List.range_succ, List.foldl_append]
      generalize (List.range n).foldl tryfreeType ⟨g, [], false⟩ = t at *
      have below : ∀ a ∈ chains n, a < t.state.top := by
        rw [top]
        exact lists.below n bound
      obtain ⟨after, releasedNow, -⟩ :=
        aklGcTypeTryfree_spec (list n (Nat.le_refl n) bound) below
      have sameEmpty : (fun a => aklGcPoolIsEmpty (t.state.pools a)) =
          fun a => aklGcPoolIsEmpty (g.pools a) :=
        funext fun a => aklGcPoolIsEmpty_congr (freemap a)
      simp only [List.foldl_cons, List.foldl_nil, tryfreeType]
      constructor
      · rw [released, releasedNow, sameEmpty]
        simp
      · constructor
        · exact fun a => (after.freemap a).trans (freemap a)
        · constructor
          · exact after.top.trans top
          · intro i later small
            have other : i ≠ n := Nat.ne_of_gt later
            have before := list i (Nat.le_of_succ_le later) small
            have sameLast := after.lasts i other
            constructor
            · rw [after.types i]
              apply before.walk.congr
              intro a mem
              apply after.others a (lists.apart i small n bound other a mem)
              rintro ⟨⟩
            · rw [sameLast]
              exact before.last
            · rw [after.types i]
              exact before.count

/-- `akl_gc_tryfree` frees the pools whose words add up to zero. -/
theorem mem_released_iff (lists : PoolLists g chains) (a : Addr) :
    a ∈ (aklGcTryfree g).released ↔
      ∃ i < g.aiGcTypesCount, a ∈ chains i ∧ aklGcPoolIsEmpty (g.pools a) = true := by
  have spec := (tryfreeTypes_spec lists (Nat.le_refl _)).1
  rw [aklGcTryfree, spec]
  simp [List.mem_flatMap, List.mem_filter]

/-- Only empty pools are freed exactly when no pool of a type has two words in use
that cancel out. -/
theorem tryfree_frees_empty_iff (lists : PoolLists g chains) :
    (∀ a ∈ (aklGcTryfree g).released, ∀ ind < 64, aklGcPoolInUse (g.pools a) ind = false) ↔
      ∀ i < g.aiGcTypesCount, ∀ a ∈ chains i, ¬ (g.pools a).CancelsOut := by
  constructor
  · intro free i bound a mem cancels
    have empty := (aklGcPoolIsEmpty_iff (g.pools a)).mpr cancels.2
    have released := (mem_released_iff lists a).mpr ⟨i, bound, mem, empty⟩
    exact (GcPool.free_of_empty empty).mp (free a released) cancels
  · intro sound a released
    obtain ⟨i, bound, mem, empty⟩ := (mem_released_iff lists a).mp released
    exact (GcPool.free_of_empty empty).mpr (sound i bound a mem)

end AllTypes

/-- Two requests of type 3. -/
def twoInUse : GcState (Ref → Bool) :=
  (aklGcMallocs (fun marks r => marks r)
    (aklGcInit (List.replicate 6 (some setMark)) fun _ => false)
    (List.replicate 2 (3, zeroUnset))).1

/-- They are not freed. -/
theorem tryfree_frees_empty_two :
    ¬∃ a ∈ (aklGcTryfree twoInUse).released,
      ∃ ind < 64, aklGcPoolInUse (twoInUse.pools a) ind = true := by
  have zero : ∀ q ∈ List.replicate 2 (3, zeroUnset), ZeroFilled q.2 := by
    intro q mem
    rw [List.eq_of_mem_replicate mem]
    exact fun _ => rfl
  obtain ⟨chains, layout⟩ :=
    (Layout.init (List.replicate 6 (some setMark)) fun _ => false).mallocs (fun marks r => marks r)
      (List.replicate 2 (3, zeroUnset)) zero
  have lists : PoolLists twoInUse chains := layout.poolLists (by decide +kernel)
  have keeps := (tryfree_frees_empty_iff lists).mpr (by
    intro i small a mem
    have below := lists.below i small a mem
    have top : twoInUse.top = 1 := by decide +kernel
    rw [top] at below
    rw [Nat.lt_one_iff.mp below]
    rintro ⟨-, cancels⟩
    exact absurd cancels (by decide +kernel))
  rintro ⟨a, mem, ind, small, used⟩
  rw [keeps a mem ind small] at used
  cases used

/-- Of 64 list entries the ones in the slots 1 to 31 are swept: the words are 1
and 2^32 - 1. -/
def wordsCancel : GcState (Ref → Bool) :=
  (aklGcInit (List.replicate 6 (some setMark)) fun _ => false).run (fun marks r => marks r)
    (List.replicate 64 (.malloc 3 zeroUnset) ++
      [.enable, .mark fun r => r.slot == 0 || decide (32 ≤ r.slot), .sweep])

/-- The pool is freed with 33 slots in use. -/
theorem tryfree_frees_used :
    ¬ ∀ a ∈ (aklGcTryfree wordsCancel).released,
      ∀ ind < 64, aklGcPoolInUse (wordsCancel.pools a) ind = false := by
  intro free
  have released : 0 ∈ (aklGcTryfree wordsCancel).released := by decide +kernel
  have used : aklGcPoolInUse (wordsCancel.pools 0) 0 = true := by decide +kernel
  rw [free 0 released 0 (by decide)] at used
  cases used

end AkLisp
