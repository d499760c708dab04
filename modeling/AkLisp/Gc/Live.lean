import AkLisp.Gc.Heap

/-!
# Which requests take a free slot

A request searches for a slot and then marks it as used.  The slot was free
before in all but two cases: the bit that the scan of the last pool finds in
the second word is taken for a slot of the first one, and the slot for an older
pool is whatever an uninitialised variable holds.
-/

namespace AkLisp

open Linked

universe u

variable {σ : Type u}

/-- What a program does with the heap.  `mark` stands for every change to the
contents of the slots, their marks included. -/
inductive GcEvent (σ : Type u) where
  | register (marker : Option (Ref → Bool → σ → σ))
  | enable
  | disable
  | mark (objects : σ)
  | sweep
  | malloc (tid : Nat) (unset : Nat → Unset)

/-- `akl_gc_register_type`, `akl_gc_enable`, `akl_gc_disable`, `akl_gc_sweep`
and `akl_gc_malloc` as steps. -/
def GcState.apply (marked : σ → Ref → Bool) (g : GcState σ) : GcEvent σ → GcState σ
  | .register marker => aklGcRegisterType g marker
  | .enable => { g with useGc := true }
  | .disable => { g with useGc := false }
  | .mark objects => { g with objects := objects }
  | .sweep => aklGcSweep marked g
  | .malloc tid unset => (aklGcMalloc marked g tid unset).1

/-- A run. -/
def GcState.run (marked : σ → Ref → Bool) (g : GcState σ) (events : List (GcEvent σ)) :
    GcState σ :=
  events.foldl (GcState.apply marked) g

/-- The slot a request returns was free when it was chosen and is in use
afterwards, and no other slot has changed. -/
def TakesFree (marked : σ → Ref → Bool) (g : GcState σ) (tid : Nat) (unset : Nat → Unset) :
    Prop :=
  let (before, _) := aklGcFind marked g tid unset
  let (after, r) := aklGcMalloc marked g tid unset
  r.slot < 64 ∧ before.inUse r = false ∧ after.inUse r = true ∧
    ∀ r', r'.slot < 64 → r' ≠ r → after.inUse r' = before.inUse r'

/-- No pool of the type has room. -/
def GcState.NoRoom (g : GcState σ) (tid : Nat) : Prop :=
  match (g.aiGcTypes tid).gtPoolHead, (g.aiGcTypes tid).gtPoolLast with
  | some head, some last =>
      aklGcPoolHaveFree (g.pools last) = false ∧ olderPool g last g.top (some head) = none
  | _, _ => False

/-- The search without a sweep comes to a free slot: in the last pool if that has
room, or else in the first older pool with room, where `ind` has to be a free
slot by chance.  Without any room there will be a new pool. -/
def GcState.SlotFor (g : GcState σ) (tid : Nat) (ind : Nat) : Prop :=
  match (g.aiGcTypes tid).gtPoolHead, (g.aiGcTypes tid).gtPoolLast with
  | some head, some last =>
      if aklGcPoolHaveFree (g.pools last) then (g.pools last).FindsFree
      else
        match olderPool g last g.top (some head) with
        | some pool => ind < 64 ∧ g.inUse ⟨pool, ind⟩ = false
        | none => True
  | _, _ => True

/-- The condition of a request, in the state in which its slot is looked for: the
one after the sweep if there is no room and a sweep is due. -/
def Servable (marked : σ → Ref → Bool) (g : GcState σ) (tid : Nat) (unset : Nat → Unset) :
    Prop :=
  (g.NoRoom tid ∧ g.aiGcLastWasMark = false ∧ g.useGc = true →
      GcState.SlotFor { aklGcSweep marked g with aiGcLastWasMark := true } tid (unset 1).ind) ∧
    (¬ (g.NoRoom tid ∧ g.aiGcLastWasMark = false ∧ g.useGc = true) →
      g.SlotFor tid (unset 0).ind)

/-- The memory of new pools is zero-filled. -/
def ZeroFilled (unset : Nat → Unset) : Prop :=
  ∀ call, (unset call).freemap = fun _ => 0

/-- Every request of the run meets the condition. -/
def GcState.Served (marked : σ → Ref → Bool) (g : GcState σ) : List (GcEvent σ) → Prop
  | [] => True
  | .malloc tid unset :: events =>
      ZeroFilled unset ∧ Servable marked g tid unset ∧
        (g.apply marked (.malloc tid unset)).Served marked events
  | event :: events => (g.apply marked event).Served marked events

/-- The counts of the pools agree with their bitmaps, and a type with a first
pool has a last one. -/
structure GcState.Sane (g : GcState σ) : Prop where
  counted : ∀ a, (g.pools a).Counted
  last : ∀ tid, (g.aiGcTypes tid).gtPoolHead.isSome = true →
    (g.aiGcTypes tid).gtPoolLast.isSome = true

/-! ## Sweeping -/

/-- What every round of a sweep preserves, the sweep preserves. -/
theorem aklGcSweep_preserves {marked : σ → Ref → Bool} {motive : GcState σ → Prop}
    (round : ∀ g marker p i, i < 64 → motive g → motive (sweepSlot marked marker p g i))
    {g : GcState σ} (before : motive g) : motive (aklGcSweep marked g) := by
  have slots : ∀ (marker : Ref → Bool → σ → σ) (p : Addr) (is : List Nat) (g : GcState σ),
      (∀ i ∈ is, i < 64) → motive g → motive (is.foldl (sweepSlot marked marker p) g) := by
    intro marker p is
    induction is with
    | nil => exact fun _ _ before => before
    | cons i is ih =>
        intro g small before
        apply ih
        · exact fun j mem => small j (List.mem_cons_of_mem i mem)
        · exact round g marker p i (small i List.mem_cons_self) before
  have chain : ∀ (marker : Ref → Bool → σ → σ) (fuel : Nat) (g : GcState σ) (p : Option Addr),
      motive g → motive (aklGcSweepPool marked marker fuel g p) := by
    intro marker fuel
    induction fuel with
    | zero => exact fun _ _ before => before
    | succ fuel ih =>
        intro g p before
        cases p with
        | none => exact before
        | some p =>
            apply ih
            exact slots marker p _ g (fun i mem => List.mem_range.mp mem) before
  have types : ∀ (is : List Nat) (g : GcState σ), motive g →
      motive (is.foldl (sweepType marked) g) := by
    intro is
    induction is with
    | nil => exact fun _ before => before
    | cons i is ih =>
        intro g before
        apply ih
        simp only [sweepType]
        split
        · exact before
        · next marker _ => exact chain marker _ g _ before
  unfold aklGcSweep
  split
  · exact types _ g before
  · exact before

namespace GcState.Sane

variable {g : GcState σ} {marked : σ → Ref → Bool}

theorem setPool (sane : g.Sane) (a : Addr) {p : GcPool} (counted : p.Counted) :
    (g.setPool a p).Sane := by
  constructor
  · intro b
    rw [GcState.setPool_pools]
    split
    · exact counted
    · exact sane.counted b
  · exact sane.last

theorem sweepSlot (sane : g.Sane) (marker : Ref → Bool → σ → σ) (p : Addr) {i : Nat}
    (bound : i < 64) : (sweepSlot marked marker p g i).Sane := by
  unfold AkLisp.sweepSlot
  split
  · next taken =>
      split
      · exact ⟨sane.counted, sane.last⟩
      · exact sane.setPool p ((sane.counted p).clearUse bound taken)
  · exact sane

theorem sweep (sane : g.Sane) : (aklGcSweep marked g).Sane :=
  aklGcSweep_preserves (fun _ marker p _ bound before => before.sweepSlot marker p bound) sane

theorem create (sane : g.Sane) (tid : Nat) : (aklGcPoolCreate g tid fun _ => 0).1.Sane := by
  constructor
  · intro a
    rw [aklGcPoolCreate_pools]
    by_cases new : a = g.top
    · simp only [new, if_true, clearedFreemap_zero]
      exact GcPool.Counted.zero _
    · simp only [new, if_false]
      exact sane.counted a
  · intro i
    rw [aklGcPoolCreate_types]
    split
    · exact fun _ => rfl
    · exact sane.last i

theorem register (sane : g.Sane) (marker : Option (Ref → Bool → σ → σ)) :
    (aklGcRegisterType g marker).Sane := by
  constructor
  · exact sane.counted
  · intro i
    simp only [aklGcRegisterType, Function.update_apply]
    split
    · intro isSome
      cases isSome
    · exact sane.last i

/-- Taking a free slot. -/
theorem take (sane : g.Sane) {p : Addr} {ind : Nat} (bound : ind < 64)
    (free : g.inUse ⟨p, ind⟩ = false) : (g.setPool p (aklGcPoolUse (g.pools p) ind)).Sane :=
  sane.setPool p ((sane.counted p).use bound free)

end GcState.Sane

/-! ## The search -/

variable {marked : σ → Ref → Bool} {g : GcState σ} {tid : Nat}

/-- The slot found decides: what taking it does to the others is always right. -/
theorem takesFree_iff {unset : Nat → Unset} {before : GcState σ} {p : Addr} {ind : Nat}
    (found : aklGcFind marked g tid unset = (before, p, ind)) :
    TakesFree marked g tid unset ↔ ind < 64 ∧ before.inUse ⟨p, ind⟩ = false := by
  simp only [TakesFree, aklGcMalloc, found]
  constructor
  · rintro ⟨bound, free, -⟩
    exact ⟨bound, free⟩
  · rintro ⟨bound, free⟩
    refine ⟨bound, free, ?_, ?_⟩
    · simp [GcState.inUse, aklGcPoolInUse_use]
    · intro r' _ ne
      simp only [GcState.inUse, GcState.setPool_pools]
      split
      · next same =>
          have slotNe : ind ≠ r'.slot := by
            intro equal
            apply ne
            cases r'
            simp_all
          rw [aklGcPoolInUse_use, decide_eq_false slotNe, Bool.false_or, same]
      · rfl

theorem TakesFree.free {unset : Nat → Unset} (taken : TakesFree marked g tid unset) :
    (aklGcFind marked g tid unset).1.inUse ⟨(aklGcFind marked g tid unset).2.1,
      (aklGcFind marked g tid unset).2.2⟩ = false :=
  ((takesFree_iff rfl).mp taken).2

/-- The search without a sweep fails only when there is no room. -/
theorem aklGcTypeHaveFree_eq_none_iff (sane : g.Sane) (unset : Unset) :
    aklGcTypeHaveFree g tid unset = none ↔ g.NoRoom tid := by
  have ends := sane.last tid
  simp only [aklGcTypeHaveFree, GcState.NoRoom]
  cases headEq : (g.aiGcTypes tid).gtPoolHead with
  | none => simp
  | some head =>
      cases lastEq : (g.aiGcTypes tid).gtPoolLast with
      | none => simp [headEq, lastEq] at ends
      | some last =>
          cases room : aklGcPoolHaveFree (g.pools last) with
          | true => simp [room]
          | false => simp [room]

/-- A slot of the first pool of a type is free. -/
theorem create_free (g : GcState σ) (tid : Nat) :
    (aklGcPoolCreate g tid fun _ => 0).1.inUse ⟨g.top, 0⟩ = false := by
  simp only [GcState.inUse, aklGcPoolCreate_pools, if_true, clearedFreemap_zero]
  exact aklGcPoolInUse_zero _ _ 0

/-- What the search without a sweep finds. -/
theorem aklGcTypeHaveFree_spec (sane : g.Sane) {unset : Unset}
    (zero : unset.freemap = fun _ => 0) {before : GcState σ} {p : Addr} {ind : Nat}
    (found : aklGcTypeHaveFree g tid unset = some (before, p, ind)) :
    before.Sane ∧ (ind < 64 ∧ before.inUse ⟨p, ind⟩ = false ↔ g.SlotFor tid unset.ind) := by
  simp only [aklGcTypeHaveFree] at found
  simp only [GcState.SlotFor]
  cases headEq : (g.aiGcTypes tid).gtPoolHead with
  | none =>
      simp only [headEq, zero] at found
      cases found
      refine ⟨sane.create tid, ?_⟩
      exact iff_of_true ⟨by decide, create_free g tid⟩ trivial
  | some head =>
      cases lastEq : (g.aiGcTypes tid).gtPoolLast with
      | none => simp [headEq, lastEq] at found
      | some last =>
          simp only [headEq, lastEq] at found
          simp only
          cases room : aklGcPoolHaveFree (g.pools last) with
          | true =>
              obtain ⟨slot, bound, slotEq, free⟩ :=
                aklGcPoolFindFree_spec (sane.counted last).small room
              simp only [room, if_true, slotEq, Option.getD_some] at found
              cases found
              refine ⟨sane, ?_⟩
              rw [if_pos rfl, ← free]
              exact and_iff_right bound
          | false =>
              simp only [room, Bool.false_eq_true, if_false] at found ⊢
              cases olderEq : olderPool g last g.top (some head) with
              | none => simp [olderEq] at found
              | some pool =>
                  simp only [olderEq, Option.map_some] at found
                  cases found
                  exact ⟨sane, Iff.rfl⟩

/-- Without room the search without a sweep would come to a new pool. -/
theorem GcState.NoRoom.slotFor (full : g.NoRoom tid) (ind : Nat) : g.SlotFor tid ind := by
  simp only [GcState.NoRoom] at full
  simp only [GcState.SlotFor]
  split at full
  · simp [full]
  · exact full.elim

/-- What the whole search finds. -/
theorem aklGcFind_spec (sane : g.Sane) {unset : Nat → Unset} (zero : ZeroFilled unset)
    {before : GcState σ} {p : Addr} {ind : Nat}
    (found : aklGcFind marked g tid unset = (before, p, ind)) :
    before.Sane ∧ (ind < 64 ∧ before.inUse ⟨p, ind⟩ = false ↔ Servable marked g tid unset) := by
  rw [aklGcFind_eq] at found
  cases searched : aklGcTypeHaveFree g tid (unset 0) with
  | some slot =>
      simp only [searched] at found
      subst found
      obtain ⟨sane', free⟩ := aklGcTypeHaveFree_spec sane (zero 0) searched
      have room : ¬ g.NoRoom tid := by
        rw [← aklGcTypeHaveFree_eq_none_iff sane (unset 0), searched]
        simp
      refine ⟨sane', free.trans ?_⟩
      simp [Servable, room]
  | none =>
      have full : g.NoRoom tid := (aklGcTypeHaveFree_eq_none_iff sane (unset 0)).mp searched
      simp only [searched] at found
      by_cases due : g.aiGcLastWasMark = false ∧ g.useGc = true
      · rw [if_pos due, aklGcFind_eq] at found
        have sane' : GcState.Sane { aklGcSweep marked g with aiGcLastWasMark := true } :=
          ⟨sane.sweep.counted, sane.sweep.last⟩
        have servable : Servable marked g tid unset ↔
            GcState.SlotFor { aklGcSweep marked g with aiGcLastWasMark := true } tid
              (unset 1).ind := by
          simp [Servable, full, due]
        rw [servable]
        cases again : aklGcTypeHaveFree { aklGcSweep marked g with aiGcLastWasMark := true } tid
            (unset 1) with
        | some slot =>
            simp only [again] at found
            subst found
            exact aklGcTypeHaveFree_spec sane' (zero 1) again
        | none =>
            have full' := (aklGcTypeHaveFree_eq_none_iff sane' (unset 1)).mp again
            simp only [again, Bool.true_eq_false, false_and, if_false, zero 1] at found
            cases found
            have created := sane'.create tid
            refine ⟨⟨created.counted, created.last⟩, ?_⟩
            exact iff_of_true ⟨by decide, create_free _ tid⟩ (full'.slotFor (unset 1).ind)
      · rw [if_neg due] at found
        simp only [zero 0] at found
        cases found
        have created := sane.create tid
        refine ⟨⟨created.counted, created.last⟩, ?_⟩
        apply iff_of_true
        · exact ⟨by decide, create_free g tid⟩
        · constructor
          · exact fun both => absurd both.2 due
          · exact fun _ => full.slotFor (unset 0).ind

namespace GcState.Sane

/-- A served request. -/
theorem malloc (sane : g.Sane) {unset : Nat → Unset} (zero : ZeroFilled unset)
    (servable : Servable marked g tid unset) : (aklGcMalloc marked g tid unset).1.Sane := by
  have found : aklGcFind marked g tid unset = aklGcFind marked g tid unset := rfl
  obtain ⟨sane', free⟩ := aklGcFind_spec sane zero found
  obtain ⟨bound, unused⟩ := free.mpr servable
  exact sane'.take bound unused

/-- The collector as `akl_gc_init` leaves it. -/
theorem init (markers : List (Option (Ref → Bool → σ → σ))) (objects : σ) :
    (aklGcInit markers objects).Sane := by
  have empty : (⟨false, false, fun _ => ⟨none, none, 0, none⟩, 0, fun _ => default, 0, objects⟩ :
      GcState σ).Sane := by
    constructor
    · exact fun _ => GcPool.Counted.zero none
    · intro tid isSome
      cases isSome
  unfold aklGcInit
  generalize GcState.mk false false _ _ _ _ objects = g at empty
  induction markers generalizing g with
  | nil => exact empty
  | cons marker markers ih => exact ih _ (empty.register marker)

/-- A served run. -/
theorem run (sane : g.Sane) (events : List (GcEvent σ)) (served : g.Served marked events) :
    (g.run marked events).Sane := by
  induction events generalizing g with
  | nil => exact sane
  | cons event events ih =>
      cases event with
      | register marker => exact ih (sane.register marker) served
      | enable => exact ih ⟨sane.counted, sane.last⟩ served
      | disable => exact ih ⟨sane.counted, sane.last⟩ served
      | mark objects => exact ih ⟨sane.counted, sane.last⟩ served
      | sweep => exact ih sane.sweep served
      | malloc tid unset =>
          obtain ⟨zero, servable, others⟩ := served
          exact ih (sane.malloc zero servable) others

end GcState.Sane

/-- In a run whose requests all meet the condition, the next request takes a free
slot exactly when it meets the condition, too. -/
theorem malloc_takesFree (marked : σ → Ref → Bool)
    (markers : List (Option (Ref → Bool → σ → σ))) (objects : σ) (events : List (GcEvent σ))
    (served : (aklGcInit markers objects).Served marked events) (tid : Nat)
    (unset : Nat → Unset) (zero : ZeroFilled unset) :
    TakesFree marked ((aklGcInit markers objects).run marked events) tid unset ↔
      Servable marked ((aklGcInit markers objects).run marked events) tid unset := by
  have sane := (GcState.Sane.init markers objects).run events served
  exact (takesFree_iff rfl).trans (aklGcFind_spec sane zero rfl).2

/-- A marker that sets the mark of its own object only. -/
def setMark (r : Ref) (m : Bool) (marks : Ref → Bool) : Ref → Bool :=
  Function.update marks r m

/-- Zero-filled memory, and `ind` zero. -/
def zeroUnset : Nat → Unset :=
  fun _ => ⟨0, fun _ => 0⟩

/-- The second request of a type. -/
theorem malloc_takesFree_second :
    TakesFree (fun marks r => marks r)
      ((aklGcInit (List.replicate 6 (some setMark)) fun _ => false).run (fun marks r => marks r)
        [.malloc 3 zeroUnset]) 3 zeroUnset := by
  apply (malloc_takesFree _ _ _ [.malloc 3 zeroUnset] _ 3 zeroUnset fun _ => rfl).mpr
  · constructor
    · rintro ⟨full, -⟩
      exact absurd full.1 (by decide +kernel)
    · intro _
      exact Or.inl (by decide +kernel)
  · refine ⟨fun _ => rfl, ⟨?_, ?_⟩, trivial⟩
    · rintro ⟨full, -⟩
      exact full.elim
    · exact fun _ => trivial

/-- Of 34 list entries the one in slot 32 is swept. -/
def holeInSecondWord : GcState (Ref → Bool) :=
  (aklGcInit (List.replicate 6 (some setMark)) fun _ => false).run (fun marks r => marks r)
    (List.replicate 34 (.malloc 3 zeroUnset) ++ [.enable, .mark fun r => r.slot != 32, .sweep])

/-- The next request finds the first bit of the second word and returns slot 0,
which is in use. -/
theorem malloc_takes_live :
    ¬ TakesFree (fun marks r => marks r) holeInSecondWord 3 zeroUnset := by
  apply mt TakesFree.free
  decide +kernel

end AkLisp
