import AkLisp.Gc.Live
import AkLisp.Gc.Pass
import AkLisp.Linked.Walk
import Mathlib.Data.List.Perm.Subperm

/-!
# What a sweep keeps

`akl_gc_sweep` clears a mark by calling the marker of the type, which clears
the marks of the objects referred to as well: of the list of a value, the value
of a variable or of an entry, and the entries of a list.  Lists and entries are
swept after values and lists, so an object that lost its mark that way before
its own turn is freed.
-/

namespace AkLisp

open Linked Sweeping

/-- A pointer to a value: one of the two static values, or a slot. -/
inductive ValuePtr where
  | nilValue
  | trueValue
  | at (r : Ref)
  deriving DecidableEq

/-- The fields of values, variables, lists and list entries that the markers
use.  `vaList` is the list of a value of type `AKL_VT_LIST`, `liEntries` are the
entries of a list from its head, and `leData` is a value if `gcLeIsObj` says
so. -/
structure Objects where
  gcMark : Ref → Bool
  vaList : Ref → Option Ref
  vrValue : Ref → Option ValuePtr
  liEntries : Ref → List Ref
  gcLeIsObj : Ref → Bool
  leData : Ref → Option ValuePtr

/-- `AKL_GC_SET_MARK`. -/
def aklGcSetMark (r : Ref) (m : Bool) (o : Objects) : Objects :=
  { o with gcMark := Function.update o.gcMark r m }

/-- `akl_gc_mark_value`. -/
def aklGcMarkValue (v : ValuePtr) (m : Bool) (o : Objects) : Objects :=
  match v with
  | .nilValue => o
  | .trueValue => o
  | .at r =>
      let o :=
        match o.vaList r with
        | none => o
        | some list => aklGcSetMark list m o
      aklGcSetMark r m o

/-- `akl_gc_mark_list_entry`. -/
def aklGcMarkListEntry (le : Ref) (m : Bool) (o : Objects) : Objects :=
  let o := aklGcSetMark le m o
  if o.gcLeIsObj le then
    match o.leData le with
    | none => o
    | some v => aklGcMarkValue v m o
  else o

/-- `akl_gc_mark_variable`. -/
def aklGcMarkVariable (var : Ref) (m : Bool) (o : Objects) : Objects :=
  let o := aklGcSetMark var m o
  match o.vrValue var with
  | none => o
  | some v => aklGcMarkValue v m o

/-- `akl_gc_mark_list`. -/
def aklGcMarkList (list : Ref) (m : Bool) (o : Objects) : Objects :=
  let o := (o.liEntries list).foldl (fun o ent => aklGcMarkListEntry ent m o) o
  aklGcSetMark list m o

/-- `akl_gc_mark_function`. -/
def aklGcMarkFunction (_ : Ref) (_ : Bool) (o : Objects) : Objects := o

/-- `akl_gc_mark_udata`. -/
def aklGcMarkUdata (_ : Ref) (_ : Bool) (o : Objects) : Objects := o

/-- `base_type_markers`, in the order of `akl_gc_base_type_t`. -/
def baseTypeMarkers : List (Ref → Bool → Objects → Objects) :=
  [fun r => aklGcMarkValue (.at r), aklGcMarkVariable, aklGcMarkList, aklGcMarkListEntry,
    aklGcMarkFunction, aklGcMarkUdata]

/-! ## Footprints -/

namespace Objects

/-- The objects whose mark `akl_gc_mark_value` sets. -/
def valueFoot (o : Objects) : ValuePtr → List Ref
  | .nilValue => []
  | .trueValue => []
  | .at r => r :: (o.vaList r).toList

/-- The same for `akl_gc_mark_list_entry`. -/
def entryFoot (o : Objects) (le : Ref) : List Ref :=
  le :: if o.gcLeIsObj le then ((o.leData le).map o.valueFoot).getD [] else []

/-- The same for `akl_gc_mark_variable`. -/
def variableFoot (o : Objects) (var : Ref) : List Ref :=
  var :: ((o.vrValue var).map o.valueFoot).getD []

/-- The same for `akl_gc_mark_list`. -/
def listFoot (o : Objects) (list : Ref) : List Ref :=
  list :: (o.liEntries list).flatMap o.entryFoot

/-- The footprints of the markers, in their order. -/
def foot (o : Objects) : Nat → Ref → List Ref
  | 0 => fun r => o.valueFoot (.at r)
  | 1 => o.variableFoot
  | 2 => o.listFoot
  | 3 => o.entryFoot
  | _ => fun _ => []

/-- The same objects with some marks set to `m`. -/
def Remarked (m : Bool) (o o' : Objects) (refs : List Ref) : Prop :=
  o' = { o with gcMark := fun x => if x ∈ refs then m else o.gcMark x }

/-- The same objects with some marks cleared. -/
def Cleared (o o' : Objects) (refs : List Ref) : Prop :=
  o' = { o with gcMark := fun x => o.gcMark x && !decide (x ∈ refs) }

variable {m : Bool} {o o' o'' : Objects} {refs refs' : List Ref}

theorem Remarked.refl (m : Bool) (o : Objects) : o.Remarked m o [] := by
  unfold Remarked
  simp

theorem Remarked.trans (first : Remarked m o o' refs) (second : Remarked m o' o'' refs') :
    Remarked m o o'' (refs ++ refs') := by
  unfold Remarked at *
  subst first
  subst second
  congr 1
  funext x
  by_cases inFirst : x ∈ refs
  · simp [inFirst]
  · simp [inFirst]

/-- Only the objects matter, not their order. -/
theorem Remarked.congr (remarked : Remarked m o o' refs) (same : ∀ x, x ∈ refs ↔ x ∈ refs') :
    Remarked m o o' refs' := by
  unfold Remarked at *
  subst remarked
  simp [same]

/-- Clearing marks is setting them to `FALSE`. -/
theorem Remarked.cleared (remarked : Remarked false o o' refs) : o.Cleared o' refs := by
  unfold Remarked at remarked
  unfold Cleared
  subst remarked
  congr 1
  funext x
  by_cases touched : x ∈ refs
  · simp [touched]
  · simp [touched]

theorem remarked_setMark (m : Bool) (o : Objects) (r : Ref) :
    Remarked m o (aklGcSetMark r m o) [r] := by
  unfold Remarked aklGcSetMark
  congr 1
  funext x
  by_cases same : x = r
  · simp [same]
  · simp [same]

theorem remarked_value (m : Bool) (o : Objects) (v : ValuePtr) :
    Remarked m o (aklGcMarkValue v m o) (o.valueFoot v) := by
  cases v with
  | nilValue => exact Remarked.refl m o
  | trueValue => exact Remarked.refl m o
  | «at» r =>
      simp only [aklGcMarkValue, valueFoot]
      cases o.vaList r with
      | none => exact remarked_setMark m o r
      | some list =>
          apply ((remarked_setMark m o list).trans (remarked_setMark m _ r)).congr
          intro x
          simp [or_comm]

theorem remarked_entry (m : Bool) (o : Objects) (le : Ref) :
    Remarked m o (aklGcMarkListEntry le m o) (o.entryFoot le) := by
  have own := remarked_setMark m o le
  have isObjSame : (aklGcSetMark le m o).gcLeIsObj le = o.gcLeIsObj le := rfl
  have dataSame : (aklGcSetMark le m o).leData le = o.leData le := rfl
  simp only [aklGcMarkListEntry, entryFoot, isObjSame, dataSame]
  cases o.gcLeIsObj le with
  | false => exact own
  | true =>
      cases o.leData le with
      | none => exact own
      | some v => exact own.trans (remarked_value m _ v)

theorem remarked_variable (m : Bool) (o : Objects) (var : Ref) :
    Remarked m o (aklGcMarkVariable var m o) (o.variableFoot var) := by
  have own := remarked_setMark m o var
  have valueSame : (aklGcSetMark var m o).vrValue var = o.vrValue var := rfl
  simp only [aklGcMarkVariable, variableFoot, valueSame]
  cases o.vrValue var with
  | none => exact own
  | some v => exact own.trans (remarked_value m _ v)

theorem remarked_list (m : Bool) (o : Objects) (list : Ref) :
    Remarked m o (aklGcMarkList list m o) (o.listFoot list) := by
  have entries : ∀ (es : List Ref) (o' : Objects) (refs : List Ref), Remarked m o o' refs →
      Remarked m o (es.foldl (fun o ent => aklGcMarkListEntry ent m o) o')
        (refs ++ es.flatMap o.entryFoot) := by
    intro es
    induction es with
    | nil =>
        intro o' refs remarked
        simpa using remarked
    | cons e es ih =>
        intro o' refs remarked
        have sameFoot : o'.entryFoot e = o.entryFoot e := by
          unfold Remarked at remarked
          subst remarked
          rfl
        have next := ih _ _ (remarked.trans (sameFoot ▸ remarked_entry m o' e))
        rw [List.append_assoc] at next
        exact next
  have all := entries (o.liEntries list) o [] (Remarked.refl m o)
  apply (all.trans (remarked_setMark m _ list)).congr
  intro x
  rw [listFoot, List.nil_append, List.mem_append, List.mem_singleton, List.mem_cons]
  exact or_comm

/-- Every marker of a base type sets the marks of exactly its footprint. -/
theorem remarked_foot {i : Nat} {marker : Ref → Bool → Objects → Objects}
    (isMarker : baseTypeMarkers[i]? = some marker) (m : Bool) (o : Objects) (r : Ref) :
    Remarked m o (marker r m o) (o.foot i r) := by
  match i, isMarker with
  | 0, rfl => exact remarked_value m o (.at r)
  | 1, rfl => exact remarked_variable m o r
  | 2, rfl => exact remarked_list m o r
  | 3, rfl => exact remarked_entry m o r
  | 4, rfl => exact Remarked.refl m o
  | 5, rfl => exact Remarked.refl m o

theorem mem_foot_self (o : Objects) {i : Nat} (base : i < 4) (r : Ref) : r ∈ o.foot i r := by
  match i, base with
  | 0, _ => exact List.mem_cons_self
  | 1, _ => exact List.mem_cons_self
  | 2, _ => exact List.mem_cons_self
  | 3, _ => exact List.mem_cons_self

end Objects

/-! ## A sweep as passes -/

/-- Which slots are in use and which objects are marked. -/
def GcState.bits (g : GcState Objects) : Bits Ref :=
  ⟨g.inUse, g.objects.gcMark⟩

/-- What a sweep leaves alone: the references of the objects, the types and the
chains of their pools. -/
structure SweptFrom (g g' : GcState Objects) : Prop where
  objects : g'.objects = { g.objects with gcMark := g'.objects.gcMark }
  types : g'.aiGcTypes = g.aiGcTypes
  next : ∀ a, (g'.pools a).gpNext = (g.pools a).gpNext
  top : g'.top = g.top

namespace SweptFrom

variable {g g' g'' : GcState Objects}

theorem refl (g : GcState Objects) : SweptFrom g g :=
  ⟨rfl, rfl, fun _ => rfl, rfl⟩

theorem trans (first : SweptFrom g g') (second : SweptFrom g' g'') : SweptFrom g g'' where
  objects := by rw [second.objects, first.objects]
  types := second.types.trans first.types
  next := fun a => (second.next a).trans (first.next a)
  top := second.top.trans first.top

/-- Footprints do not depend on the marks. -/
theorem foot (swept : SweptFrom g g') : g'.objects.foot = g.objects.foot := by
  rw [swept.objects]
  funext i
  match i with
  | 0 => rfl
  | 1 => rfl
  | 2 => rfl
  | 3 => rfl
  | _ + 4 => rfl

end SweptFrom

/-- The slots of a chain of pools in the order of a sweep. -/
def slots (ps : List Addr) : List Ref :=
  ps.flatMap fun p => (List.range aklGcPoolSize).map (Ref.mk p)

theorem mem_slots {ps : List Addr} {r : Ref} : r ∈ slots ps ↔ r.pool ∈ ps ∧ r.slot < 64 := by
  simp only [slots, List.mem_flatMap, List.mem_map, List.mem_range]
  constructor
  · rintro ⟨p, mem, j, bound, rfl⟩
    exact ⟨mem, bound⟩
  · rintro ⟨mem, bound⟩
    exact ⟨r.pool, mem, r.slot, bound, rfl⟩

theorem nodup_slots {ps : List Addr} (nodup : ps.Nodup) : (slots ps).Nodup := by
  rw [slots, List.nodup_flatMap]
  constructor
  · intro p _
    apply List.nodup_range.map
    intro i j equal
    exact congrArg Ref.slot equal
  · apply nodup.imp
    intro p q ne r memP memQ
    obtain ⟨i, -, rfl⟩ := List.mem_map.mp memP
    obtain ⟨j, -, equal⟩ := List.mem_map.mp memQ
    exact ne (congrArg Ref.pool equal).symm

section Passes

variable {g : GcState Objects} {i : Nat} {marker : Ref → Bool → Objects → Objects}

/-- One round is one visit. -/
theorem sweepSlot_visit (isMarker : baseTypeMarkers[i]? = some marker) (g : GcState Objects)
    (p : Addr) (j : Nat) :
    SweptFrom g (sweepSlot Objects.gcMark marker p g j) ∧
      (sweepSlot Objects.gcMark marker p g j).bits =
        visit (g.objects.foot i) g.bits ⟨p, j⟩ := by
  cases used : g.inUse ⟨p, j⟩ with
  | false =>
      have slotEq : sweepSlot Objects.gcMark marker p g j = g := by
        rw [sweepSlot, show aklGcPoolInUse (g.pools p) j = false from used]
        rfl
      have visitEq : visit (g.objects.foot i) g.bits ⟨p, j⟩ = g.bits := by
        rw [visit, show g.bits.used ⟨p, j⟩ = false from used]
        rfl
      rw [slotEq, visitEq]
      exact ⟨SweptFrom.refl g, rfl⟩
  | true =>
      cases marked : g.objects.gcMark ⟨p, j⟩ with
      | true =>
          have cleared := (Objects.remarked_foot isMarker false g.objects ⟨p, j⟩).cleared
          have slotEq : sweepSlot Objects.gcMark marker p g j =
              { g with objects := marker ⟨p, j⟩ false g.objects } := by
            rw [sweepSlot, show aklGcPoolInUse (g.pools p) j = true from used, marked]
            rfl
          have visitEq : visit (g.objects.foot i) g.bits ⟨p, j⟩ =
              ⟨g.inUse, fun x => g.objects.gcMark x && !decide (x ∈ g.objects.foot i ⟨p, j⟩)⟩ := by
            rw [visit, show g.bits.used ⟨p, j⟩ = true from used,
              show g.bits.marks ⟨p, j⟩ = true from marked]
            rfl
          rw [slotEq, visitEq, cleared]
          exact ⟨⟨rfl, rfl, fun _ => rfl, rfl⟩, rfl⟩
      | false =>
          have slotEq : sweepSlot Objects.gcMark marker p g j =
              g.setPool p (aklGcPoolClearUse (g.pools p) j) := by
            rw [sweepSlot, show aklGcPoolInUse (g.pools p) j = true from used, marked]
            rfl
          have visitEq : visit (g.objects.foot i) g.bits ⟨p, j⟩ =
              ⟨Function.update g.inUse ⟨p, j⟩ false, g.objects.gcMark⟩ := by
            rw [visit, show g.bits.used ⟨p, j⟩ = true from used,
              show g.bits.marks ⟨p, j⟩ = false from marked]
            rfl
          rw [slotEq, visitEq]
          constructor
          · refine ⟨rfl, rfl, ?_, rfl⟩
            intro a
            rw [GcState.setPool_pools]
            split
            · next same => rw [same, aklGcPoolClearUse]
            · rfl
          · have usedEq : (g.setPool p (aklGcPoolClearUse (g.pools p) j)).inUse =
                Function.update g.inUse ⟨p, j⟩ false := by
              funext r
              obtain ⟨q, k⟩ := r
              rw [Function.update_apply, GcState.inUse, GcState.setPool_pools]
              by_cases pool : q = p
              · rw [if_pos pool, aklGcPoolInUse_clearUse, pool]
                by_cases slot : k = j
                · simp [slot]
                · simp [slot, Ne.symm slot, GcState.inUse]
              · simp [pool, GcState.inUse]
            rw [GcState.bits, usedEq]
            rfl

/-- Rounds over some slots of a pool. -/
theorem sweepSlots_pass (isMarker : baseTypeMarkers[i]? = some marker) (p : Addr)
    (js : List Nat) (g : GcState Objects) :
    SweptFrom g (js.foldl (sweepSlot Objects.gcMark marker p) g) ∧
      (js.foldl (sweepSlot Objects.gcMark marker p) g).bits =
        visitAll (g.objects.foot i) g.bits (js.map (Ref.mk p)) := by
  induction js generalizing g with
  | nil => exact ⟨SweptFrom.refl g, rfl⟩
  | cons j js ih =>
      obtain ⟨swept, bitsEq⟩ := sweepSlot_visit isMarker g p j
      obtain ⟨swept', bitsEq'⟩ := ih (sweepSlot Objects.gcMark marker p g j)
      constructor
      · exact swept.trans swept'
      · rw [List.foldl_cons, bitsEq', bitsEq, swept.foot]
        rfl

/-- The sweep of a chain of pools. -/
theorem aklGcSweepPool_pass (isMarker : baseTypeMarkers[i]? = some marker) {fuel : Nat}
    {g : GcState Objects} {p : Option Addr} {ps : List Addr}
    (walk : Walk (fun a => (g.pools a).gpNext) p ps) (enough : ps.length ≤ fuel) :
    SweptFrom g (aklGcSweepPool Objects.gcMark marker fuel g p) ∧
      (aklGcSweepPool Objects.gcMark marker fuel g p).bits =
        visitAll (g.objects.foot i) g.bits (slots ps) := by
  induction ps generalizing fuel g p with
  | nil =>
      rw [Walk.nil_iff.mp walk]
      cases fuel <;> exact ⟨SweptFrom.refl g, rfl⟩
  | cons a ps ih =>
      cases fuel with
      | zero => cases enough
      | succ fuel =>
          obtain ⟨swept, bitsEq⟩ :=
            sweepSlots_pass isMarker a (List.range aklGcPoolSize) g
          have rest : Walk (fun b => (((List.range aklGcPoolSize).foldl
              (sweepSlot Objects.gcMark marker a) g).pools b).gpNext)
              (((List.range aklGcPoolSize).foldl
                (sweepSlot Objects.gcMark marker a) g).pools a).gpNext ps := by
            rw [swept.next a]
            exact walk.2.congr fun b _ => swept.next b
          obtain ⟨swept', bitsEq'⟩ := ih rest (Nat.le_of_succ_le_succ enough)
          rw [walk.1]
          constructor
          · exact swept.trans swept'
          · rw [aklGcSweepPool, bitsEq', bitsEq, swept.foot]
            simp only [visitAll, slots, List.flatMap_cons, List.foldl_append]

end Passes

/-! ## The heap of the base types -/

/-- A heap with the collector on and the six base types, whose pools `chains`
lists type by type. -/
structure GcHeap (g : GcState Objects) (chains : Nat → List Addr) : Prop where
  on : g.useGc = true
  types : g.aiGcTypesCount = 6
  markers : ∀ i < 6, (g.aiGcTypes i).gtMarkerFn = baseTypeMarkers[i]?
  walk : ∀ i < 6, Walk (fun a => (g.pools a).gpNext) (g.aiGcTypes i).gtPoolHead (chains i)
  below : ∀ i < 6, ∀ a ∈ chains i, a < g.top
  apart : ∀ i < 6, ∀ j < 6, i ≠ j → ∀ a ∈ chains i, a ∉ chains j

/-- The marked objects are in use, and what they refer to is marked. -/
structure ClosedMarks (g : GcState Objects) (chains : Nat → List Addr) : Prop where
  inUse : ∀ i < 4, ∀ r ∈ slots (chains i), g.objects.gcMark r = true → g.inUse r = true
  value : ∀ r ∈ slots (chains 0), g.objects.gcMark r = true →
    ∀ l, g.objects.vaList r = some l → l ∈ slots (chains 2) ∧ g.objects.gcMark l = true
  var : ∀ r ∈ slots (chains 1), g.objects.gcMark r = true →
    ∀ v, g.objects.vrValue r = some (.at v) → v ∈ slots (chains 0) ∧ g.objects.gcMark v = true
  list : ∀ r ∈ slots (chains 2), g.objects.gcMark r = true →
    ∀ e ∈ g.objects.liEntries r, e ∈ slots (chains 3) ∧ g.objects.gcMark e = true
  entry : ∀ r ∈ slots (chains 3), g.objects.gcMark r = true → g.objects.gcLeIsObj r = true →
    ∀ v, g.objects.leData r = some (.at v) → v ∈ slots (chains 0) ∧ g.objects.gcMark v = true

/-- Of the values, variables, lists and entries those in use and marked are in
use afterwards, and none is marked. -/
def SweptExactly (chains : Nat → List Addr) (g g' : GcState Objects) : Prop :=
  ∀ i < 4, ∀ r ∈ slots (chains i),
    g'.inUse r = (g.inUse r && g.objects.gcMark r) ∧ g'.objects.gcMark r = false

/-- No marked value refers to a list. -/
def NoValueList (chains : Nat → List Addr) (g : GcState Objects) : Prop :=
  ∀ r ∈ slots (chains 0), g.objects.gcMark r = true → g.objects.vaList r = none

/-- No marked list has an entry. -/
def NoListEntry (chains : Nat → List Addr) (g : GcState Objects) : Prop :=
  ∀ r ∈ slots (chains 2), g.objects.gcMark r = true → g.objects.liEntries r = []

/-- The bits after the passes over the first `n` types. -/
def passes (o : Objects) (chains : Nat → List Addr) (b : Bits Ref) : Nat → Bits Ref
  | 0 => b
  | n + 1 => visitAll (o.foot n) (passes o chains b n) (slots (chains n))

namespace GcHeap

variable {g : GcState Objects} {chains : Nat → List Addr}

theorem length_le (heap : GcHeap g chains) {i : Nat} (bound : i < 6) :
    (chains i).length ≤ g.top :=
  (heap.walk i bound).length_le (heap.below i bound)

/-- The sweep is a sequence of passes. -/
theorem sweep_passes (heap : GcHeap g chains) :
    (aklGcSweep Objects.gcMark g).bits = passes g.objects chains g.bits 6 := by
  have upTo : ∀ n ≤ 6,
      SweptFrom g ((List.range n).foldl (sweepType Objects.gcMark) g) ∧
        ((List.range n).foldl (sweepType Objects.gcMark) g).bits =
          passes g.objects chains g.bits n := by
    intro n
    induction n with
    | zero => exact fun _ => ⟨SweptFrom.refl g, rfl⟩
    | succ n ih =>
        intro bound
        obtain ⟨swept, bitsEq⟩ := ih (Nat.le_of_succ_le bound)
        rw [List.range_succ, List.foldl_append, List.foldl_cons, List.foldl_nil]
        generalize (List.range n).foldl (sweepType Objects.gcMark) g = g' at swept bitsEq
        have isMarker : ∃ marker, baseTypeMarkers[n]? = some marker :=
          ⟨_, List.getElem?_eq_getElem bound⟩
        obtain ⟨marker, isMarker⟩ := isMarker
        have markerEq : (g'.aiGcTypes n).gtMarkerFn = some marker := by
          rw [swept.types, heap.markers n bound, isMarker]
        have walk : Walk (fun a => (g'.pools a).gpNext) (g'.aiGcTypes n).gtPoolHead
            (chains n) := by
          rw [swept.types]
          exact (heap.walk n bound).congr fun a _ => swept.next a
        have enough : (chains n).length ≤ g'.top := by
          rw [swept.top]
          exact heap.length_le bound
        obtain ⟨swept', bitsEq'⟩ := aklGcSweepPool_pass isMarker walk enough
        have roundEq : sweepType Objects.gcMark g' n =
            aklGcSweepPool Objects.gcMark marker g'.top g' (g'.aiGcTypes n).gtPoolHead := by
          simp only [sweepType, markerEq]
        rw [roundEq]
        constructor
        · exact swept.trans swept'
        · rw [bitsEq', swept.foot, bitsEq]
          rfl
  rw [aklGcSweep, heap.on, heap.types]
  exact (upTo 6 (Nat.le_refl 6)).2

theorem slots_apart (heap : GcHeap g chains) {i j : Nat} (boundI : i < 6) (boundJ : j < 6)
    (ne : i ≠ j) {r : Ref} (mem : r ∈ slots (chains i)) : r ∉ slots (chains j) := by
  rw [mem_slots] at mem ⊢
  rintro ⟨memJ, -⟩
  exact heap.apart i boundI j boundJ ne r.pool mem.1 memJ

/-- Marks only go away. -/
theorem passes_marks_le {b : Bits Ref} {o : Objects} {x : Ref} {m n : Nat} (le : m ≤ n)
    (marked : (passes o chains b n).marks x = true) : (passes o chains b m).marks x = true := by
  induction le with
  | refl => exact marked
  | step _ ih => exact ih (visitAll_marks_le marked)

/-- Whatever is freed stays free. -/
theorem passes_used_le {b : Bits Ref} {o : Objects} {x : Ref} {m n : Nat} (le : m ≤ n)
    (used : (passes o chains b n).used x = true) : (passes o chains b m).used x = true := by
  induction le with
  | refl => exact used
  | step _ ih => exact ih (visitAll_used_le used)

/-- An object is freed in the pass of its own type only. -/
theorem passes_used_other (heap : GcHeap g chains) {b : Bits Ref} {o : Objects} {i m n : Nat}
    {r : Ref} (boundI : i < 6) (mem : r ∈ slots (chains i)) (le : m ≤ n) (bound : n ≤ 6)
    (other : n ≤ i ∨ i < m) : (passes o chains b n).used r = (passes o chains b m).used r := by
  induction le with
  | refl => rfl
  | @step n le ih =>
      have ne : i ≠ n := by
        have : m ≤ n := le
        omega
      rw [passes, visitAll_used_other (heap.slots_apart boundI (by omega) ne mem)]
      apply ih
      · omega
      · omega

end GcHeap

namespace ClosedMarks

variable {g : GcState Objects} {chains : Nat → List Addr}

/-- The footprint of the value a marked object refers to. -/
theorem valueFoot_eq (noList : NoValueList chains g) {v : Ref} (mem : v ∈ slots (chains 0))
    (marked : g.objects.gcMark v = true) : g.objects.valueFoot (.at v) = [v] := by
  rw [Objects.valueFoot, noList v mem marked]
  rfl

/-- Without lists of values the footprint of an optional value is one value. -/
theorem mem_valueFoot (noList : NoValueList chains g) {v : Option ValuePtr} {x : Ref}
    (closed : ∀ r, v = some (.at r) → r ∈ slots (chains 0) ∧ g.objects.gcMark r = true)
    (mem : x ∈ (v.map g.objects.valueFoot).getD []) : x ∈ slots (chains 0) := by
  cases v with
  | none => cases mem
  | some v =>
      cases v with
      | nilValue => cases mem
      | trueValue => cases mem
      | «at» r =>
          obtain ⟨inside, marked⟩ := closed r rfl
          rw [Option.map_some, Option.getD_some, valueFoot_eq noList inside marked,
            List.mem_singleton] at mem
          exact mem ▸ inside

theorem mem_entryFoot (closed : ClosedMarks g chains) (noList : NoValueList chains g) {e x : Ref}
    (inside : e ∈ slots (chains 3)) (marked : g.objects.gcMark e = true)
    (mem : x ∈ g.objects.entryFoot e) : x = e ∨ x ∈ slots (chains 0) := by
  rw [Objects.entryFoot, List.mem_cons] at mem
  rcases mem with own | mem
  · exact Or.inl own
  · right
    split at mem
    · next isObj =>
        exact mem_valueFoot noList (closed.entry e inside marked isObj) mem
    · cases mem

/-- Without lists of values a marked object has itself, values, and, if it is a
list, entries in its footprint. -/
theorem mem_foot (closed : ClosedMarks g chains) (noList : NoValueList chains g) {j : Nat}
    {r x : Ref} (inside : r ∈ slots (chains j)) (marked : g.objects.gcMark r = true)
    (mem : x ∈ g.objects.foot j r) :
    x = r ∨ (j ≠ 0 ∧ x ∈ slots (chains 0)) ∨
      (j = 2 ∧ g.objects.liEntries r ≠ [] ∧ x ∈ slots (chains 3)) := by
  match j, inside, mem with
  | 0, inside, mem =>
      have own : x ∈ g.objects.valueFoot (.at r) := mem
      rw [valueFoot_eq noList inside marked, List.mem_singleton] at own
      exact Or.inl own
  | 1, inside, mem =>
      rw [Objects.foot, Objects.variableFoot, List.mem_cons] at mem
      rcases mem with own | mem
      · exact Or.inl own
      · exact Or.inr (Or.inl ⟨by decide, mem_valueFoot noList (closed.var r inside marked) mem⟩)
  | 2, inside, mem =>
      rw [Objects.foot, Objects.listFoot, List.mem_cons, List.mem_flatMap] at mem
      rcases mem with own | ⟨e, memE, mem⟩
      · exact Or.inl own
      · obtain ⟨insideE, markedE⟩ := closed.list r inside marked e memE
        rcases closed.mem_entryFoot noList insideE markedE mem with own | value
        · exact Or.inr (Or.inr ⟨rfl, List.ne_nil_of_mem memE, own ▸ insideE⟩)
        · exact Or.inr (Or.inl ⟨by decide, value⟩)
  | 3, inside, mem =>
      rcases closed.mem_entryFoot noList inside marked mem with own | value
      · exact Or.inl own
      · exact Or.inr (Or.inl ⟨by decide, value⟩)
  | _ + 4, _, mem => cases mem

/-- Before the pass of its own type an object other than a value keeps its mark, an
entry if there are no entries of lists. -/
theorem passes_marks_eq (heap : GcHeap g chains) (closed : ClosedMarks g chains)
    (noList : NoValueList chains g) {i n : Nat} {x : Ref} (bound : i < 4)
    (mem : x ∈ slots (chains i)) (le : n ≤ i) (noEntry : i = 3 → NoListEntry chains g) :
    (passes g.objects chains g.bits n).marks x = g.objects.gcMark x := by
  induction n with
  | zero => rfl
  | succ n ih =>
      rw [passes, visitAll_marks_other, ih (Nat.le_of_succ_le le)]
      intro r memR marked touched
      have marked₀ : g.objects.gcMark r = true :=
        GcHeap.passes_marks_le (b := g.bits) (Nat.zero_le n) marked
      rcases closed.mem_foot noList memR marked₀ touched with own | ⟨-, value⟩ |
        ⟨two, entries, entry⟩
      · exact heap.slots_apart (by omega) (by omega) (by omega) (own ▸ mem) memR
      · exact heap.slots_apart (by omega) (by omega) (by omega) mem value
      · have three : i = 3 := by
          by_contra other
          exact heap.slots_apart (by omega) (by omega) other mem entry
        subst two
        exact entries (noEntry three r memR marked₀)

/-- Without references from values to lists and from lists to entries the sweep is
exact. -/
theorem sweptExactly (heap : GcHeap g chains) (closed : ClosedMarks g chains)
    (noList : NoValueList chains g) (noEntry : NoListEntry chains g) :
    SweptExactly chains g (aklGcSweep Objects.gcMark g) := by
  intro i bound x mem
  have usedBefore : (passes g.objects chains g.bits i).used x = g.inUse x :=
    heap.passes_used_other (b := g.bits) (m := 0) (by omega) mem (Nat.zero_le i) (by omega)
      (Or.inl (Nat.le_refl i))
  have marksBefore := closed.passes_marks_eq heap noList bound mem (Nat.le_refl i)
    fun _ => noEntry
  have nodup : (slots (chains i)).Nodup := nodup_slots (heap.walk i (by omega)).nodup
  have exact := visitAll_exact (b := passes g.objects chains g.bits i) nodup mem
    (g.objects.mem_foot_self bound x) (by
      intro r memR ne marked touched
      have marked₀ : g.objects.gcMark r = true :=
        GcHeap.passes_marks_le (b := g.bits) (Nat.zero_le i) marked
      rcases closed.mem_foot noList memR marked₀ touched with own | ⟨notValue, value⟩ |
          ⟨two, entries, -⟩
      · exact ne own.symm
      · exact heap.slots_apart (by omega) (by decide) notValue mem value
      · subst two
        exact entries (noEntry r memR marked₀))
  rw [usedBefore, marksBefore] at exact
  have finalBits := heap.sweep_passes
  constructor
  · have usedAfter := heap.passes_used_other (b := g.bits) (o := g.objects) (m := i + 1)
      (n := 6) (by omega) mem (by omega) (Nat.le_refl 6) (Or.inr (Nat.lt_succ_self i))
    show (aklGcSweep Objects.gcMark g).bits.used x = _
    rw [finalBits, usedAfter]
    exact exact.1
  · show (aklGcSweep Objects.gcMark g).bits.marks x = false
    rw [finalBits]
    cases marked : (passes g.objects chains g.bits 6).marks x with
    | false => rfl
    | true =>
        have after : (passes g.objects chains g.bits (i + 1)).marks x = true :=
          GcHeap.passes_marks_le (by omega) marked
        rw [passes, exact.2, Bool.and_eq_true, Bool.not_eq_true'] at after
        rw [closed.inUse i bound x mem after.1] at after
        cases after.2

/-- An object whose mark is gone when its type is swept is freed. -/
theorem freed (heap : GcHeap g chains) {i : Nat} {x : Ref} (bound : i < 6)
    (mem : x ∈ slots (chains i)) (unmarked : (passes g.objects chains g.bits i).marks x = false) :
    (aklGcSweep Objects.gcMark g).inUse x = false := by
  show (aklGcSweep Objects.gcMark g).bits.used x = false
  rw [heap.sweep_passes]
  have free : (passes g.objects chains g.bits (i + 1)).used x = false := visitAll_frees mem unmarked
  cases used : (passes g.objects chains g.bits 6).used x with
  | false => rfl
  | true =>
      rw [GcHeap.passes_used_le (by omega) used] at free
      cases free

/-- A marked value with a list costs the list. -/
theorem noValueList (heap : GcHeap g chains) (closed : ClosedMarks g chains)
    (exact : SweptExactly chains g (aklGcSweep Objects.gcMark g)) : NoValueList chains g := by
  intro r mem marked
  cases listEq : g.objects.vaList r with
  | none => rfl
  | some l =>
      exfalso
      obtain ⟨memL, markedL⟩ := closed.value r mem marked l listEq
      have used := closed.inUse 0 (by decide) r mem marked
      have cleared : (passes g.objects chains g.bits 1).marks l = false := by
        apply visitAll_clears (r := r) mem used marked
        · intro r' mem' ne' marked' touched
          have inFoot : r ∈ r' :: (g.objects.vaList r').toList := touched
          rw [List.mem_cons, Option.mem_toList] at inFoot
          rcases inFoot with own | isList
          · exact ne' own.symm
          · have memList := (closed.value r' mem' marked' r isList).1
            exact heap.slots_apart (by decide) (by decide) (by decide) mem memList
        · have inFoot : l ∈ r :: (g.objects.vaList r).toList := by
            rw [listEq]
            simp
          exact inFoot
      have unmarked : (passes g.objects chains g.bits 2).marks l = false := by
        cases later : (passes g.objects chains g.bits 2).marks l with
        | false => rfl
        | true =>
            rw [GcHeap.passes_marks_le (by decide : 1 ≤ 2) later] at cleared
            cases cleared
      have gone := freed heap (by decide) memL unmarked
      rw [(exact 2 (by decide) l memL).1, markedL,
        closed.inUse 2 (by decide) l memL markedL] at gone
      cases gone

/-- A marked list with an entry costs the entry. -/
theorem noListEntry (heap : GcHeap g chains) (closed : ClosedMarks g chains)
    (noList : NoValueList chains g)
    (exact : SweptExactly chains g (aklGcSweep Objects.gcMark g)) : NoListEntry chains g := by
  intro r mem marked
  cases entriesEq : g.objects.liEntries r with
  | nil => rfl
  | cons e es =>
      exfalso
      have memEntries : e ∈ g.objects.liEntries r := by
        rw [entriesEq]
        exact List.mem_cons_self
      obtain ⟨memE, markedE⟩ := closed.list r mem marked e memEntries
      have usedBefore : (passes g.objects chains g.bits 2).used r = g.inUse r :=
        heap.passes_used_other (b := g.bits) (m := 0) (by decide) mem (by decide) (by decide)
          (Or.inl (Nat.le_refl 2))
      have marksBefore := closed.passes_marks_eq heap noList (by decide) mem (Nat.le_refl 2)
        fun equal => absurd equal (by decide)
      have unmarked : (passes g.objects chains g.bits 3).marks e = false := by
        apply visitAll_clears (r := r) mem
        · rw [usedBefore]
          exact closed.inUse 2 (by decide) r mem marked
        · rw [marksBefore, marked]
        · intro r' mem' ne' marked' touched
          have marked₀ : g.objects.gcMark r' = true :=
            GcHeap.passes_marks_le (b := g.bits) (Nat.zero_le 2) marked'
          rcases closed.mem_foot noList mem' marked₀ touched with own | ⟨-, value⟩ |
              ⟨-, -, entry⟩
          · exact ne' own.symm
          · exact heap.slots_apart (by decide) (by decide) (by decide) mem value
          · exact heap.slots_apart (by decide) (by decide) (by decide) mem entry
        · have inFoot : e ∈ g.objects.listFoot r := by
            rw [Objects.listFoot, List.mem_cons, List.mem_flatMap]
            exact Or.inr ⟨e, memEntries, g.objects.mem_foot_self (i := 3) (by decide) e⟩
          exact inFoot
      have gone := freed heap (by decide) memE unmarked
      rw [(exact 3 (by decide) e memE).1, markedE,
        closed.inUse 3 (by decide) e memE markedE] at gone
      cases gone

end ClosedMarks

/-- A sweep keeps exactly the marked objects if and only if no marked value refers
to a list and no marked list has an entry. -/
theorem sweep_keeps_marked {g : GcState Objects} {chains : Nat → List Addr}
    (heap : GcHeap g chains) (closed : ClosedMarks g chains) :
    SweptExactly chains g (aklGcSweep Objects.gcMark g) ↔
      NoValueList chains g ∧ NoListEntry chains g := by
  constructor
  · intro exact
    have noList := ClosedMarks.noValueList heap closed exact
    exact ⟨noList, ClosedMarks.noListEntry heap closed noList exact⟩
  · rintro ⟨noList, noEntry⟩
    exact ClosedMarks.sweptExactly heap closed noList noEntry

/-- Two values in pool 0 and two empty lists in pool 1, all in use.  Those in slot 0 are marked,
and this value refers to the given list. -/
def valueAndList (list : Option Ref) : GcState Objects where
  useGc := true
  aiGcLastWasMark := false
  aiGcTypes i :=
    { gtMarkerFn := baseTypeMarkers[i]?
      gtPoolLast := if i = 0 then some 0 else if i = 2 then some 1 else none
      gtPoolCount := if i = 0 ∨ i = 2 then 1 else 0
      gtPoolHead := if i = 0 then some 0 else if i = 2 then some 1 else none }
  aiGcTypesCount := 6
  pools _ := ⟨2, none, fun word => if word = 0 then 3 else 0⟩
  top := 2
  objects :=
    { gcMark := fun r => r.slot = 0
      vaList := fun _ => list
      vrValue := fun _ => none
      liEntries := fun _ => []
      gcLeIsObj := fun _ => false
      leData := fun _ => none }

/-- Its pools. -/
def valueAndListChains (i : Nat) : List Addr :=
  if i = 0 then [0] else if i = 2 then [1] else []

theorem valueAndList_heap (list : Option Ref) :
    GcHeap (valueAndList list) valueAndListChains where
  on := rfl
  types := rfl
  markers := fun _ _ => rfl
  walk := by
    intro i _
    simp only [valueAndList, valueAndListChains]
    by_cases isValue : i = 0
    · simp [isValue]
    · by_cases isList : i = 2
      · simp [isList]
      · simp [isValue, isList]
  below := by
    intro i _ a mem
    simp only [valueAndListChains] at mem
    split at mem
    · rw [List.mem_singleton.mp mem]
      exact Nat.zero_lt_two
    · split at mem
      · rw [List.mem_singleton.mp mem]
        exact Nat.one_lt_two
      · cases mem
  apart := by
    intro i _ j _ ne a memI memJ
    simp only [valueAndListChains] at memI memJ
    split at memI
    · split at memJ
      · omega
      · split at memJ
        · rw [List.mem_singleton] at memI memJ
          exact absurd (memI.symm.trans memJ) (by decide)
        · cases memJ
    · split at memI
      · split at memJ
        · rw [List.mem_singleton] at memI memJ
          exact absurd (memI.symm.trans memJ) (by decide)
        · split at memJ
          · omega
          · cases memJ
      · cases memI

theorem valueAndList_closed {list : Option Ref}
    (isList : ∀ l, list = some l → l = ⟨1, 0⟩) :
    ClosedMarks (valueAndList list) valueAndListChains where
  inUse := by
    intro i _ r _ marked
    have slot : r.slot = 0 := of_decide_eq_true marked
    rw [GcState.inUse, slot]
    show aklGcPoolInUse ⟨2, none, fun word => if word = 0 then 3 else 0⟩ 0 = true
    decide
  value := by
    intro r _ _ l listEq
    rw [isList l listEq]
    exact ⟨mem_slots.mpr ⟨by decide, by decide⟩, rfl⟩
  var := by
    intro r _ _ v equal
    cases equal
  list := by
    intro r _ _ e mem
    cases mem
  entry := by
    intro r _ _ isObj
    cases isObj

/-- Without the reference the sweep frees the two slots that are not marked and keeps the
others; with it, it does not do so. -/
theorem sweep_keeps_marked_apart :
    (SweptExactly valueAndListChains (valueAndList none)
        (aklGcSweep Objects.gcMark (valueAndList none)) ∧
      (aklGcSweep Objects.gcMark (valueAndList none)).inUse ⟨0, 1⟩ = false ∧
      (aklGcSweep Objects.gcMark (valueAndList none)).inUse ⟨1, 0⟩ = true) ∧
    ¬ SweptExactly valueAndListChains (valueAndList (some ⟨1, 0⟩))
      (aklGcSweep Objects.gcMark (valueAndList (some ⟨1, 0⟩))) := by
  have closed : ClosedMarks (valueAndList none) valueAndListChains :=
    valueAndList_closed fun l isList => by cases isList
  have kept := (sweep_keeps_marked (valueAndList_heap none) closed).mpr
    ⟨fun _ _ _ => rfl, fun _ _ _ => rfl⟩
  refine ⟨⟨kept, ?_, ?_⟩, ?_⟩
  · exact (kept 0 (by decide) ⟨0, 1⟩ (mem_slots.mpr ⟨by decide, by decide⟩)).1.trans (by decide)
  · exact (kept 2 (by decide) ⟨1, 0⟩ (mem_slots.mpr ⟨by decide, by decide⟩)).1.trans (by decide)
  · have closed' : ClosedMarks (valueAndList (some ⟨1, 0⟩)) valueAndListChains :=
      valueAndList_closed fun l isList => (Option.some.inj isList).symm
    intro exact
    have noList := ((sweep_keeps_marked (valueAndList_heap _) closed').mp exact).1 ⟨0, 0⟩
      (mem_slots.mpr ⟨by decide, by decide⟩) rfl
    cases noList

/-- With it the list is lost, although it is marked. -/
theorem sweep_loses_list :
    GcHeap (valueAndList (some ⟨1, 0⟩)) valueAndListChains ∧
      ClosedMarks (valueAndList (some ⟨1, 0⟩)) valueAndListChains ∧
      ¬ SweptExactly valueAndListChains (valueAndList (some ⟨1, 0⟩))
        (aklGcSweep Objects.gcMark (valueAndList (some ⟨1, 0⟩))) := by
  refine ⟨valueAndList_heap _, valueAndList_closed ?_, ?_⟩
  · intro l isList
    cases isList
    rfl
  · intro exact
    have kept := (exact 2 (by decide) ⟨1, 0⟩ (mem_slots.mpr ⟨by decide, by decide⟩)).1
    have lost : (aklGcSweep Objects.gcMark (valueAndList (some ⟨1, 0⟩))).inUse ⟨1, 0⟩ = false := by
      decide +kernel
    rw [lost] at kept
    exact absurd kept (by decide +kernel)

end AkLisp
