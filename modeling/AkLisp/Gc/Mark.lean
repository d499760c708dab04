import AkLisp.Gc.Sweep
import Mathlib.Logic.Relation

/-!
# What marking an object reaches

`akl_gc_mark_object` calls the marker of the object's type.  The markers of
lists, entries and variables call the ones of what they refer to, but the marker
of a value only sets the mark of its list: the entries of that list are left to
whoever marks the list itself.
-/

namespace AkLisp

open Linked Objects

/-- The objects are values, variables, lists and list entries by their type ids,
which are the indices of `base_type_markers`. -/
structure WellTyped (o : Objects) (gcTypeId : Ref → Nat) : Prop where
  value : ∀ r, gcTypeId r = 0 → ∀ l, o.vaList r = some l → gcTypeId l = 2
  var : ∀ r, gcTypeId r = 1 → ∀ v, o.vrValue r = some (.at v) → gcTypeId v = 0
  list : ∀ r, gcTypeId r = 2 → ∀ e ∈ o.liEntries r, gcTypeId e = 3
  entry : ∀ r, gcTypeId r = 3 → o.gcLeIsObj r = true →
    ∀ v, o.leData r = some (.at v) → gcTypeId v = 0

/-- `akl_gc_mark_object`. -/
def aklGcMarkObject (gcTypeId : Ref → Nat) (obj : Ref) (m : Bool) (o : Objects) : Objects :=
  match baseTypeMarkers[gcTypeId obj]? with
  | none => o
  | some marker => marker obj m o

/-- The references between objects: of a variable to its value, of a value to its
list, of a list to its entries, and of an entry to its value. -/
inductive Refers (o : Objects) (gcTypeId : Ref → Nat) : Ref → Ref → Prop
  | value {r l : Ref} (type : gcTypeId r = 0) (list : o.vaList r = some l) :
      Refers o gcTypeId r l
  | var {r v : Ref} (type : gcTypeId r = 1) (value : o.vrValue r = some (.at v)) :
      Refers o gcTypeId r v
  | list {r e : Ref} (type : gcTypeId r = 2) (entry : e ∈ o.liEntries r) : Refers o gcTypeId r e
  | entry {r v : Ref} (type : gcTypeId r = 3) (isObj : o.gcLeIsObj r = true)
      (data : o.leData r = some (.at v)) : Refers o gcTypeId r v

/-- One object is reachable from another one. -/
def Reachable (o : Objects) (gcTypeId : Ref → Nat) : Ref → Ref → Prop :=
  Relation.ReflTransGen (Refers o gcTypeId)

/-- The objects the markers visit from `obj`. -/
def visited (o : Objects) (gcTypeId : Ref → Nat) (obj : Ref) : List Ref :=
  o.foot (gcTypeId obj) obj

/-- `e` is an entry of the list of a visited value. -/
def EntryOfVisited (o : Objects) (gcTypeId : Ref → Nat) (obj e : Ref) : Prop :=
  ∃ v ∈ visited o gcTypeId obj, gcTypeId v = 0 ∧ ∃ l, o.vaList v = some l ∧ e ∈ o.liEntries l

/-- Whatever lies below the entries of the list of a visited value is marked
before or visited itself. -/
def MarkedBelowValues (o : Objects) (gcTypeId : Ref → Nat) (obj : Ref) : Prop :=
  ∀ e, EntryOfVisited o gcTypeId obj e → ∀ x, Reachable o gcTypeId e x →
    o.gcMark x = true ∨ x ∈ visited o gcTypeId obj

section Mark

variable {o : Objects} {gcTypeId : Ref → Nat} {obj x y : Ref}

/-- The visited objects are marked afterwards, and no others come to be marked. -/
theorem aklGcMarkObject_marks (known : gcTypeId obj < 4) :
    (aklGcMarkObject gcTypeId obj true o).gcMark x = true ↔
      o.gcMark x = true ∨ x ∈ visited o gcTypeId obj := by
  obtain ⟨marker, isMarker⟩ : ∃ marker, baseTypeMarkers[gcTypeId obj]? = some marker := by
    match gcTypeId obj, known with
    | 0, _ => exact ⟨_, rfl⟩
    | 1, _ => exact ⟨_, rfl⟩
    | 2, _ => exact ⟨_, rfl⟩
    | 3, _ => exact ⟨_, rfl⟩
  have remarked := remarked_foot isMarker true o obj
  rw [aklGcMarkObject, isMarker]
  dsimp only
  rw [remarked, visited]
  by_cases touched : x ∈ o.foot (gcTypeId obj) obj
  · simp [touched]
  · simp [touched]

/-! ## Visited objects and reachable ones -/

theorem mem_valueFoot_at {v : Ref} : x ∈ o.valueFoot (.at v) ↔ x = v ∨ o.vaList v = some x := by
  simp [valueFoot]

theorem mem_optional_valueFoot {v : Option ValuePtr} :
    x ∈ (v.map o.valueFoot).getD [] ↔ ∃ w, v = some (.at w) ∧ x ∈ o.valueFoot (.at w) := by
  cases v with
  | none => simp
  | some v =>
      cases v with
      | nilValue => simp [valueFoot]
      | trueValue => simp [valueFoot]
      | «at» w => simp

theorem mem_entryFoot_iff {e : Ref} : x ∈ o.entryFoot e ↔
    x = e ∨ (o.gcLeIsObj e = true ∧ ∃ v, o.leData e = some (.at v) ∧ x ∈ o.valueFoot (.at v)) := by
  rw [entryFoot, List.mem_cons]
  cases o.gcLeIsObj e with
  | false => simp
  | true => rw [if_pos rfl, mem_optional_valueFoot]; simp

theorem mem_variableFoot_iff {r : Ref} : x ∈ o.variableFoot r ↔
    x = r ∨ ∃ v, o.vrValue r = some (.at v) ∧ x ∈ o.valueFoot (.at v) := by
  rw [variableFoot, List.mem_cons, mem_optional_valueFoot]

theorem mem_listFoot_iff {l : Ref} :
    x ∈ o.listFoot l ↔ x = l ∨ ∃ e ∈ o.liEntries l, x ∈ o.entryFoot e := by
  rw [listFoot, List.mem_cons, List.mem_flatMap]

/-! ### What is visited is reachable -/

theorem reaches_value {v : Ref} (type : gcTypeId v = 0) (mem : x ∈ o.valueFoot (.at v)) :
    Reachable o gcTypeId v x := by
  rcases mem_valueFoot_at.mp mem with rfl | list
  · exact .refl
  · exact .single (.value type list)

theorem reaches_entry (typed : WellTyped o gcTypeId) {e : Ref} (type : gcTypeId e = 3)
    (mem : x ∈ o.entryFoot e) : Reachable o gcTypeId e x := by
  rcases mem_entryFoot_iff.mp mem with rfl | ⟨isObj, v, data, inner⟩
  · exact .refl
  · apply Relation.ReflTransGen.head (.entry type isObj data)
    exact reaches_value (typed.entry e type isObj v data) inner

/-- What is visited is reachable. -/
theorem reaches_visited (typed : WellTyped o gcTypeId) (known : gcTypeId obj < 4)
    (mem : x ∈ visited o gcTypeId obj) : Reachable o gcTypeId obj x := by
  unfold visited at mem
  obtain type | type | type | type :
      gcTypeId obj = 0 ∨ gcTypeId obj = 1 ∨ gcTypeId obj = 2 ∨ gcTypeId obj = 3 := by omega
  · rw [type] at mem
    exact reaches_value type mem
  · rw [type] at mem
    rcases mem_variableFoot_iff.mp mem with rfl | ⟨v, value, inner⟩
    · exact .refl
    · apply Relation.ReflTransGen.head (.var type value)
      exact reaches_value (typed.var obj type v value) inner
  · rw [type] at mem
    rcases mem_listFoot_iff.mp mem with rfl | ⟨e, entry, inner⟩
    · exact .refl
    · apply Relation.ReflTransGen.head (.list type entry)
      exact reaches_entry typed (typed.list obj type e entry) inner
  · rw [type] at mem
    exact reaches_entry typed type mem

/-! ### What a visited object refers to -/

/-- From a value, to its list, and from there to the entries of the list. -/
theorem refers_value (typed : WellTyped o gcTypeId) {v : Ref} (type : gcTypeId v = 0)
    (mem : x ∈ o.valueFoot (.at v)) (refers : Refers o gcTypeId x y) :
    y ∈ o.valueFoot (.at v) ∨ (o.vaList v = some x ∧ y ∈ o.liEntries x) := by
  rcases mem_valueFoot_at.mp mem with rfl | list
  · cases refers with
    | value _ list => exact Or.inl (mem_valueFoot_at.mpr (Or.inr list))
    | var isVar _ => rw [type] at isVar; cases isVar
    | list isList _ => rw [type] at isList; cases isList
    | entry isEntry _ _ => rw [type] at isEntry; cases isEntry
  · have listType := typed.value v type x list
    cases refers with
    | value isValue _ => rw [listType] at isValue; cases isValue
    | var isVar _ => rw [listType] at isVar; cases isVar
    | list _ entry => exact Or.inr ⟨list, entry⟩
    | entry isEntry _ _ => rw [listType] at isEntry; cases isEntry

/-- From an entry, to its value and on from there. -/
theorem refers_entry (typed : WellTyped o gcTypeId) {e : Ref} (type : gcTypeId e = 3)
    (mem : x ∈ o.entryFoot e) (refers : Refers o gcTypeId x y) :
    y ∈ o.entryFoot e ∨ ∃ v ∈ o.entryFoot e, gcTypeId v = 0 ∧ o.vaList v = some x ∧
      y ∈ o.liEntries x := by
  rcases mem_entryFoot_iff.mp mem with rfl | ⟨isObj, v, data, inner⟩
  · cases refers with
    | value isValue _ => rw [type] at isValue; cases isValue
    | var isVar _ => rw [type] at isVar; cases isVar
    | list isList _ => rw [type] at isList; cases isList
    | entry _ isObj data =>
        exact Or.inl (mem_entryFoot_iff.mpr
          (Or.inr ⟨isObj, y, data, mem_valueFoot_at.mpr (Or.inl rfl)⟩))
  · have valueType := typed.entry e type isObj v data
    have visitedToo : ∀ z, z ∈ o.valueFoot (.at v) → z ∈ o.entryFoot e :=
      fun z mem => mem_entryFoot_iff.mpr (Or.inr ⟨isObj, v, data, mem⟩)
    rcases refers_value typed valueType inner refers with here | ⟨list, entry⟩
    · exact Or.inl (visitedToo y here)
    · exact Or.inr ⟨v, visitedToo v (mem_valueFoot_at.mpr (Or.inl rfl)), valueType, list, entry⟩

/-- What a visited object refers to is visited, or an entry of the list of a
visited value. -/
theorem refers_visited (typed : WellTyped o gcTypeId) (known : gcTypeId obj < 4)
    (mem : x ∈ visited o gcTypeId obj) (refers : Refers o gcTypeId x y) :
    y ∈ visited o gcTypeId obj ∨ EntryOfVisited o gcTypeId obj y := by
  unfold EntryOfVisited
  unfold visited at *
  obtain type | type | type | type :
      gcTypeId obj = 0 ∨ gcTypeId obj = 1 ∨ gcTypeId obj = 2 ∨ gcTypeId obj = 3 := by omega
  · rw [type] at mem ⊢
    rcases refers_value typed type mem refers with here | ⟨list, entry⟩
    · exact Or.inl here
    · exact Or.inr ⟨obj, mem_valueFoot_at.mpr (Or.inl rfl), type, x, list, entry⟩
  · rw [type] at mem ⊢
    rcases mem_variableFoot_iff.mp mem with rfl | ⟨v, value, inner⟩
    · cases refers with
      | value isValue _ => rw [type] at isValue; cases isValue
      | var _ value =>
          exact Or.inl (mem_variableFoot_iff.mpr
            (Or.inr ⟨y, value, mem_valueFoot_at.mpr (Or.inl rfl)⟩))
      | list isList _ => rw [type] at isList; cases isList
      | entry isEntry _ _ => rw [type] at isEntry; cases isEntry
    · have valueType := typed.var obj type v value
      have visitedToo : ∀ z, z ∈ o.valueFoot (.at v) → z ∈ o.variableFoot obj :=
        fun z mem => mem_variableFoot_iff.mpr (Or.inr ⟨v, value, mem⟩)
      rcases refers_value typed valueType inner refers with here | ⟨list, entry⟩
      · exact Or.inl (visitedToo y here)
      · exact Or.inr ⟨v, visitedToo v (mem_valueFoot_at.mpr (Or.inl rfl)), valueType, x, list,
          entry⟩
  · rw [type] at mem ⊢
    rcases mem_listFoot_iff.mp mem with rfl | ⟨e, entry, inner⟩
    · cases refers with
      | value isValue _ => rw [type] at isValue; cases isValue
      | var isVar _ => rw [type] at isVar; cases isVar
      | list _ entry =>
          exact Or.inl (mem_listFoot_iff.mpr
            (Or.inr ⟨y, entry, mem_entryFoot_iff.mpr (Or.inl rfl)⟩))
      | entry isEntry _ _ => rw [type] at isEntry; cases isEntry
    · have entryType := typed.list obj type e entry
      have visitedToo : ∀ z, z ∈ o.entryFoot e → z ∈ o.listFoot obj :=
        fun z mem => mem_listFoot_iff.mpr (Or.inr ⟨e, entry, mem⟩)
      rcases refers_entry typed entryType inner refers with here | ⟨v, visited, valueType, rest⟩
      · exact Or.inl (visitedToo y here)
      · exact Or.inr ⟨v, visitedToo v visited, valueType, x, rest⟩
  · rw [type] at mem ⊢
    rcases refers_entry typed type mem refers with here | ⟨v, visited, valueType, rest⟩
    · exact Or.inl here
    · exact Or.inr ⟨v, visited, valueType, x, rest⟩

/-- What is reachable is visited, or reachable from an entry of the list of a
visited value. -/
theorem visited_or_below (typed : WellTyped o gcTypeId) (known : gcTypeId obj < 4)
    (reaches : Reachable o gcTypeId obj x) :
    x ∈ visited o gcTypeId obj ∨
      ∃ e, EntryOfVisited o gcTypeId obj e ∧ Reachable o gcTypeId e x := by
  induction reaches with
  | refl => exact Or.inl (mem_foot_self o known obj)
  | tail _ refers ih =>
      rcases ih with mem | ⟨e, entry, below⟩
      · rcases refers_visited typed known mem refers with here | entry
        · exact Or.inl here
        · exact Or.inr ⟨_, entry, .refl⟩
      · exact Or.inr ⟨e, entry, below.tail refers⟩

/-- Marking an object marks everything reachable from it exactly when whatever lies
below the list of a visited value is marked already or visited as well. -/
theorem mark_object_transitive_iff (typed : WellTyped o gcTypeId) (known : gcTypeId obj < 4) :
    (∀ x, Reachable o gcTypeId obj x → (aklGcMarkObject gcTypeId obj true o).gcMark x = true) ↔
      MarkedBelowValues o gcTypeId obj := by
  constructor
  · intro marks e entry x below
    obtain ⟨v, mem, type, l, list, inList⟩ := entry
    have toEntry : Reachable o gcTypeId obj e :=
      ((reaches_visited typed known mem).tail (.value type list)).tail
        (.list (typed.value v type l list) inList)
    exact (aklGcMarkObject_marks known).mp (marks x (toEntry.trans below))
  · intro below x reaches
    apply (aklGcMarkObject_marks known).mpr
    rcases visited_or_below typed known reaches with mem | ⟨e, entry, fromEntry⟩
    · exact Or.inr mem
    · exact below e entry x fromEntry

end Mark

/-- A variable with the value `(1)`: the objects of each type are those of one
pool. -/
def variableOfList : Objects where
  gcMark := fun _ => false
  vaList := fun r => if r = ⟨0, 0⟩ then some ⟨2, 0⟩ else none
  vrValue := fun r => if r = ⟨1, 0⟩ then some (.at ⟨0, 0⟩) else none
  liEntries := fun r => if r = ⟨2, 0⟩ then [⟨3, 0⟩] else []
  gcLeIsObj := fun r => r == ⟨3, 0⟩
  leData := fun r => if r = ⟨3, 0⟩ then some (.at ⟨0, 1⟩) else none

theorem variableOfList_typed : WellTyped variableOfList Ref.pool := by
  constructor
  · intro r _ l list
    simp only [variableOfList, Option.ite_none_right_eq_some] at list
    rw [← Option.some.inj list.2]
  · intro r _ v value
    simp only [variableOfList, Option.ite_none_right_eq_some] at value
    injection Option.some.inj value.2 with same
    rw [← same]
  · intro r _ e entry
    simp only [variableOfList] at entry
    split at entry
    · rw [List.mem_singleton.mp entry]
    · cases entry
  · intro r _ _ v data
    simp only [variableOfList, Option.ite_none_right_eq_some] at data
    injection Option.some.inj data.2 with same
    rw [← same]

/-- Marking the list itself marks its entry. -/
theorem mark_object_transitive_list :
    (aklGcMarkObject Ref.pool ⟨2, 0⟩ true variableOfList).gcMark ⟨3, 0⟩ = true := by
  apply (mark_object_transitive_iff variableOfList_typed (by decide)).mpr
  · rintro e ⟨v, mem, -, l, list, -⟩
    simp only [variableOfList, Option.ite_none_right_eq_some] at list
    rw [list.1] at mem
    exact absurd mem (by decide)
  · exact .single (.list rfl (by decide))

/-- Marking the variable leaves the entry of its list unmarked. -/
theorem mark_object_stops_at_list :
    ¬ ∀ x, Reachable variableOfList Ref.pool ⟨1, 0⟩ x →
      (aklGcMarkObject Ref.pool ⟨1, 0⟩ true variableOfList).gcMark x = true := by
  intro marks
  have reaches : Reachable variableOfList Ref.pool ⟨1, 0⟩ ⟨3, 0⟩ := by
    apply Relation.ReflTransGen.head (.var (v := ⟨0, 0⟩) rfl rfl)
    apply Relation.ReflTransGen.head (.value (l := ⟨2, 0⟩) rfl rfl)
    exact .single (.list rfl (by decide))
  exact absurd (marks _ reaches) (by decide)

end AkLisp
