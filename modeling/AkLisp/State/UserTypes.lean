import AkLisp.Memory.Pointer
import AkLisp.Vector.Stack
import Mathlib.Data.List.Nodup

/-!
# User types

`akl_register_type` keeps a record for each type in a vector.  The vector was made for
pointers, so that its slots have a third of the size of a record: a record ends in the second
slot behind its own, where the name of the next but one is.  The identifier that is returned is
the number of types, the one that is looked up is the index.
-/

namespace AkLisp

open Memory

/-- Where `ut_name` is in `struct akl_utype`. -/
def utNameOffset : Nat := 0

/-- Where `ut_de_fun` is, behind `ut_id` and its padding. -/
def utDeFunOffset : Nat := 16

/-- A type to register: the pointers to its name and to its destructor. -/
structure UserType where
  utName : UInt64
  utDeFun : UInt64
  deriving DecidableEq

/-- The vector `ai_utypes` behind `akl_init_state`. -/
def initUtypes : AklVector := aklInitVector 5 pointerSize

namespace AklVector

/-- A pointer is written to a member of the record at `ptr`. -/
def setField (vec : AklVector) (ptr : Option Nat) (off : Nat) (p : UInt64) :
    Except VectorFault AklVector :=
  vec.memcpy (ptr.map (· + off)) ((pointerBytes p).map some) pointerSize.toNat

/-- A member of the record at `ptr` that is a pointer. -/
def field (vec : AklVector) (ptr : Option Nat) (off : Nat) : Option UInt64 :=
  ptr.bind fun start => readPointer (vec.avVector.load (start + off) pointerSize.toNat)

end AklVector

/-- `akl_register_type` -/
def aklRegisterType (utypes : AklVector) (name deFun : UInt64) :
    Except VectorFault (UInt32 × AklVector) := do
  let (type, utypes) := aklVectorReserve utypes
  let utypes ← utypes.setField type utNameOffset name
  let utypes ← utypes.setField type utDeFunOffset deFun
  return (utypes.avCount, utypes)

/-- `utype_finder_name`, where `text` gives the characters that a pointer leads to; of the result
of `strcmp` it only matters whether it is 0. -/
def utypeFinderName (text : UInt64 → List UInt8) (name : UInt64) (t : Option (Block UInt8)) : Int :=
  match t.bind readPointer with
  | some utName => if text utName = text name then 0 else 1
  | none => 1

/-- `akl_get_typeid` -/
def aklGetTypeid (text : UInt64 → List UInt8) (utypes : AklVector) (tname : UInt64) : Int :=
  (aklVectorFind utypes (utypeFinderName text tname)).2

/-- Types are registered one after the other. -/
def registerAll : List UserType → AklVector → Except VectorFault (List UInt32 × AklVector)
  | [], utypes => return ([], utypes)
  | type :: types, utypes => do
      let (id, utypes) ← aklRegisterType utypes type.utName type.utDeFun
      let (ids, utypes) ← registerAll types utypes
      return (id :: ids, utypes)

/-- The registry keeps what was registered. -/
def KeepsTypes (text : UInt64 → List UInt8) (types : List UserType) : Prop :=
  ∃ ids utypes, registerAll types initUtypes = .ok (ids, utypes) ∧ ids.length = types.length ∧
    ids.Nodup ∧ ∀ (i : Nat) (id : UInt32) (type : UserType), ids[i]? = some id →
      types[i]? = some type →
      (id.toNat : Int) = aklGetTypeid text utypes type.utName ∧
        utypes.field (aklVectorAt utypes id) utNameOffset = some type.utName ∧
        utypes.field (aklVectorAt utypes id) utDeFunOffset = some type.utDeFun

/-! ### One registration -/

namespace AklVector

variable {vec : AklVector} {names : List (List UInt8)}

/-- Writing behind the elements keeps them. -/
theorem IsStack.stored (stack : vec.IsStack names) {off : Nat} {data : Block UInt8}
    (room : off + data.length ≤ vec.avVector.length)
    (behind : names.length * vec.avMsize.toNat ≤ off) :
    (vec.stored off data).IsStack names where
  holds :=
    { count := stack.holds.count
      room := stack.holds.room
      length := (Block.length_store room).trans stack.holds.length
      below := stack.holds.below
      positive := stack.holds.positive
      slots := (Slots.store_behind_iff room behind).mpr stack.holds.slots }
  spare := stack.spare
  several := stack.several

/-- While the vector has its first five slots it does not grow: the name is written to the next
slot, and then the destructor two slots behind it. -/
theorem IsStack.registerName (stack : vec.IsStack names) (five : vec.avSize = 5)
    (pointers : vec.avMsize = pointerSize) (few : names.length ≤ 3) (name deFun : UInt64) :
    ∃ vec₁ : AklVector, vec₁.Holds (names ++ [pointerBytes name]) ∧ vec₁.avSize = 5 ∧
      vec₁.avMsize = pointerSize ∧ vec₁.avCount = UInt32.ofNat (names.length + 1) ∧
      aklRegisterType vec name deFun =
        (vec₁.memcpy (some (names.length * 8 + 16)) ((pointerBytes deFun).map some) 8).map
          fun vec' => (vec'.avCount, vec') := by
  have sizeEq : vec.avSize.toNat = 5 := congrArg UInt32.toNat five
  have msizeEq : vec.avMsize.toNat = 8 := congrArg UInt32.toNat pointers
  have enough : ¬ aklVectorIsGrowNeed vec = true := by
    rw [stack.growNeed_iff, sizeEq]
    omega
  have readyEq : vec.ready = vec := by rw [ready, if_neg enough]
  have fits : vec.Fits := fun need => absurd need enough
  have spare : names.length < vec.avSize.toNat := stack.spare
  have size : (pointerBytes name).length = vec.avMsize.toNat := by
    rw [length_pointerBytes, msizeEq]
  obtain ⟨vec₁, written, holds₁, sizeEq₁, msizeEq₁, countEq₁, -⟩ := stack.holds.write spare size
  have reserved := stack.holds.reserve fits (by rwa [readyEq])
  rw [readyEq, msizeEq] at reserved
  rw [msizeEq] at written
  have first : vec.taken.setField (some (names.length * 8)) utNameOffset name = .ok vec₁ := written
  refine ⟨vec₁, holds₁, sizeEq₁.trans five, msizeEq₁.trans pointers, ?_, ?_⟩
  · rw [countEq₁, taken, stack.holds.count_eq, UInt32.ofNat_add]
    rfl
  · rw [aklRegisterType, reserved]
    show ((vec.taken.setField (some (names.length * 8)) utNameOffset name).bind fun vec =>
      (vec.setField (some (names.length * 8)) utDeFunOffset deFun).bind fun vec =>
        .ok (vec.avCount, vec)) = _
    rw [first]
    rfl

/-- The record of the next type fits if there are not three types. -/
theorem IsStack.register (stack : vec.IsStack names) (five : vec.avSize = 5)
    (pointers : vec.avMsize = pointerSize) (few : names.length ≤ 3) (name deFun : UInt64) :
    if names.length < 3 then
      ∃ vec', aklRegisterType vec name deFun = .ok (UInt32.ofNat (names.length + 1), vec') ∧
        vec'.IsStack (names ++ [pointerBytes name]) ∧ vec'.avSize = 5 ∧
        vec'.avMsize = pointerSize
    else aklRegisterType vec name deFun = .error .outside := by
  obtain ⟨vec₁, holds₁, five₁, pointers₁, countEq, registered⟩ :=
    stack.registerName five pointers few name deFun
  have sizeEq : vec₁.avSize.toNat = 5 := congrArg UInt32.toNat five₁
  have msizeEq : vec₁.avMsize.toNat = 8 := congrArg UInt32.toNat pointers₁
  have lengthEq : vec₁.avVector.length = 40 := by rw [holds₁.length, sizeEq, msizeEq]
  have bytes : ((pointerBytes deFun).map some).length = 8 := by
    rw [List.length_map, length_pointerBytes]
  rw [registered]
  split
  · next room =>
      have inside : names.length * 8 + 16 + 8 ≤ vec₁.avVector.length := by omega
      have stack₁ : vec₁.IsStack (names ++ [pointerBytes name]) := by
        refine ⟨holds₁, ?_, five₁.trans five.symm ▸ stack.several⟩
        rw [List.length_append, List.length_singleton, sizeEq]
        omega
      have behind : (names ++ [pointerBytes name]).length * vec₁.avMsize.toNat ≤
          names.length * 8 + 16 := by
        rw [List.length_append, List.length_singleton, msizeEq]
        omega
      refine ⟨vec₁.stored (names.length * 8 + 16) ((pointerBytes deFun).map some), ?_,
        stack₁.stored (by rwa [bytes]) behind, five₁, pointers₁⟩
      rw [memcpy_inside (by decide) inside bytes.ge, List.take_of_length_le bytes.le, ← countEq]
      rfl
  · next full =>
      rw [memcpy_outside (by decide)]
      · rfl
      · omega

end AklVector

/-! ### Runs -/

/-- The names of the types, as they are in the slots. -/
def nameSlots (types : List UserType) : List (List UInt8) :=
  types.map fun type => pointerBytes type.utName

/-- Up to three types are registered; their identifiers count them from 1 on.  The record of the
fourth one does not fit into the block. -/
theorem registerAll_spec {vec : AklVector} {before types : List UserType}
    (stack : vec.IsStack (nameSlots before)) (five : vec.avSize = 5)
    (pointers : vec.avMsize = pointerSize) (few : before.length ≤ 3) :
    if before.length + types.length ≤ 3 then
      ∃ vec', registerAll types vec =
          .ok ((List.range' (before.length + 1) types.length).map UInt32.ofNat, vec') ∧
        vec'.IsStack (nameSlots (before ++ types))
    else registerAll types vec = .error .outside := by
  induction types generalizing vec before with
  | nil =>
      rw [List.length_nil, Nat.add_zero, if_pos few, List.append_nil]
      exact ⟨vec, rfl, stack⟩
  | cons type types ih =>
      have slotsLength : (nameSlots before).length = before.length := List.length_map _
      have registered := stack.register five pointers (slotsLength.symm ▸ few) type.utName
        type.utDeFun
      rw [slotsLength] at registered
      split at registered
      · next room =>
          obtain ⟨vec₁, first, stack₁, five₁, pointers₁⟩ := registered
          have slotsEq : nameSlots before ++ [pointerBytes type.utName] =
              nameSlots (before ++ [type]) := by rw [nameSlots, nameSlots, List.map_append]; rfl
          rw [slotsEq] at stack₁
          have lengthEq : (before ++ [type]).length = before.length + 1 := by
            rw [List.length_append, List.length_singleton]
          have rest := ih stack₁ five₁ pointers₁ (lengthEq ▸ room)
          rw [lengthEq, Nat.add_right_comm, Nat.add_assoc, ← List.length_cons (a := type)] at rest
          split at rest
          · next within =>
              obtain ⟨vec', others, stack'⟩ := rest
              rw [if_pos within]
              refine ⟨vec', ?_, by rwa [List.append_assoc] at stack'⟩
              rw [registerAll, first, List.length_cons, List.range'_succ, List.map_cons]
              show ((registerAll types vec₁).bind fun both =>
                .ok (UInt32.ofNat (before.length + 1) :: both.1, both.2)) = _
              rw [others]
              rfl
          · next beyond =>
              rw [if_neg beyond, registerAll, first]
              show ((registerAll types vec₁).bind _) = _
              rw [rest]
              rfl
      · next full =>
          rw [if_neg (by rw [List.length_cons]; omega), registerAll, registered]
          rfl

/-! ### Looking types up -/

/-- The index of a type is found under its name. -/
theorem aklGetTypeid_eq {text : UInt64 → List UInt8} {types : List UserType} {vec : AklVector}
    (stack : vec.IsStack (nameSlots types)) (few : types.length ≤ 3)
    (distinct : (types.map fun type => text type.utName).Nodup) {i : Nat} {type : UserType}
    (found : types[i]? = some type) : aklGetTypeid text vec type.utName = i := by
  obtain ⟨below, rfl⟩ := List.getElem?_eq_some_iff.mp found
  have compared (other : UserType) : AklVector.Matches (utypeFinderName text types[i].utName)
      (pointerBytes other.utName) = decide (text other.utName = text types[i].utName) := by
    rw [AklVector.Matches, utypeFinderName, Option.bind_some, readPointer_pointerBytes]
    by_cases same : text other.utName = text types[i].utName <;> simp [same]
  have first : (nameSlots types).findIdx?
      (AklVector.Matches (utypeFinderName text types[i].utName)) = some i := by
    rw [nameSlots, List.findIdx?_map, List.findIdx?_eq_some_iff_getElem]
    refine ⟨below, ?_, fun j before => ?_⟩
    · rw [Function.comp, compared, decide_eq_true rfl]
    · rw [Function.comp, compared, decide_eq_true_eq]
      intro same
      have inside : i < (types.map fun type => text type.utName).length := by
        rwa [List.length_map]
      have inside' : j < (types.map fun type => text type.utName).length := before.trans inside
      have equal : (types.map fun type => text type.utName)[j] =
          (types.map fun type => text type.utName)[i] := by
        rw [List.getElem_map, List.getElem_map, same]
      exact Nat.ne_of_lt before (distinct.getElem_inj_iff.mp equal)
  have small : i < 2 ^ 31 := by omega
  rw [aklGetTypeid, stack.holds.find_eq, first]
  exact (toInt32_index_iff (by omega)).mpr small

theorem isStack_initUtypes : initUtypes.IsStack (nameSlots []) :=
  AklVector.isStack_init (.inr (by decide)) (by decide)

/-- The identifier of the first type is 1, and its index is 0. -/
theorem not_keepsTypes_cons (text : UInt64 → List UInt8) {type : UserType} {types : List UserType}
    (distinct : ((type :: types).map fun type => text type.utName).Nodup) :
    ¬ KeepsTypes text (type :: types) := by
  rintro ⟨ids, utypes, registered, -, -, kept⟩
  have spec := @registerAll_spec initUtypes [] (type :: types) isStack_initUtypes rfl rfl
    (Nat.zero_le 3)
  split at spec
  · next few =>
      obtain ⟨utypes', registered', stack⟩ := spec
      rw [registered] at registered'
      cases registered'
      rw [List.nil_append] at stack
      have idEq := (kept 0 1 type rfl rfl).1
      rw [aklGetTypeid_eq stack (by simpa using few) distinct List.getElem?_cons_zero] at idEq
      cases idEq
  · rw [registered] at spec
    cases spec

/-- The registry keeps what was registered only where nothing was. -/
theorem keepsTypes_iff (text : UInt64 → List UInt8) {types : List UserType}
    (distinct : (types.map fun type => text type.utName).Nodup) :
    KeepsTypes text types ↔ types = [] := by
  constructor
  · intro keeps
    cases types with
    | nil => rfl
    | cons type types => exact absurd keeps (not_keepsTypes_cons text distinct)
  · rintro rfl
    exact ⟨[], initUtypes, rfl, rfl, List.nodup_nil, nofun⟩

theorem keepsTypes_two : KeepsTypes (fun p => [p.toUInt8]) [⟨1, 2⟩, ⟨3, 4⟩] ↔
    [(⟨1, 2⟩ : UserType), ⟨3, 4⟩] = [] :=
  keepsTypes_iff (fun p => [p.toUInt8]) (by decide)

/-- One type is not found under the identifier that was returned for it; of three types the
destructor of the first one is the name of the third one; the fourth one is written outside of
the block. -/
theorem not_keepsTypes : ¬ KeepsTypes (fun p => [p.toUInt8]) [⟨1, 2⟩] ∧
    (∃ ids utypes, registerAll [⟨1, 2⟩, ⟨3, 4⟩, ⟨5, 6⟩] initUtypes = .ok (ids, utypes) ∧
      utypes.field (aklVectorAt utypes 0) utDeFunOffset = some 5) ∧
    registerAll [⟨1, 2⟩, ⟨3, 4⟩, ⟨5, 6⟩, ⟨7, 8⟩] initUtypes = .error .outside :=
  ⟨not_keepsTypes_cons _ (by decide), ⟨_, _, rfl, rfl⟩, rfl⟩

end AkLisp
