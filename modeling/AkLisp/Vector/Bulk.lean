import AkLisp.Vector.Stack

/-!
# Operations on whole vectors

Setting a member copies as many bytes as there are slots, truncating tests an unsigned
difference, the last member is looked for one slot too far, and a vector is pushed one slot
too far, a byte for a member, and only where there is no room for it.
-/

namespace AkLisp

open Memory

namespace AklVector

/-- The elements of `xs` are under the indices of the vector. -/
structure Lists (vec : AklVector) (xs : List (List UInt8)) : Prop where
  count : vec.avCount.toNat = xs.length
  elements : ∀ i x, xs[i]? = some x →
    vec.member (aklVectorAt vec (UInt32.ofNat i)) = some (x.map some)

variable {vec : AklVector} {xs : List (List UInt8)}

theorem lists_iff (small : xs.length * vec.avMsize.toNat < 2 ^ 32)
    (positive : 0 < vec.avMsize.toNat) : vec.Lists xs ↔ vec.avCount.toNat = xs.length ∧
      xs.length ≤ vec.avSize.toNat ∧ Slots vec.avMsize.toNat vec.avVector xs := by
  have few : xs.length < 2 ^ 32 := (Nat.le_mul_of_pos_right _ positive).trans_lt small
  have at_eq {i : Nat} (below : i < xs.length) : aklVectorAt vec (UInt32.ofNat i) =
      if i < vec.avSize.toNat then some (i * vec.avMsize.toNat) else none := by
    have index : (UInt32.ofNat i).toNat = i := UInt32.toNat_ofNat_of_lt' (below.trans few)
    have product : i * vec.avMsize.toNat < 2 ^ 32 :=
      (Nat.mul_le_mul_right _ below.le).trans_lt small
    simp only [aklVectorAt, UInt32.lt_iff_toNat_lt, UInt32.toNat_mul, index,
      Nat.mod_eq_of_lt product]
  constructor
  · intro lists
    refine ⟨lists.count, Nat.le_of_not_lt fun less => ?_, fun i x found => ?_⟩
    · have given := lists.elements _ _ (List.getElem?_eq_getElem less)
      rw [at_eq less, if_neg (Nat.lt_irrefl _)] at given
      cases given
    · have given := lists.elements i x found
      rw [at_eq (List.getElem?_eq_some_iff.mp found).1] at given
      split at given
      · exact Option.some.inj given
      · cases given
  · rintro ⟨count, room, slots⟩
    refine ⟨count, fun i x found => ?_⟩
    have below := (List.getElem?_eq_some_iff.mp found).1
    rw [at_eq below, if_pos (below.trans_le room), member, Option.map_some, slots i x found]

theorem Holds.small (holds : vec.Holds xs) : xs.length * vec.avMsize.toNat < 2 ^ 32 :=
  (Nat.mul_le_mul_right _ holds.room).trans_lt holds.below

/-! ### Truncating -/

/-- Truncating leaves the sequence without its last elements. -/
theorem Holds.truncateBy_iff (holds : vec.Holds xs) (k : UInt32) :
    (aklVectorTruncateBy vec k).Lists (xs.take (xs.length - min k.toNat xs.length)) ↔
      k.toNat ≤ xs.length := by
  have count := holds.count
  have sub := UInt32.toNat_sub vec.avCount k
  have bound := k.toNat_lt
  have bound' := vec.avCount.toNat_lt
  have positive : 0 < vec.avCount - k ↔ 0 < (vec.avCount - k).toNat := UInt32.lt_iff_toNat_lt
  have countEq : (aklVectorTruncateBy vec k).avCount.toNat = (vec.avCount - k).toNat := by
    rw [aklVectorTruncateBy]
    split
    · rfl
    · next zero =>
        rw [positive] at zero
        exact (Nat.le_zero.mp (Nat.le_of_not_lt zero)).symm
  constructor
  · intro lists
    have given := lists.count
    rw [countEq, List.length_take] at given
    omega
  · intro within
    have prefixEq : xs = xs.take (xs.length - min k.toNat xs.length) ++
        xs.drop (xs.length - min k.toNat xs.length) := (List.take_append_drop _ _).symm
    have slots := holds.slots
    rw [prefixEq] at slots
    have shorter : (xs.take (xs.length - min k.toNat xs.length)).length ≤ xs.length := by
      rw [List.length_take]
      exact Nat.min_le_right _ _
    have same : (aklVectorTruncateBy vec k).avSize = vec.avSize ∧
        (aklVectorTruncateBy vec k).avMsize = vec.avMsize ∧
          (aklVectorTruncateBy vec k).avVector = vec.avVector := by
      rw [aklVectorTruncateBy]
      split <;> exact ⟨rfl, rfl, rfl⟩
    rw [lists_iff, same.1, same.2.1, same.2.2, countEq]
    · refine ⟨?_, shorter.trans holds.room, slots.of_append⟩
      rw [List.length_take]
      omega
    · rw [same.2.1]
      exact (Nat.mul_le_mul_right _ shorter).trans_lt holds.small
    · rw [same.2.1]
      exact holds.positive

/-! ### The last element -/

/-- `akl_vector_last` gives the slot of the last element. -/
def GivesLast (vec : AklVector) (xs : List (List UInt8)) : Prop :=
  ∀ ys x, xs = ys ++ [x] → aklVectorLast vec = aklVectorAt vec (UInt32.ofNat ys.length)

theorem Holds.givesLast_iff (holds : vec.Holds xs) : vec.GivesLast xs ↔ xs = [] := by
  constructor
  · intro last
    cases xs using List.reverseRecOn with
    | nil => rfl
    | append_singleton ys x =>
        have given := last ys x rfl
        have room := holds.room
        rw [List.length_append, List.length_singleton] at room
        rw [holds.at_eq room, aklVectorLast, holds.count_eq, List.length_append,
          List.length_singleton] at given
        by_cases spare : ys.length + 1 < vec.avSize.toNat
        · rw [holds.at_eq spare, Nat.succ_mul] at given
          have := Option.some.inj given
          have := holds.positive
          omega
        · have none : aklVectorAt vec (UInt32.ofNat (ys.length + 1)) = none := by
            rw [aklVectorAt, if_neg]
            have : ys.length + 1 < 2 ^ 32 := room.trans_lt vec.avSize.toNat_lt
            rwa [UInt32.lt_iff_toNat_lt, UInt32.toNat_ofNat_of_lt' this]
          rw [none] at given
          cases given
  · rintro rfl ys x split
    cases ys <;> cases split

/-! ### Setting an element -/

/-- `akl_vector_set` changes one element. -/
def Sets (vec : AklVector) (xs : List (List UInt8)) (w : UInt32) (x : List UInt8) : Prop :=
  ∃ vec', aklVectorSet vec w (x.map some) = .ok vec' ∧ vec'.Lists (xs.set w.toNat x)

/-- What `akl_vector_set` does: as many bytes are copied as there are slots. -/
theorem Holds.set_eq (holds : vec.Holds xs) {w : UInt32} (below : w.toNat < xs.length)
    {x : List UInt8} (size : x.length = vec.avMsize.toNat) :
    aklVectorSet vec w (x.map some) =
      if vec.avSize ≤ vec.avMsize then
        .ok (vec.stored (w.toNat * vec.avMsize.toNat) ((x.take vec.avSize.toNat).map some))
      else .error .outside := by
  have notZero : vec.avSize.toNat ≠ 0 := by
    have := holds.room
    omega
  have ptr : (w * vec.avMsize).toNat = w.toNat * vec.avMsize.toNat := by
    rw [UInt32.toNat_mul]
    exact Nat.mod_eq_of_lt ((Nat.mul_le_mul_right _ below.le).trans_lt holds.small)
  have inside : vec.avSize.toNat ≤ vec.avMsize.toNat →
      w.toNat * vec.avMsize.toNat + vec.avSize.toNat ≤ vec.avVector.length := fun short =>
    ((Nat.add_le_add_left short _).trans (Slots.end_le below _)).trans holds.inside
  rw [aklVectorSet, ptr]
  by_cases short : vec.avSize ≤ vec.avMsize
  · rw [if_pos short, memcpy_inside notZero (inside (UInt32.le_iff_toNat_le.mp short)),
      List.map_take]
    rw [List.length_map, size]
    exact UInt32.le_iff_toNat_le.mp short
  · rw [if_neg short, memcpy_outside notZero]
    rintro ⟨-, readable⟩
    rw [List.length_map, size] at readable
    exact short (UInt32.le_iff_toNat_le.mpr readable)

/-- The element is set when no byte beside it is read, and the bytes that are not copied were
the same. -/
theorem Holds.sets_iff (holds : vec.Holds xs) {w : UInt32} {old x : List UInt8}
    (found : xs[w.toNat]? = some old) (oldSize : old.length = vec.avMsize.toNat)
    (size : x.length = vec.avMsize.toNat) :
    vec.Sets xs w x ↔ vec.avSize ≤ vec.avMsize ∧
      old.drop vec.avSize.toNat = x.drop vec.avSize.toNat := by
  have below := (List.getElem?_eq_some_iff.mp found).1
  rw [Sets, holds.set_eq below size]
  by_cases short : vec.avSize ≤ vec.avMsize
  · rw [UInt32.le_iff_toNat_le] at short
    have takeLength : (x.take vec.avSize.toNat).length = vec.avSize.toNat := by
      rw [List.length_take, size]
      exact Nat.min_eq_left short
    have slots := holds.slots.set_front holds.inside found oldSize (takeLength.le.trans short)
    rw [takeLength] at slots
    have listsIff (y : List UInt8) :
        (vec.stored (w.toNat * vec.avMsize.toNat) ((x.take vec.avSize.toNat).map some)).Lists
          (xs.set w.toNat y) ↔ x.take vec.avSize.toNat ++ old.drop vec.avSize.toNat = y := by
      rw [lists_iff, List.length_set]
      · constructor
        · rintro ⟨-, -, slots'⟩
          have equal := slots.unique slots' (by rw [List.length_set, List.length_set])
          have inPlace := congrArg (fun ys => ys[w.toNat]?) equal
          rw [List.getElem?_set_self below, List.getElem?_set_self below] at inPlace
          exact Option.some.inj inPlace
        · rintro rfl
          exact ⟨holds.count, holds.room, slots⟩
      · rw [List.length_set]
        exact holds.small
      · exact holds.positive
    have ended : x.take vec.avSize.toNat ++ old.drop vec.avSize.toNat = x ↔
        old.drop vec.avSize.toNat = x.drop vec.avSize.toNat := by
      conv_lhs => rhs; rw [← List.take_append_drop vec.avSize.toNat x]
      exact List.append_right_inj _
    rw [if_pos (UInt32.le_iff_toNat_le.mpr short), ← ended, ← listsIff]
    constructor
    · rintro ⟨vec', given, lists⟩
      cases given
      exact ⟨UInt32.le_iff_toNat_le.mpr short, lists⟩
    · exact fun both => ⟨_, rfl, both.2⟩
  · rw [if_neg short]
    constructor
    · rintro ⟨vec', given, -⟩
      cases given
    · exact fun both => absurd both.1 short

/-! ### Pushing a vector -/

/-- The test in front of the growth: there is room for both vectors and one element more. -/
def RoomFor (vec v : AklVector) : Prop := vec.avCount + v.avCount + 1 < vec.avSize

instance (vec v : AklVector) : Decidable (vec.RoomFor v) :=
  inferInstanceAs (Decidable (vec.avCount + v.avCount + 1 < vec.avSize))

/-- The vector after growing so many times. -/
def grown (vec : AklVector) (j : Nat) : AklVector := (fun vec => aklVectorGrow vec 0)^[j] vec

/-- What `akl_vector_push_vec` does when it does not grow the vector. -/
def copyVec (vec v : AklVector) : Except VectorFault AklVector := do
  let vec ← vec.memcpy (aklVectorAt vec (vec.avCount + 1)) v.avVector v.avCount.toNat
  return { vec with avCount := vec.avCount + v.avCount }

theorem grown_succ (vec : AklVector) (j : Nat) :
    vec.grown (j + 1) = (aklVectorGrow vec 0).grown j := Function.iterate_succ_apply ..

theorem pushVec_succ {vec v : AklVector} (same : vec.avMsize = v.avMsize) (fuel : Nat) :
    aklVectorPushVec (fuel + 1) vec v =
      if vec.RoomFor v then aklVectorPushVec fuel (aklVectorGrow vec 0) v else vec.copyVec v := by
  rw [aklVectorPushVec, if_neg (not_not_intro same)]
  rfl

/-- The vector grows as long as there is room. -/
theorem pushVec_ok_iff {vec v r : AklVector} (same : vec.avMsize = v.avMsize) :
    (∃ fuel, aklVectorPushVec fuel vec v = .ok r) ↔
      ∃ j, (∀ i < j, (vec.grown i).RoomFor v) ∧ ¬ (vec.grown j).RoomFor v ∧
        (vec.grown j).copyVec v = .ok r := by
  constructor
  · rintro ⟨fuel, returned⟩
    induction fuel generalizing vec with
    | zero => cases returned
    | succ fuel ih =>
        rw [pushVec_succ same] at returned
        split at returned
        · next room =>
            obtain ⟨j, rooms, last, copied⟩ := @ih (aklVectorGrow vec 0) same returned
            refine ⟨j + 1, fun i below => ?_, by rwa [grown_succ], by rwa [grown_succ]⟩
            cases i with
            | zero => exact room
            | succ i =>
                rw [grown_succ]
                exact rooms i (Nat.lt_of_succ_lt_succ below)
        · next full => exact ⟨0, nofun, full, returned⟩
  · rintro ⟨j, rooms, last, copied⟩
    induction j generalizing vec with
    | zero =>
        refine ⟨1, ?_⟩
        rw [pushVec_succ same, if_neg (show ¬ vec.RoomFor v from last)]
        exact copied
    | succ j ih =>
        rw [grown_succ] at last copied
        have rooms' : ∀ i < j, ((aklVectorGrow vec 0).grown i).RoomFor v := fun i below => by
          rw [← grown_succ]
          exact rooms (i + 1) (Nat.succ_lt_succ below)
        obtain ⟨fuel, returned⟩ := @ih (aklVectorGrow vec 0) same rooms' last copied
        refine ⟨fuel + 1, ?_⟩
        rw [pushVec_succ same, if_pos (show vec.RoomFor v from rooms 0 (Nat.succ_pos j)), returned]

/-- Behind `p` the block holds zeros or nothing determinate. -/
def BlankFrom (p : Nat) (b : Block UInt8) : Prop :=
  ∀ q c, p ≤ q → b[q]? = some c → c = some 0 ∨ c = none

theorem BlankFrom.resize {p : Nat} {b : Block UInt8} (blank : BlankFrom p b) (n : Nat) :
    BlankFrom p (b.resize n) := by
  intro q c behind found
  rw [Block.getElem?_resize] at found
  split at found
  · cases held : b[q]? with
    | none =>
        rw [held] at found
        cases found
        exact .inr rfl
    | some d =>
        rw [held] at found
        cases found
        exact blank q _ behind held
  · cases found

/-- What growing leaves alone. -/
theorem grown_spec (vec : AklVector) (j : Nat) : (vec.grown j).avCount = vec.avCount ∧
    (vec.grown j).avMsize = vec.avMsize ∧
      ∀ p, BlankFrom p vec.avVector → BlankFrom p (vec.grown j).avVector := by
  induction j generalizing vec with
  | zero => exact ⟨rfl, rfl, fun _ blank => blank⟩
  | succ j ih =>
      rw [grown_succ]
      obtain ⟨count, msize, blank⟩ := ih (aklVectorGrow vec 0)
      exact ⟨count, msize, fun p blank' => blank p (blank'.resize _)⟩

/-- Before the copy: the elements are still there, and what is copied behind them gives the
elements of `ys`, since these are zeros as is the memory around. -/
structure CopyFits (vec : AklVector) (xs ys : List (List UInt8)) : Prop where
  kept : xs.length ≤ vec.avSize.toNat
  slots : Slots vec.avMsize.toNat vec.avVector xs
  zeros : ys = [] ∨
    ys = List.replicate ys.length (List.replicate vec.avMsize.toNat 0) ∧
      xs.length + ys.length ≤ vec.avSize.toNat ∧
      xs.length * vec.avMsize.toNat + vec.avMsize.toNat + ys.length ≤ vec.avVector.length ∧
      ∀ q < ys.length * vec.avMsize.toNat,
        ¬ (vec.avMsize.toNat ≤ q ∧ q < vec.avMsize.toNat + ys.length) →
        vec.avVector[xs.length * vec.avMsize.toNat + q]? = some (some 0)

/-- Cells that are copied one slot further are the same as before only if they are zeros. -/
theorem shifted_iff {b b' : Block UInt8} {p k m n : Nat} (positive : 0 < k)
    (room : p + k + m ≤ b.length) (short : m ≤ b'.length) (blank : BlankFrom p b)
    (determinate : ∀ q < n, ∃ a, b'[q]? = some (some a)) :
    (∀ q < n, (b.store (p + k) (b'.take m))[p + q]? = b'[q]?) ↔
      (∀ q < n, b'[q]? = some (some 0)) ∧
        ∀ q < n, ¬ (k ≤ q ∧ q < k + m) → b[p + q]? = some (some 0) := by
  have takeLength : (b'.take m).length = m := by
    rw [List.length_take]
    exact Nat.min_eq_left short
  have cell (q : Nat) : (b.store (p + k) (b'.take m))[p + q]? =
      if k ≤ q ∧ q < k + m then b'[q - k]? else b[p + q]? := by
    rw [Block.getElem?_store (by rwa [takeLength]), takeLength]
    by_cases copied : k ≤ q ∧ q < k + m
    · rw [if_pos (by omega), if_pos copied, List.getElem?_take_of_lt (by omega)]
      congr 1
      omega
    · rw [if_neg (by omega), if_neg copied]
  simp only [cell]
  constructor
  · intro same
    have zero (q : Nat) (inside : q < n) : b'[q]? = some (some 0) := by
      induction q using Nat.strongRecOn with
      | ind q ih =>
          have equal := same q inside
          split at equal
          · rw [← equal]
            exact ih (q - k) (by omega) (by omega)
          · obtain ⟨a, found⟩ := determinate q inside
            rw [found] at equal ⊢
            rcases blank (p + q) _ (Nat.le_add_right _ _) equal with zero | none
            · rw [zero]
            · cases none
    refine ⟨zero, fun q inside out => ?_⟩
    have equal := same q inside
    rwa [if_neg out, zero q inside] at equal
  · rintro ⟨zero, around⟩ q inside
    split
    · rw [zero q inside, zero (q - k) (by omega)]
    · next out => rw [around q inside out, zero q inside]

/-- What the copy gives when it stays inside of the block. -/
def joined (w v : AklVector) (n : Nat) : AklVector :=
  { w.stored (n * w.avMsize.toNat + w.avMsize.toNat) (v.avVector.take v.avCount.toNat) with
    avCount := w.avCount + v.avCount }

section

variable {w v : AklVector} {ys : List (List UInt8)}

/-- The copy starts one slot too far, and ends outside of the block or with `joined`. -/
theorem copyVec_ok_iff (count : w.avCount.toNat = xs.length) (holds : v.Holds ys)
    (same : w.avMsize = v.avMsize) (notEmpty : ys ≠ [])
    (length : w.avVector.length = w.avSize.toNat * w.avMsize.toNat)
    (below : (xs.length + ys.length + 1) * w.avMsize.toNat < 2 ^ 32) (r : AklVector) :
    w.copyVec v = .ok r ↔
      xs.length * w.avMsize.toNat + w.avMsize.toNat + ys.length ≤ w.avVector.length ∧
        r = w.joined v xs.length := by
  have positive : 0 < w.avMsize.toNat := same ▸ holds.positive
  have some_ : 0 < ys.length := List.length_pos_iff.mpr notEmpty
  have few := (Nat.le_mul_of_pos_right (xs.length + ys.length + 1) positive).trans_lt below
  have index : (w.avCount + 1).toNat = xs.length + 1 := by
    rw [UInt32.toNat_add, count]
    exact Nat.mod_eq_of_lt (by omega : xs.length + 1 < 2 ^ 32)
  have product : (xs.length + 1) * w.avMsize.toNat < 2 ^ 32 :=
    (Nat.mul_le_mul_right _ (by omega)).trans_lt below
  have readable : ys.length ≤ v.avVector.length :=
    (Nat.le_mul_of_pos_right _ holds.positive).trans holds.inside
  have ptr : aklVectorAt w (w.avCount + 1) =
      if xs.length + 1 < w.avSize.toNat then
        some (xs.length * w.avMsize.toNat + w.avMsize.toNat)
      else none := by
    rw [← Nat.succ_mul]
    simp only [aklVectorAt, UInt32.lt_iff_toNat_lt, UInt32.toNat_mul, index,
      Nat.mod_eq_of_lt product]
  rw [copyVec, ptr, holds.count]
  by_cases inside :
      xs.length * w.avMsize.toNat + w.avMsize.toNat + ys.length ≤ w.avVector.length
  · have spare : xs.length + 1 < w.avSize.toNat := by
      rw [length, ← Nat.succ_mul] at inside
      exact Nat.lt_of_mul_lt_mul_right ((Nat.lt_add_of_pos_right some_).trans_le inside)
    rw [if_pos spare, memcpy_inside (Nat.ne_of_gt some_) inside readable, joined, holds.count]
    exact ⟨fun copied => ⟨inside, (Except.ok.inj copied).symm⟩, fun both => congrArg _ both.2.symm⟩
  · refine iff_of_false (fun copied => ?_) fun both => inside both.1
    split at copied
    · rw [memcpy_outside (Nat.ne_of_gt some_) fun both => inside both.1] at copied
      cases copied
    · rw [memcpy_null (Nat.ne_of_gt some_)] at copied
      cases copied

/-- The elements of a vector that was pushed are there. -/
theorem joined_lists_iff (count : w.avCount.toNat = xs.length) (holds : v.Holds ys)
    (same : w.avMsize = v.avMsize) (blank : BlankFrom (xs.length * w.avMsize.toNat) w.avVector)
    (inside : xs.length * w.avMsize.toNat + w.avMsize.toNat + ys.length ≤ w.avVector.length)
    (below : (xs.length + ys.length + 1) * w.avMsize.toNat < 2 ^ 32) :
    (w.joined v xs.length).Lists (xs ++ ys) ↔ xs.length + ys.length ≤ w.avSize.toNat ∧
      Slots w.avMsize.toNat w.avVector xs ∧
        ys = List.replicate ys.length (List.replicate w.avMsize.toNat 0) ∧
          ∀ q < ys.length * w.avMsize.toNat,
            ¬ (w.avMsize.toNat ≤ q ∧ q < w.avMsize.toNat + ys.length) →
            w.avVector[xs.length * w.avMsize.toNat + q]? = some (some 0) := by
  have positive : 0 < w.avMsize.toNat := same ▸ holds.positive
  have few := (Nat.le_mul_of_pos_right (xs.length + ys.length + 1) positive).trans_lt below
  have readable : ys.length ≤ v.avVector.length :=
    (Nat.le_mul_of_pos_right _ holds.positive).trans holds.inside
  have other : Slots w.avMsize.toNat v.avVector ys := same ▸ holds.slots
  have room : ys.length * w.avMsize.toNat ≤ v.avVector.length := same ▸ holds.inside
  have takeLength : (v.avVector.take ys.length).length = ys.length := by
    rw [List.length_take]
    exact Nat.min_eq_left readable
  have inside' : xs.length * w.avMsize.toNat + w.avMsize.toNat +
      (v.avVector.take ys.length).length ≤ w.avVector.length := by rwa [takeLength]
  have countEq : (w.joined v xs.length).avCount.toNat = (xs ++ ys).length := by
    rw [joined, List.length_append, UInt32.toNat_add, count, holds.count]
    exact Nat.mod_eq_of_lt (by omega)
  have zerosIff : (∀ q < ys.length * w.avMsize.toNat, v.avVector[q]? = some (some 0)) ↔
      ys = List.replicate ys.length (List.replicate w.avMsize.toNat 0) := by
    rw [← Slots.replicate_iff]
    constructor
    · exact fun slots => other.unique slots (List.length_replicate ..).symm
    · exact fun equal => equal ▸ other
  have slotsIff : Slots w.avMsize.toNat (w.joined v xs.length).avVector (xs ++ ys) ↔
      Slots w.avMsize.toNat w.avVector xs ∧
        ys = List.replicate ys.length (List.replicate w.avMsize.toNat 0) ∧
          ∀ q < ys.length * w.avMsize.toNat,
            ¬ (w.avMsize.toNat ≤ q ∧ q < w.avMsize.toNat + ys.length) →
            w.avVector[xs.length * w.avMsize.toNat + q]? = some (some 0) := by
    rw [Slots.append_iff other, joined, stored, holds.count,
      Slots.store_behind_iff inside' (Nat.le_add_right _ _),
      shifted_iff positive inside readable blank fun q below => other.determinate room below,
      zerosIff]
  rw [lists_iff]
  · rw [and_iff_right countEq, List.length_append]
    exact and_congr_right fun _ => slotsIff
  · rw [List.length_append]
    exact (Nat.mul_le_mul_right _ (Nat.le_succ _)).trans_lt below
  · exact positive

/-- The copy leads to both sequences exactly when the copied bytes happen to fit. -/
theorem copyVec_lists_iff (count : w.avCount.toNat = xs.length) (holds : v.Holds ys)
    (same : w.avMsize = v.avMsize) (blank : BlankFrom (xs.length * w.avMsize.toNat) w.avVector)
    (length : w.avVector.length = w.avSize.toNat * w.avMsize.toNat)
    (below : (xs.length + ys.length + 1) * w.avMsize.toNat < 2 ^ 32) :
    (∃ r, w.copyVec v = .ok r ∧ r.Lists (xs ++ ys)) ↔ w.CopyFits xs ys := by
  have positive : 0 < w.avMsize.toNat := same ▸ holds.positive
  have small : (xs.length + ys.length) * w.avMsize.toNat < 2 ^ 32 :=
    (Nat.mul_le_mul_right _ (Nat.le_succ _)).trans_lt below
  by_cases empty : ys = []
  · subst empty
    have countEq : v.avCount = 0 := UInt32.toNat_inj.mp holds.count
    have copied : w.copyVec v = .ok w := by
      rw [copyVec, holds.count, List.length_nil, memcpy_nothing, countEq]
      show Except.ok { w with avCount := w.avCount + 0 } = _
      rw [UInt32.add_zero]
    rw [List.append_nil]
    constructor
    · rintro ⟨r, returned, lists⟩
      rw [copied] at returned
      cases returned
      obtain ⟨-, kept, slots⟩ := (lists_iff (by simpa using small) positive).mp lists
      exact ⟨kept, slots, .inl rfl⟩
    · rintro ⟨kept, slots, -⟩
      exact ⟨w, copied, (lists_iff (by simpa using small) positive).mpr ⟨count, kept, slots⟩⟩
  · constructor
    · rintro ⟨r, returned, lists⟩
      obtain ⟨inside, rfl⟩ := (copyVec_ok_iff count holds same empty length below r).mp returned
      obtain ⟨room, slots, zeros, around⟩ :=
        (joined_lists_iff count holds same blank inside below).mp lists
      exact ⟨(Nat.le_add_right _ _).trans room, slots, .inr ⟨zeros, room, inside, around⟩⟩
    · rintro ⟨-, slots, none | ⟨zeros, room, inside, around⟩⟩
      · exact absurd none empty
      · exact ⟨_, (copyVec_ok_iff count holds same empty length below _).mpr ⟨inside, rfl⟩,
          (joined_lists_iff count holds same blank inside below).mpr ⟨room, slots, zeros, around⟩⟩

theorem roomFor_iff (count : w.avCount.toNat = xs.length) (holds : v.Holds ys)
    (few : xs.length + ys.length + 1 < 2 ^ 32) :
    w.RoomFor v ↔ xs.length + ys.length + 1 < w.avSize.toNat := by
  have sumEq : (w.avCount + v.avCount + 1).toNat = xs.length + ys.length + 1 := by
    rw [UInt32.toNat_add, UInt32.toNat_add, count, holds.count]
    have one : UInt32.toNat 1 = 1 := rfl
    omega
  rw [RoomFor, UInt32.lt_iff_toNat_lt, sumEq]

/-- Both sequences are in the vector at the end. -/
def PushesVec (vec v : AklVector) (xs ys : List (List UInt8)) : Prop :=
  ∃ fuel r, aklVectorPushVec fuel vec v = .ok r ∧ r.Lists (xs ++ ys)

/-- The vector grows as long as there is room; in the first state without room the copied
bytes have to fit. -/
theorem Holds.pushesVec_iff (holds : vec.Holds xs)
    (blank : BlankFrom (xs.length * vec.avMsize.toNat) vec.avVector) (holds' : v.Holds ys)
    (same : vec.avMsize = v.avMsize)
    (below : (xs.length + ys.length + 1) * vec.avMsize.toNat < 2 ^ 32) :
    vec.PushesVec v xs ys ↔ ∃ j, (∀ i < j, (vec.grown i).RoomFor v) ∧
      ¬ (vec.grown j).RoomFor v ∧ (vec.grown j).CopyFits xs ys := by
  have few := (Nat.le_mul_of_pos_right (xs.length + ys.length + 1) holds.positive).trans_lt below
  have length {j : Nat} (full : ¬ (vec.grown j).RoomFor v) :
      (vec.grown j).avVector.length =
        (vec.grown j).avSize.toNat * (vec.grown j).avMsize.toNat := by
    obtain ⟨countEq, msizeEq, -⟩ := vec.grown_spec j
    rw [roomFor_iff (countEq ▸ holds.count) holds' few, Nat.not_lt] at full
    cases j with
    | zero => exact holds.length
    | succ j =>
        have product : (vec.grown (j + 1)).avSize.toNat * (vec.grown (j + 1)).avMsize.toNat <
            2 ^ 32 := by
          rw [msizeEq]
          exact (Nat.mul_le_mul_right _ full).trans_lt below
        rw [← Nat.mod_eq_of_lt product, ← UInt32.toNat_mul, grown, Function.iterate_succ_apply',
          aklVectorGrow_zero]
        exact Block.length_resize _ _
  have ends {j : Nat} (full : ¬ (vec.grown j).RoomFor v) :
      (∃ r, (vec.grown j).copyVec v = .ok r ∧ r.Lists (xs ++ ys)) ↔
        (vec.grown j).CopyFits xs ys := by
    obtain ⟨countEq, msizeEq, blankEq⟩ := vec.grown_spec j
    apply copyVec_lists_iff (countEq ▸ holds.count) holds' (msizeEq.trans same) _ (length full)
    · rwa [msizeEq]
    · rw [msizeEq]
      exact blankEq _ blank
  constructor
  · rintro ⟨fuel, r, returned, lists⟩
    obtain ⟨j, rooms, full, copied⟩ := (pushVec_ok_iff same).mp ⟨fuel, returned⟩
    exact ⟨j, rooms, full, (ends full).mp ⟨r, copied, lists⟩⟩
  · rintro ⟨j, rooms, full, fits⟩
    obtain ⟨r, copied, lists⟩ := (ends full).mpr fits
    obtain ⟨fuel, returned⟩ := (pushVec_ok_iff same).mpr ⟨j, rooms, full, copied⟩
    exact ⟨fuel, r, returned, lists⟩

end

/-! ### Filling a vector -/

/-- Behind a pushed element the block is still blank. -/
theorem Holds.push_blank (holds : vec.Holds xs) (fits : vec.Fits)
    (spare : xs.length < vec.ready.avSize.toNat) {x : List UInt8}
    (size : x.length = vec.avMsize.toNat)
    (blank : BlankFrom (xs.length * vec.avMsize.toNat) vec.avVector) :
    ∃ vec', aklVectorPush vec (x.map some) = .ok (UInt32.ofNat xs.length, vec') ∧
      vec'.Holds (xs ++ [x]) ∧ vec'.avSize = vec.ready.avSize ∧ vec'.avMsize = vec.avMsize ∧
      BlankFrom ((xs ++ [x]).length * vec.avMsize.toNat) vec'.avVector := by
  obtain ⟨vec', pushed, holds', sizeEq, msizeEq, blockEq⟩ := holds.push fits spare size
  refine ⟨vec', pushed, holds', sizeEq, msizeEq, ?_⟩
  have ready : BlankFrom (xs.length * vec.avMsize.toNat) vec.ready.avVector := by
    rw [AklVector.ready]
    split
    · rw [aklVectorGrow_zero]
      exact blank.resize _
    · exact blank
  have room : xs.length * vec.avMsize.toNat + (x.map some).length ≤ vec.ready.avVector.length := by
    rw [List.length_map, size, (holds.ready fits).length, ready_avMsize]
    exact Slots.end_le spare _
  intro q c behind found
  rw [List.length_append, List.length_singleton, Nat.succ_mul] at behind
  rw [blockEq, Block.getElem?_store room, List.length_map, size, if_neg (by omega)] at found
  exact ready q c (by omega) found

/-- A vector that was filled with `xs`: behind them nothing was written. -/
structure FilledWith (vec : AklVector) (xs : List (List UInt8)) : Prop where
  holds : vec.Holds xs
  blank : BlankFrom (xs.length * vec.avMsize.toNat) vec.avVector

/-- What a run of pushes starts with. -/
theorem runVector_push {x : List UInt8} {i : UInt32} {vec' : AklVector}
    (pushed : aklVectorPush vec (x.map some) = .ok (i, vec')) (ops : List VectorOp) :
    runVector (.push x :: ops) vec = runVector ops vec' := by
  have called : (VectorOp.push x).call vec = .ok vec' := by
    simp only [VectorOp.call, pushed]
    rfl
  rw [runVector, List.foldlM_cons, called]
  rfl

/-- The rest of a run of pushes keeps the sizes below 2^32, too. -/
theorem fitsRun_push {x : List UInt8} {i : UInt32} {vec' : AklVector} {ops : List VectorOp}
    (fits : FitsRun (.push x :: ops) vec)
    (pushed : aklVectorPush vec (x.map some) = .ok (i, vec')) :
    vec.Fits ∧ FitsRun ops vec' := by
  refine ⟨fits.1, fits.2 vec' ?_⟩
  simp only [VectorOp.call, pushed]
  rfl

/-- Pushing fills a stack. -/
theorem IsStack.pushAll (stack : vec.IsStack xs)
    (blank : BlankFrom (xs.length * vec.avMsize.toNat) vec.avVector) {ys : List (List UInt8)}
    (sized : ∀ y ∈ ys, y.length = vec.avMsize.toNat)
    (fits : FitsRun (ys.map VectorOp.push) vec) :
    ∃ vec', runVector (ys.map VectorOp.push) vec = .ok vec' ∧ vec'.FilledWith (xs ++ ys) ∧
      vec'.avMsize = vec.avMsize := by
  induction ys generalizing vec xs with
  | nil => exact ⟨vec, rfl, by rw [List.append_nil]; exact ⟨stack.holds, blank⟩, rfl⟩
  | cons y ys ih =>
      have spare := stack.ready_spare fits.1
      obtain ⟨vec₁, pushed, holds₁, sizeEq₁, msizeEq₁, blank₁⟩ := stack.holds.push_blank fits.1
        ((Nat.lt_succ_self _).trans spare) (sized y List.mem_cons_self) blank
      have stack₁ : vec₁.IsStack (xs ++ [y]) := by
        refine ⟨holds₁, ?_, sizeEq₁ ▸ stack.ready_several fits.1⟩
        rw [List.length_append, sizeEq₁]
        exact spare
      rw [← msizeEq₁] at blank₁
      obtain ⟨vec', ran, filled, msizeEq⟩ := ih stack₁ blank₁
        (fun z mem => msizeEq₁ ▸ sized z (List.mem_cons_of_mem _ mem))
        (fitsRun_push fits pushed).2
      refine ⟨vec', ?_, ?_, msizeEq.trans msizeEq₁⟩
      · rw [List.map_cons, runVector_push pushed, ran]
      · rwa [List.append_assoc] at filled

/-- There is no slot for the next element: `memcpy` is called with `NULL`. -/
theorem Holds.push_full (holds : vec.Holds xs) (full : vec.ready.avSize.toNat ≤ xs.length)
    (data : Block UInt8) : aklVectorPush vec data = .error .null := by
  have none : aklVectorAt vec.ready vec.ready.avCount = none := by
    rw [aklVectorAt, if_neg]
    rw [UInt32.lt_iff_toNat_lt, ready_avCount, holds.count]
    exact Nat.not_lt.mpr full
  rw [aklVectorPush, aklVectorReserve_eq, none]
  simp only [taken_avMsize, ready_avMsize, memcpy_null (Nat.ne_of_gt holds.positive), bind,
    Except.bind]

/-- A vector with one slot does not grow. -/
theorem ready_one (one : vec.avSize = 1) : vec.ready.avSize = 1 := by
  rw [ready]
  split
  · rw [aklVectorGrow_zero, one]
    exact show (1 + 1 / 2 : UInt32) = 1 by decide
  · exact one

theorem blankFrom_init (nmemb size : UInt32) (p : Nat) :
    BlankFrom p (aklInitVector nmemb size).avVector := by
  intro q c _ found
  exact .inl (List.eq_of_mem_replicate (List.mem_of_getElem? found))

/-- A new vector can be filled with any number of elements, unless it has one slot only. -/
theorem fill_spec {nmemb size : UInt32}
    (below : (aklInitVector nmemb size).avSize.toNat *
      (aklInitVector nmemb size).avMsize.toNat < 2 ^ 32)
    (sized : ∀ x ∈ xs, x.length = (aklInitVector nmemb size).avMsize.toNat)
    (fits : FitsRun (xs.map VectorOp.push) (aklInitVector nmemb size)) :
    if nmemb ≠ 1 ∨ xs.length ≤ 1 then
      ∃ vec, runVector (xs.map VectorOp.push) (aklInitVector nmemb size) = .ok vec ∧
        vec.FilledWith xs ∧ vec.avMsize = (aklInitVector nmemb size).avMsize
    else runVector (xs.map VectorOp.push) (aklInitVector nmemb size) = .error .null := by
  by_cases one : nmemb = 1
  · subst one
    cases xs with
    | nil =>
        rw [if_pos (.inr (Nat.zero_le 1))]
        exact ⟨_, rfl, ⟨holds_init below, blankFrom_init _ _ _⟩, rfl⟩
    | cons x xs =>
        have spare :
            ([] : List (List UInt8)).length < (aklInitVector 1 size).ready.avSize.toNat := by
          rw [ready_one rfl]
          decide
        obtain ⟨vec₁, pushed, holds₁, sizeEq₁, msizeEq₁, blank₁⟩ := (holds_init below).push_blank
          fits.1 spare (sized x List.mem_cons_self) (blankFrom_init _ _ _)
        rw [ready_one rfl] at sizeEq₁
        rw [← msizeEq₁] at blank₁
        rw [List.map_cons, runVector_push pushed]
        cases xs with
        | nil =>
            rw [if_pos (.inr (Nat.le_refl 1))]
            exact ⟨vec₁, rfl, ⟨holds₁, blank₁⟩, msizeEq₁⟩
        | cons y ys =>
            rw [if_neg (by simp)]
            have failed : (VectorOp.push y).call vec₁ = .error .null := by
              have full : vec₁.ready.avSize.toNat ≤ ([] ++ [x]).length := by
                rw [ready_one sizeEq₁]
                exact Nat.le_refl 1
              simp only [VectorOp.call, holds₁.push_full full]
              rfl
            rw [List.map_cons, runVector, List.foldlM_cons, failed]
            rfl
  · have several : nmemb = 0 ∨ 2 ≤ nmemb := by
      rw [← UInt32.toNat_inj] at one ⊢
      rw [UInt32.le_iff_toNat_le]
      have values : (0 : UInt32).toNat = 0 ∧ (1 : UInt32).toNat = 1 ∧ (2 : UInt32).toNat = 2 :=
        ⟨rfl, rfl, rfl⟩
      omega
    rw [if_pos (.inl one)]
    obtain ⟨vec, ran, filled, msizeEq⟩ :=
      (isStack_init several below).pushAll (blankFrom_init _ _ _) sized fits
    exact ⟨vec, ran, filled, msizeEq⟩

end AklVector

/-- What holds of a new vector that is filled with `xs`: it can be filled unless it has one
slot only, and then each operation does what it should exactly under its condition. -/
theorem bulk_operations_iff {nmemb size : UInt32} {xs : List (List UInt8)}
    (below : (aklInitVector nmemb size).avSize.toNat *
      (aklInitVector nmemb size).avMsize.toNat < 2 ^ 32)
    (sized : ∀ x ∈ xs, x.length = (aklInitVector nmemb size).avMsize.toNat)
    (fits : FitsRun (xs.map VectorOp.push) (aklInitVector nmemb size)) :
    ((∃ vec, runVector (xs.map VectorOp.push) (aklInitVector nmemb size) = .ok vec) ↔
      nmemb ≠ 1 ∨ xs.length ≤ 1) ∧
    ∀ vec, runVector (xs.map VectorOp.push) (aklInitVector nmemb size) = .ok vec →
      vec.Lists xs ∧
      (∀ (w : UInt32) (old x : List UInt8), xs[w.toNat]? = some old →
        x.length = vec.avMsize.toNat →
        (vec.Sets xs w x ↔ vec.avSize ≤ vec.avMsize ∧
          old.drop vec.avSize.toNat = x.drop vec.avSize.toNat)) ∧
      (∀ k : UInt32, (aklVectorTruncateBy vec k).Lists
          (xs.take (xs.length - min k.toNat xs.length)) ↔ k.toNat ≤ xs.length) ∧
      (vec.GivesLast xs ↔ xs = []) ∧
      ∀ (v : AklVector) (ys : List (List UInt8)), v.Holds ys → vec.avMsize = v.avMsize →
        (xs.length + ys.length + 1) * vec.avMsize.toNat < 2 ^ 32 →
        (vec.PushesVec v xs ys ↔ ∃ j, (∀ i < j, (vec.grown i).RoomFor v) ∧
          ¬ (vec.grown j).RoomFor v ∧ (vec.grown j).CopyFits xs ys) := by
  have filling := AklVector.fill_spec below sized fits
  have possible : (∃ vec, runVector (xs.map VectorOp.push) (aklInitVector nmemb size) = .ok vec) ↔
      nmemb ≠ 1 ∨ xs.length ≤ 1 := by
    constructor
    · rintro ⟨vec, ran⟩
      by_contra impossible
      rw [if_neg impossible, ran] at filling
      cases filling
    · intro possible
      rw [if_pos possible] at filling
      obtain ⟨vec, ran, -⟩ := filling
      exact ⟨vec, ran⟩
  refine ⟨possible, fun vec ran => ?_⟩
  rw [if_pos (possible.mp ⟨vec, ran⟩)] at filling
  obtain ⟨vec', ran', ⟨holds, blank⟩, msizeEq⟩ := filling
  rw [ran] at ran'
  cases ran'
  have lists : vec.Lists xs :=
    (AklVector.lists_iff holds.small holds.positive).mpr ⟨holds.count, holds.room, holds.slots⟩
  refine ⟨lists, fun w old x found size => ?_, holds.truncateBy_iff, holds.givesLast_iff,
    fun v ys holds' same below' => holds.pushesVec_iff blank holds' same below'⟩
  exact holds.sets_iff found (msizeEq ▸ sized old (List.mem_of_getElem? found)) size

/-- The bytes 1 and 2 in a vector of ten bytes. -/
def twoBytes : AklVector := ⟨[some 1, some 2] ++ List.replicate 8 (some 0), 2, 10, 1⟩

theorem twoBytes_holds : twoBytes.Holds [[1], [2]] where
  count := rfl
  room := by decide
  length := rfl
  below := by decide
  positive := by decide
  slots i x found := by
    match i with
    | 0 =>
        cases found
        rfl
    | 1 =>
        cases found
        rfl
    | i + 2 => cases found

/-- Seven zero bytes in a vector of ten bytes. -/
def sevenZeros : AklVector := ⟨List.replicate 10 (some 0), 7, 10, 1⟩

theorem sevenZeros_holds : sevenZeros.Holds (List.replicate 7 [0]) where
  count := rfl
  room := by decide
  length := rfl
  below := by decide
  positive := by decide
  slots := (Slots.replicate_iff (k := 1) (m := 7) (a := 0)).mpr (by decide)

/-- Two bytes are pushed to a new vector.  Its capacity is not below the member size, so that no
element can be set.  Two elements can be dropped and three can not, and seven zero bytes
can be pushed. -/
theorem bulk_operations_two :
    runVector ([[1], [2]].map VectorOp.push) (aklInitVector 0 1) = .ok twoBytes ∧
      twoBytes.Lists [[1], [2]] ∧ (¬ ∃ w x, w < 2 ∧ x.length = 1 ∧ twoBytes.Sets [[1], [2]] w x) ∧
      (aklVectorTruncateBy twoBytes 2).Lists [] ∧ ¬ (aklVectorTruncateBy twoBytes 3).Lists [] ∧
      ¬ twoBytes.GivesLast [[1], [2]] ∧
      twoBytes.PushesVec sevenZeros [[1], [2]] (List.replicate 7 [0]) := by
  have filled : runVector ([[1], [2]].map VectorOp.push) (aklInitVector 0 1) = .ok twoBytes := rfl
  rcases (bulk_operations_iff (by decide) (by decide)
    ((AklVector.isStack_init (.inl rfl) (by decide)).fitsRun (by decide) (by decide))).2 twoBytes
      filled with ⟨lists, sets, truncates, last, pushes⟩
  refine ⟨filled, lists, ?_, (truncates 2).mpr (by decide), ?_, ?_, ?_⟩
  · rintro ⟨w, x, bound, size, done⟩
    have found : ∃ old, [[(1 : UInt8)], [2]][w.toNat]? = some old :=
      ⟨_, List.getElem?_eq_getElem (show w.toNat < 2 from bound)⟩
    rcases found with ⟨old, found⟩
    exact absurd ((sets w old x found size).mp done).1 (by decide)
  · intro emptied
    exact absurd ((truncates 3).mp emptied) (by decide)
  · intro given
    cases last.mp given
  · apply (pushes sevenZeros _ sevenZeros_holds rfl (by decide)).mpr
    refine ⟨0, fun i before => absurd before (Nat.not_lt_zero i), by decide, ?_⟩
    exact ⟨by decide, twoBytes_holds.slots, Or.inr (by decide)⟩
/-- Nine times the byte 1, in a vector that started with nine slots. -/
def nineBytes : AklVector := ⟨List.replicate 9 (some 1) ++ List.replicate 4 none, 9, 13, 1⟩

/-- A second element is pushed to nowhere if there is one slot only.  In the vector with the
bytes 1 and 2 the first one is not set, truncating by three does not empty it, its last element
is not found, and nine bytes are not pushed to it. -/
theorem bulk_operations_fail :
    runVector ([[1], [2]].map VectorOp.push) (aklInitVector 1 1) = .error .null ∧
      runVector ([[1], [2]].map VectorOp.push) (aklInitVector 0 1) = .ok twoBytes ∧
      ¬ twoBytes.Sets [[1], [2]] 0 [5] ∧ ¬ (aklVectorTruncateBy twoBytes 3).Lists [] ∧
      ¬ twoBytes.GivesLast [[1], [2]] ∧
      ¬ twoBytes.PushesVec nineBytes [[1], [2]] (List.replicate 9 [1]) := by
  refine ⟨rfl, rfl, fun sets => ?_, fun lists => ?_, fun last => ?_, ?_⟩
  · have short := ((twoBytes_holds.sets_iff rfl rfl rfl).mp sets).1
    exact absurd short (by decide)
  · exact absurd ((twoBytes_holds.truncateBy_iff 3).mp lists) (by decide)
  · cases twoBytes_holds.givesLast_iff.mp last
  · rintro ⟨fuel, r, returned, -⟩
    cases fuel with
    | zero => cases returned
    | succ fuel =>
        have same : twoBytes.avMsize = nineBytes.avMsize := rfl
        rw [AklVector.pushVec_succ same, if_neg (by decide)] at returned
        cases returned

end AkLisp
