import AkLisp.Vector.Basic
import Mathlib.Data.List.Induction

/-!
# Vectors as stacks

A vector that starts with two slots or more grows one element early, so that there is
always a slot for the next element.
-/

namespace AkLisp

open Memory

namespace AklVector

/-- The vector before its next slot is taken. -/
def ready (vec : AklVector) : AklVector :=
  if aklVectorIsGrowNeed vec then aklVectorGrow vec 0 else vec

/-- Growing for the next slot does not lead to 2^32 bytes or more. -/
def Fits (vec : AklVector) : Prop :=
  aklVectorIsGrowNeed vec = true →
    (vec.avSize.toNat + vec.avSize.toNat / 2) * vec.avMsize.toNat < 2 ^ 32

/-- The next slot is taken. -/
def taken (vec : AklVector) : AklVector := { vec with avCount := vec.avCount + 1 }

@[simp]
theorem taken_avMsize (vec : AklVector) : vec.taken.avMsize = vec.avMsize := rfl

theorem aklVectorReserve_eq (vec : AklVector) :
    aklVectorReserve vec = (aklVectorAt vec.ready vec.ready.avCount, vec.ready.taken) := rfl

@[simp]
theorem ready_avCount (vec : AklVector) : vec.ready.avCount = vec.avCount := by
  rw [ready]
  split <;> rfl

@[simp]
theorem ready_avMsize (vec : AklVector) : vec.ready.avMsize = vec.avMsize := by
  rw [ready]
  split <;> rfl

namespace Holds

variable {vec : AklVector} {xs : List (List UInt8)} {x : List UInt8}

theorem count_eq (holds : vec.Holds xs) : vec.avCount = UInt32.ofNat xs.length := by
  rw [← holds.count, UInt32.ofNat_toNat]

theorem ready (holds : vec.Holds xs) (fits : vec.Fits) : vec.ready.Holds xs := by
  rw [AklVector.ready]
  split
  · next need => exact (holds.grow (fits need)).1
  · exact holds

/-- The pointer of a slot that is there. -/
theorem reserve (holds : vec.Holds xs) (fits : vec.Fits)
    (spare : xs.length < vec.ready.avSize.toNat) :
    aklVectorReserve vec = (some (xs.length * vec.avMsize.toNat), vec.ready.taken) := by
  have holds' := holds.ready fits
  rw [aklVectorReserve_eq, holds'.count_eq, holds'.at_eq spare, ready_avMsize]

theorem taken_count (holds : vec.Holds xs) (spare : xs.length < vec.avSize.toNat) :
    vec.taken.avCount.toNat = xs.length + 1 := by
  have small : xs.length + 1 < 2 ^ 32 := (Nat.succ_le_of_lt spare).trans_lt vec.avSize.toNat_lt
  rw [taken, UInt32.toNat_add, holds.count]
  exact Nat.mod_eq_of_lt small

/-- An element is written to the slot that was taken. -/
theorem write (holds : vec.Holds xs) (spare : xs.length < vec.avSize.toNat)
    (size : x.length = vec.avMsize.toNat) :
    ∃ vec', vec.taken.memcpy (some (xs.length * vec.avMsize.toNat)) (x.map some)
        vec.avMsize.toNat = .ok vec' ∧ vec'.Holds (xs ++ [x]) ∧ vec'.avSize = vec.avSize ∧
      vec'.avMsize = vec.avMsize ∧ vec'.avCount = vec.taken.avCount ∧
      vec'.avVector = vec.avVector.store (xs.length * vec.avMsize.toNat) (x.map some) := by
  have inside : xs.length * vec.avMsize.toNat + vec.avMsize.toNat ≤ vec.avVector.length := by
    rw [holds.length]
    exact Slots.end_le spare _
  have lengthEq : (x.map some).length = vec.avMsize.toNat := by rw [List.length_map, size]
  refine ⟨vec.taken.stored (xs.length * vec.avMsize.toNat) (x.map some), ?_,
    ⟨?_, ?_, ?_, holds.below, holds.positive, holds.slots.concat inside size⟩, rfl, rfl, rfl, rfl⟩
  · have inside' : xs.length * vec.avMsize.toNat + vec.avMsize.toNat ≤
        vec.taken.avVector.length := inside
    rw [memcpy_inside (Nat.ne_of_gt holds.positive) inside' lengthEq.ge,
      List.take_of_length_le lengthEq.le]
  · rw [List.length_append]
    exact holds.taken_count spare
  · rw [List.length_append]
    exact spare
  · rw [stored, Block.length_store (by rwa [lengthEq])]
    exact holds.length

/-- What `akl_vector_push` does when there is a slot. -/
theorem push (holds : vec.Holds xs) (fits : vec.Fits)
    (spare : xs.length < vec.ready.avSize.toNat) (size : x.length = vec.avMsize.toNat) :
    ∃ vec', aklVectorPush vec (x.map some) = .ok (UInt32.ofNat xs.length, vec') ∧
      vec'.Holds (xs ++ [x]) ∧ vec'.avSize = vec.ready.avSize ∧ vec'.avMsize = vec.avMsize ∧
      vec'.avVector =
        vec.ready.avVector.store (xs.length * vec.avMsize.toNat) (x.map some) := by
  have holds' := holds.ready fits
  rw [← ready_avMsize] at size
  obtain ⟨vec', written, holds'', sizeEq, msizeEq, countEq, blockEq⟩ := holds'.write spare size
  have indexEq : vec'.avCount - 1 = UInt32.ofNat xs.length := by
    rw [countEq, taken, holds'.count_eq, UInt32.add_sub_cancel]
  rw [ready_avMsize] at written blockEq
  refine ⟨vec', ?_, holds'', sizeEq, msizeEq.trans (ready_avMsize vec), blockEq⟩
  rw [aklVectorPush, holds.reserve fits spare]
  simp only [taken_avMsize, ready_avMsize, written, indexEq, bind, Except.bind, pure, Except.pure]

end Holds

/-- A vector with a slot to spare. -/
structure IsStack (vec : AklVector) (xs : List (List UInt8)) : Prop where
  holds : vec.Holds xs
  spare : xs.length < vec.avSize.toNat
  several : 2 ≤ vec.avSize.toNat

namespace IsStack

variable {vec : AklVector} {xs : List (List UInt8)} {x : List UInt8}

theorem growNeed_iff (stack : vec.IsStack xs) :
    aklVectorIsGrowNeed vec = true ↔ vec.avSize.toNat ≤ xs.length + 1 := by
  have countEq : (vec.avCount + 1).toNat = xs.length + 1 :=
    stack.holds.taken_count stack.spare
  rw [aklVectorIsGrowNeed, decide_eq_true_eq, UInt32.le_iff_toNat_le, countEq]

/-- After growing there is a slot for the next element and one to spare. -/
theorem ready_spare (stack : vec.IsStack xs) (fits : vec.Fits) :
    xs.length + 1 < vec.ready.avSize.toNat := by
  have spare := stack.spare
  have several := stack.several
  rw [ready]
  split
  · next need =>
      rw [(stack.holds.grow (fits need)).2]
      omega
  · next enough =>
      rw [stack.growNeed_iff] at enough
      omega

theorem ready_several (stack : vec.IsStack xs) (fits : vec.Fits) : 2 ≤ vec.ready.avSize.toNat := by
  have several := stack.several
  rw [ready]
  split
  · next need =>
      rw [(stack.holds.grow (fits need)).2]
      omega
  · exact several

/-- Pushing gives the index of the new element. -/
theorem push (stack : vec.IsStack xs) (fits : vec.Fits) (size : x.length = vec.avMsize.toNat) :
    ∃ vec', aklVectorPush vec (x.map some) = .ok (UInt32.ofNat xs.length, vec') ∧
      vec'.IsStack (xs ++ [x]) ∧ vec'.avSize = vec.ready.avSize ∧
      vec'.avMsize = vec.avMsize := by
  have spare := stack.ready_spare fits
  obtain ⟨vec', pushed, holds, sizeEq, msizeEq, -⟩ :=
    stack.holds.push fits ((Nat.lt_succ_self _).trans spare) size
  refine ⟨vec', pushed, ⟨holds, ?_, ?_⟩, sizeEq, msizeEq⟩
  · rw [List.length_append, sizeEq]
    exact spare
  · rw [sizeEq]
    exact stack.ready_several fits

/-- A slot is taken and written to. -/
theorem reserve (stack : vec.IsStack xs) (fits : vec.Fits)
    (size : x.length = vec.avMsize.toNat) :
    ∃ ptr vec₁ vec', aklVectorReserve vec = (some ptr, vec₁) ∧
      vec₁.memcpy (some ptr) (x.map some) vec₁.avMsize.toNat = .ok vec' ∧
      vec'.IsStack (xs ++ [x]) ∧ vec'.avSize = vec.ready.avSize ∧
      vec'.avMsize = vec.avMsize := by
  have spare := stack.ready_spare fits
  have spare' := (Nat.lt_succ_self _).trans spare
  obtain ⟨vec', written, holds, sizeEq, msizeEq, -⟩ :=
    (stack.holds.ready fits).write spare' (by rwa [ready_avMsize])
  rw [ready_avMsize] at written
  refine ⟨_, _, vec', stack.holds.reserve fits spare', ?_, ⟨holds, ?_, ?_⟩, sizeEq, ?_⟩
  · rw [taken_avMsize, ready_avMsize]
    exact written
  · rw [List.length_append, sizeEq]
    exact spare
  · rw [sizeEq]
    exact stack.ready_several fits
  · rw [msizeEq, ready_avMsize]

theorem pop_nil (stack : vec.IsStack []) : aklVectorPop vec = (none, vec) := by
  rw [aklVectorPop, if_pos (show vec.avCount = 0 from stack.holds.count_eq)]

/-- Popping gives the slot of the newest element, which still has its contents. -/
theorem pop_concat (stack : vec.IsStack (xs ++ [x])) :
    ∃ ptr vec', aklVectorPop vec = (some ptr, vec') ∧ vec'.IsStack xs ∧
      vec'.member (some ptr) = some (x.map some) ∧ vec'.avSize = vec.avSize ∧
      vec'.avMsize = vec.avMsize := by
  have holds := stack.holds
  have spare := stack.spare
  have countEq := holds.count
  rw [List.length_append, List.length_singleton] at spare countEq
  have notEmpty : vec.avCount ≠ 0 := by
    intro empty
    rw [empty] at countEq
    cases countEq
  have lessEq : (vec.avCount - 1).toNat = xs.length := by
    have positive : 1 ≤ vec.avCount := by
      rw [UInt32.le_iff_toNat_le, countEq]
      exact Nat.le_add_left 1 _
    rw [UInt32.toNat_sub_of_le _ _ positive, countEq]
    rfl
  have indexEq : vec.avCount - 1 = UInt32.ofNat xs.length := by
    rw [← lessEq, UInt32.ofNat_toNat]
  have below : xs.length < vec.avSize.toNat := (Nat.lt_succ_self _).trans spare
  refine ⟨xs.length * vec.avMsize.toNat, { vec with avCount := vec.avCount - 1 }, ?_,
    ⟨⟨lessEq, below.le, holds.length, holds.below, holds.positive, holds.slots.of_append⟩, below,
      stack.several⟩, ?_, rfl, rfl⟩
  · rw [aklVectorPop, if_neg notEmpty]
    show (aklVectorAt vec (vec.avCount - 1), _) = _
    rw [indexEq, holds.at_eq below, ← indexEq]
  · have found := holds.member_at (i := xs.length) (x := x) (List.getElem?_concat_length ..)
    rwa [holds.at_eq below] at found

end IsStack

end AklVector

/-! ### Runs -/

/-- The operations of a stack; what is written to a slot that was reserved is an element. -/
inductive VectorOp where
  | push (x : List UInt8)
  | reserve (x : List UInt8)
  | pop

namespace VectorOp

/-- The operation on a vector. -/
def call (vec : AklVector) : VectorOp → Except VectorFault AklVector
  | .push x => do
      let (_, vec) ← aklVectorPush vec (x.map some)
      return vec
  | .reserve x =>
      let (ptr, vec) := aklVectorReserve vec
      vec.memcpy ptr (x.map some) vec.avMsize.toNat
  | .pop => return (aklVectorPop vec).2

/-- The operation on a sequence. -/
def after (xs : List (List UInt8)) : VectorOp → List (List UInt8)
  | .push x => xs ++ [x]
  | .reserve x => xs ++ [x]
  | .pop => xs.dropLast

/-- What is added has the size of a member. -/
def Sized (k : Nat) : VectorOp → Prop
  | .push x => x.length = k
  | .reserve x => x.length = k
  | .pop => True

instance (k : Nat) (op : VectorOp) : Decidable (op.Sized k) :=
  match op with
  | .push x => inferInstanceAs (Decidable (x.length = k))
  | .reserve x => inferInstanceAs (Decidable (x.length = k))
  | .pop => inferInstanceAs (Decidable True)

/-- The vector does not grow to 2^32 bytes or more. -/
def Fits (vec : AklVector) : VectorOp → Prop
  | .pop => True
  | _ => vec.Fits

end VectorOp

/-- One operation after the other. -/
def runVector (ops : List VectorOp) (vec : AklVector) : Except VectorFault AklVector :=
  ops.foldlM VectorOp.call vec

/-- All operations of the run keep the sizes below 2^32. -/
def FitsRun : List VectorOp → AklVector → Prop
  | [], _ => True
  | op :: ops, vec => op.Fits vec ∧ ∀ vec', op.call vec = .ok vec' → FitsRun ops vec'

namespace AklVector.IsStack

variable {vec : AklVector} {xs : List (List UInt8)}

/-- Every operation does to the vector what it does to the sequence. -/
theorem call (stack : vec.IsStack xs) {op : VectorOp} (sized : op.Sized vec.avMsize.toNat)
    (fits : op.Fits vec) :
    ∃ vec', op.call vec = .ok vec' ∧ vec'.IsStack (op.after xs) ∧
      (vec'.avSize = vec.avSize ∨ vec'.avSize = vec.ready.avSize) ∧
      vec'.avMsize = vec.avMsize := by
  cases op with
  | push x =>
      obtain ⟨vec', pushed, stack', sizeEq, msizeEq⟩ := stack.push fits sized
      refine ⟨vec', ?_, stack', .inr sizeEq, msizeEq⟩
      simp only [VectorOp.call, pushed]
      rfl
  | reserve x =>
      obtain ⟨ptr, vec₁, vec', reserved, written, stack', sizeEq, msizeEq⟩ :=
        stack.reserve fits sized
      refine ⟨vec', ?_, stack', .inr sizeEq, msizeEq⟩
      simp only [VectorOp.call, reserved, written]
  | pop =>
      cases xs using List.reverseRecOn with
      | nil =>
          refine ⟨vec, ?_, stack, .inl rfl, rfl⟩
          rw [VectorOp.call, stack.pop_nil]
          rfl
      | append_singleton xs x =>
          obtain ⟨ptr, vec', popped, stack', -, sizeEq, msizeEq⟩ := stack.pop_concat
          refine ⟨vec', ?_, ?_, .inl sizeEq, msizeEq⟩
          · rw [VectorOp.call, popped]
            rfl
          · rwa [VectorOp.after, List.dropLast_concat]

theorem run (stack : vec.IsStack xs) {ops : List VectorOp}
    (sized : ∀ op ∈ ops, op.Sized vec.avMsize.toNat) (fits : FitsRun ops vec) :
    ∃ vec', runVector ops vec = .ok vec' ∧ vec'.IsStack (ops.foldl VectorOp.after xs) ∧
      vec'.avMsize = vec.avMsize := by
  induction ops generalizing vec xs with
  | nil => exact ⟨vec, rfl, stack, rfl⟩
  | cons op ops ih =>
      obtain ⟨vec₁, called, stack₁, -, msizeEq₁⟩ := stack.call (sized op List.mem_cons_self) fits.1
      have sized₁ : ∀ op ∈ ops, op.Sized vec₁.avMsize.toNat := fun op mem =>
        msizeEq₁ ▸ sized op (List.mem_cons_of_mem _ mem)
      obtain ⟨vec', ran, stack', msizeEq⟩ := ih stack₁ sized₁ (fits.2 vec₁ called)
      refine ⟨vec', ?_, stack', msizeEq.trans msizeEq₁⟩
      rw [runVector, List.foldlM_cons, called]
      exact ran

/-- As long as there is room the vector does not grow. -/
theorem fitsRun (stack : vec.IsStack xs) {ops : List VectorOp}
    (sized : ∀ op ∈ ops, op.Sized vec.avMsize.toNat)
    (room : xs.length + ops.length + 1 < vec.avSize.toNat) : FitsRun ops vec := by
  induction ops generalizing vec xs with
  | nil => trivial
  | cons op ops ih =>
      rw [List.length_cons] at room
      have enough : ¬ aklVectorIsGrowNeed vec = true := by
        rw [stack.growNeed_iff]
        omega
      have fits : op.Fits vec := by
        cases op with
        | pop => trivial
        | push x => exact fun need => absurd need enough
        | reserve x => exact fun need => absurd need enough
      obtain ⟨vec₁, called, stack₁, sizeEq, msizeEq⟩ :=
        stack.call (sized op List.mem_cons_self) fits
      refine ⟨fits, fun vec' called' => ?_⟩
      rw [called] at called'
      cases called'
      have sizeEq' : vec₁.avSize = vec.avSize := by
        rcases sizeEq with same | grown
        · exact same
        · rw [grown, ready, if_neg enough]
      have longer : (op.after xs).length ≤ xs.length + 1 := by
        cases op <;> simp only [VectorOp.after, List.length_append, List.length_singleton,
          List.length_dropLast] <;> omega
      apply ih stack₁
      · exact fun op mem => msizeEq ▸ sized op (List.mem_cons_of_mem _ mem)
      · rw [sizeEq']
        omega

end AklVector.IsStack

/-! ### Searching -/

namespace AklVector

/-- The comparison function finds the element. -/
def Matches (cmpFn : Option (Block UInt8) → Int) (x : List UInt8) : Bool :=
  cmpFn (some (x.map some)) = 0

/-- The loop compares one element after the other. -/
theorem Holds.findFrom_eq {vec : AklVector} {xs : List (List UInt8)} (holds : vec.Holds xs)
    (cmpFn : Option (Block UInt8) → Int) {before behind : List (List UInt8)}
    (split : xs = before ++ behind) :
    findFrom vec cmpFn behind.length (UInt32.ofNat before.length) =
      match behind.findIdx? (Matches cmpFn) with
      | some j => (aklVectorAt vec (UInt32.ofNat (before.length + j)),
          (UInt32.ofNat (before.length + j)).toInt32.toInt)
      | none => (none, -1) := by
  induction behind generalizing before with
  | nil => rfl
  | cons x behind ih =>
      have found : xs[before.length]? = some x := by simp [split]
      have rest := @ih (before ++ [x]) (by simp [split])
      rw [List.length_append, List.length_singleton] at rest
      rw [List.length_cons, findFrom, holds.member_at found, List.findIdx?_cons]
      by_cases hit : cmpFn (some (x.map some)) = 0
      · simp [hit, Matches]
      · have nextEq : UInt32.ofNat before.length + 1 = UInt32.ofNat (before.length + 1) := by
          rw [UInt32.ofNat_add]
          rfl
        rw [if_neg hit, nextEq, rest]
        cases behind.findIdx? (Matches cmpFn) with
        | none => simp [hit, Matches]
        | some j => simp [hit, Matches, Nat.add_assoc, Nat.add_comm 1]

/-- What `akl_vector_find` gives. -/
theorem Holds.find_eq {vec : AklVector} {xs : List (List UInt8)} (holds : vec.Holds xs)
    (cmpFn : Option (Block UInt8) → Int) :
    aklVectorFind vec cmpFn =
      match xs.findIdx? (Matches cmpFn) with
      | some i => (aklVectorAt vec (UInt32.ofNat i), (UInt32.ofNat i).toInt32.toInt)
      | none => (none, -1) := by
  have split : xs = [] ++ xs := rfl
  have loop := holds.findFrom_eq cmpFn split
  simp only [List.length_nil, Nat.zero_add] at loop
  rw [aklVectorFind, holds.count]
  exact loop

end AklVector

/-- An index fits an `int` below 2^31. -/
theorem toInt32_index_iff {i : Nat} (small : i < 2 ^ 32) :
    (UInt32.ofNat i).toInt32.toInt = i ↔ i < 2 ^ 31 := by
  have value : (UInt32.ofNat i).toInt32.toInt =
      if 2 * (UInt32.ofNat i).toNat < 2 ^ 32 then ((UInt32.ofNat i).toNat : Int)
      else (UInt32.ofNat i).toNat - 2 ^ 32 :=
    BitVec.toInt_eq_toNat_cond _
  rw [value, UInt32.toNat_ofNat_of_lt' small]
  split <;> omega

/-! ### The growing stack -/

/-- The vector behaves as the sequence `xs` does. -/
structure VectorIsStack (vec : AklVector) (xs : List (List UInt8))
    (cmpFn : Option (Block UInt8) → Int) : Prop where
  count : vec.avCount.toNat = xs.length
  bounded : vec.avCount ≤ vec.avSize
  elements : ∀ i x, xs[i]? = some x →
    vec.member (aklVectorAt vec (UInt32.ofNat i)) = some (x.map some)
  push : ∀ x : List UInt8, x.length = vec.avMsize.toNat → vec.Fits →
    ∃ i vec', aklVectorPush vec (x.map some) = .ok (i, vec') ∧ i.toNat = xs.length
  reserve : vec.Fits → ∃ ptr vec', aklVectorReserve vec = (some ptr, vec')
  popEmpty : xs = [] → (aklVectorPop vec).1 = none
  pop : ∀ ys x, xs = ys ++ [x] → ∃ ptr vec', aklVectorPop vec = (some ptr, vec') ∧
    vec'.member (some ptr) = some (x.map some)
  found : ∀ i, xs.findIdx? (AklVector.Matches cmpFn) = some i →
    aklVectorFind vec cmpFn = (aklVectorAt vec (UInt32.ofNat i), (i : Int))
  missing : xs.findIdx? (AklVector.Matches cmpFn) = none → aklVectorFind vec cmpFn = (none, -1)

namespace AklVector

variable {vec : AklVector} {xs : List (List UInt8)}

/-- The vector is a stack but for the index that is assigned to an `int`. -/
theorem IsStack.vectorIsStack_iff (stack : vec.IsStack xs)
    (cmpFn : Option (Block UInt8) → Int) : VectorIsStack vec xs cmpFn ↔
      ∀ i, xs.findIdx? (Matches cmpFn) = some i → i < 2 ^ 31 := by
  have holds := stack.holds
  have small {i : Nat} (hit : xs.findIdx? (Matches cmpFn) = some i) : i < 2 ^ 32 := by
    have bound := (List.findIdx?_eq_some_iff_getElem.mp hit).1
    exact (bound.trans_le holds.room).trans vec.avSize.toNat_lt
  constructor
  · intro behaves i hit
    have given := behaves.found i hit
    rw [holds.find_eq, hit] at given
    exact (toInt32_index_iff (small hit)).mp (congrArg Prod.snd given)
  · intro low
    constructor
    · exact holds.count
    · rw [UInt32.le_iff_toNat_le, holds.count]
      exact holds.room
    · exact fun i x found => holds.member_at found
    · intro x size fits
      obtain ⟨vec', pushed, -⟩ := stack.push fits size
      refine ⟨_, vec', pushed, ?_⟩
      rw [← holds.count, UInt32.ofNat_toNat]
    · intro fits
      exact ⟨_, _, holds.reserve fits ((Nat.lt_succ_self _).trans (stack.ready_spare fits))⟩
    · rintro rfl
      rw [stack.pop_nil]
    · rintro ys x rfl
      obtain ⟨ptr, vec', popped, -, contents, -⟩ := stack.pop_concat
      exact ⟨ptr, vec', popped, contents⟩
    · intro i hit
      rw [holds.find_eq, hit]
      exact congrArg _ ((toInt32_index_iff (small hit)).mpr (low i hit))
    · intro none
      rw [holds.find_eq, none]

/-- A new vector is empty. -/
theorem holds_init {nmemb size : UInt32}
    (below : (aklInitVector nmemb size).avSize.toNat *
      (aklInitVector nmemb size).avMsize.toNat < 2 ^ 32) :
    (aklInitVector nmemb size).Holds [] where
  count := rfl
  room := Nat.zero_le _
  length := List.length_replicate ..
  below := below
  positive := by
    show 0 < (if size = 0 then pointerSize else size).toNat
    split
    · decide
    · next notZero =>
        rw [Nat.pos_iff_ne_zero]
        exact fun zero => notZero (UInt32.toNat_inj.mp zero)
  slots := .nil _ _

/-- A new vector with room for two is an empty stack. -/
theorem isStack_init {nmemb size : UInt32} (several : nmemb = 0 ∨ 2 ≤ nmemb)
    (below : (aklInitVector nmemb size).avSize.toNat *
      (aklInitVector nmemb size).avMsize.toNat < 2 ^ 32) :
    (aklInitVector nmemb size).IsStack [] := by
  have two : 2 ≤ (aklInitVector nmemb size).avSize.toNat := by
    rcases several with rfl | two
    · exact show 2 ≤ aklVectorDefsize.toNat by decide
    · have notZero : nmemb ≠ 0 := by
        rintro rfl
        cases two
      simpa [aklInitVector, notZero] using UInt32.le_iff_toNat_le.mp two
  exact ⟨holds_init below, Nat.zero_lt_of_lt two, two⟩

end AklVector

/-- After every sequence of operations on a vector that was created with the default
capacity or at least 2 the vector is a stack of its elements, exactly when the first match
has an index below 2^31. -/
theorem vector_is_stack_iff {nmemb size : UInt32} (several : nmemb = 0 ∨ 2 ≤ nmemb)
    (below : (aklInitVector nmemb size).avSize.toNat *
      (aklInitVector nmemb size).avMsize.toNat < 2 ^ 32) {ops : List VectorOp}
    (sized : ∀ op ∈ ops, op.Sized (aklInitVector nmemb size).avMsize.toNat)
    (fits : FitsRun ops (aklInitVector nmemb size)) (cmpFn : Option (Block UInt8) → Int) :
    ∃ vec, runVector ops (aklInitVector nmemb size) = .ok vec ∧
      (VectorIsStack vec (ops.foldl VectorOp.after []) cmpFn ↔
        ∀ i, (ops.foldl VectorOp.after []).findIdx? (AklVector.Matches cmpFn) = some i →
          i < 2 ^ 31) := by
  obtain ⟨vec, ran, stack, -⟩ := (AklVector.isStack_init several below).run sized fits
  exact ⟨vec, ran, stack.vectorIsStack_iff cmpFn⟩

theorem vector_is_stack_default : ∃ vec,
    runVector [.push [1], .push [2], .pop] (aklInitVector 0 1) = .ok vec ∧
      (VectorIsStack vec [[1]] (fun _ => 1) ↔
        ∀ i, [[1]].findIdx? (AklVector.Matches fun _ => 1) = some i → i < 2 ^ 31) :=
  vector_is_stack_iff (.inl rfl) (by decide) (by decide)
    ((AklVector.isStack_init (.inl rfl) (by decide)).fitsRun (by decide) (by decide)) (fun _ => 1)

/-- The comparison function finds the byte 1. -/
def findOne (m : Option (Block UInt8)) : Int := if m = some [some 1] then 0 else 1

/-- Pushing adds the elements in order. -/
theorem foldl_push (xs ys : List (List UInt8)) :
    (ys.map VectorOp.push).foldl VectorOp.after xs = xs ++ ys := by
  induction ys generalizing xs with
  | nil => simp
  | cons y ys ih => rw [List.map_cons, List.foldl_cons, ih, VectorOp.after, List.append_assoc]; rfl

/-- Behind `n` zeros the first byte 1 has the index `n`. -/
theorem findIdx?_zeros (n : Nat) :
    (List.replicate n [(0 : UInt8)] ++ [[1]]).findIdx? (AklVector.Matches findOne) = some n := by
  induction n with
  | zero => rfl
  | succ n ih =>
      rw [List.replicate_succ, List.cons_append, List.findIdx?_cons, ih]
      rfl

/-- Zeros and a one are pushed on a large vector. -/
theorem push_zeros {n : Nat} (room : n + 2 < 3000000000) :
    FitsRun ((List.replicate n [(0 : UInt8)] ++ [[1]]).map VectorOp.push)
        (aklInitVector 3000000000 1) ∧
      ∃ vec, runVector ((List.replicate n [(0 : UInt8)] ++ [[1]]).map VectorOp.push)
          (aklInitVector 3000000000 1) = .ok vec ∧
        vec.IsStack (List.replicate n [0] ++ [[1]]) := by
  have stack : (aklInitVector 3000000000 1).IsStack [] :=
    AklVector.isStack_init (.inr (by decide)) (by decide)
  have sized : ∀ op ∈ (List.replicate n [(0 : UInt8)] ++ [[1]]).map VectorOp.push,
      op.Sized (aklInitVector 3000000000 1).avMsize.toNat := by
    intro op mem
    obtain ⟨x, inside, rfl⟩ := List.mem_map.mp mem
    rcases List.mem_append.mp inside with zero | one
    · rw [List.eq_of_mem_replicate zero]
      rfl
    · rw [List.mem_singleton.mp one]
      rfl
  have fits := stack.fitsRun sized (by
    rw [List.length_map, List.length_append, List.length_replicate, List.length_singleton,
      List.length_nil]
    exact (by omega : 0 + (n + 1) + 1 < 3000000000))
  obtain ⟨vec, ran, stack', -⟩ := stack.run sized fits
  rw [foldl_push, List.nil_append] at stack'
  exact ⟨fits, vec, ran, stack'⟩

/-- Among one-byte members of a vector of 3000000000, behind 2^31 zeros, the first byte 1 is
found, but its index is not that of the `int`. -/
theorem vector_find_negative :
    FitsRun ((List.replicate (2 ^ 31) [(0 : UInt8)] ++ [[1]]).map VectorOp.push)
        (aklInitVector 3000000000 1) ∧
      ∃ vec, runVector ((List.replicate (2 ^ 31) [(0 : UInt8)] ++ [[1]]).map VectorOp.push)
          (aklInitVector 3000000000 1) = .ok vec ∧
        ¬ VectorIsStack vec (List.replicate (2 ^ 31) [0] ++ [[1]]) findOne := by
  obtain ⟨fits, vec, ran, stack⟩ := push_zeros (by decide : 2 ^ 31 + 2 < 3000000000)
  refine ⟨fits, vec, ran, fun behaves => ?_⟩
  exact Nat.lt_irrefl _ ((stack.vectorIsStack_iff findOne).mp behaves _ (findIdx?_zeros _))

end AkLisp
