import AkLisp.Linked.Memory
import Mathlib.Data.Finset.Card
import Mathlib.Data.Finset.Range
import Mathlib.Algebra.Group.Nat.Defs

/-!
# A pool of the garbage collector

A pool has 64 slots and a bitmap of two 32-bit words that says which of them
are in use.  `av_count` is kept beside the bitmap; it counts the set bits as
long as only free slots are taken and only used ones are given back.
-/

namespace AkLisp

open Linked

/-- `AKL_GC_POOL_SIZE`. -/
def aklGcPoolSize : Nat := 64

/-- `BITS_IN_UINT`. -/
def bitsInUint : Nat := 32

/-- `1 << n`, where the processor shifts by `n` modulo 32. -/
def bitMask (n : Nat) : BitVec 32 :=
  1#32 <<< (n % bitsInUint)

/-- `struct akl_gc_pool`.  The words of `gp_freemap` from 2 on lie behind the
pool. -/
structure GcPool where
  avCount : UInt32
  gpNext : Option Addr
  gpFreemap : Nat → BitVec 32

instance : Inhabited GcPool := ⟨⟨0, none, fun _ => 0⟩⟩

/-- `akl_gc_pool_in_use`. -/
def aklGcPoolInUse (p : GcPool) (ind : Nat) : Bool :=
  (p.gpFreemap (ind / bitsInUint) &&& bitMask ind) != 0

/-- `akl_gc_pool_use`. -/
def aklGcPoolUse (p : GcPool) (ind : Nat) : GcPool :=
  { p with
    avCount := p.avCount + 1
    gpFreemap := Function.update p.gpFreemap (ind / bitsInUint)
      (p.gpFreemap (ind / bitsInUint) ||| bitMask ind) }

/-- `akl_gc_pool_clear_use`. -/
def aklGcPoolClearUse (p : GcPool) (ind : Nat) : GcPool :=
  { p with
    avCount := p.avCount - 1
    gpFreemap := Function.update p.gpFreemap (ind / bitsInUint)
      (p.gpFreemap (ind / bitsInUint) &&& ~~~ bitMask ind) }

/-- `akl_gc_pool_have_free`. -/
def aklGcPoolHaveFree (p : GcPool) : Bool :=
  (List.range (aklGcPoolSize / bitsInUint)).any fun i => p.gpFreemap i != BitVec.allOnes 32

/-- `akl_gc_pool_find_free`; `none` stands for `-1`. -/
def aklGcPoolFindFree (p : GcPool) : Option Nat :=
  if p.avCount.toInt32 < 64 ∧ aklGcPoolInUse p p.avCount.toNat = false then
    some p.avCount.toNat
  else
    (List.range (aklGcPoolSize / bitsInUint)).findSome? fun i =>
      if p.gpFreemap i != BitVec.allOnes 32 then
        (List.range bitsInUint).find? fun j => (p.gpFreemap i &&& bitMask j) == 0
      else none

/-! ## Bits of a word -/

theorem bitMask_eq (n : Nat) : bitMask n = BitVec.twoPow 32 (n % 32) := by
  simp [bitMask, bitsInUint, BitVec.twoPow]

/-- The mask expression tests one bit. -/
theorem and_bitMask_eq_zero (w : BitVec 32) (n : Nat) :
    w &&& bitMask n = 0 ↔ w.getLsbD (n % 32) = false := by
  have bound : n % 32 < 32 := Nat.mod_lt n (by decide)
  rw [bitMask_eq, BitVec.and_twoPow]
  by_cases set : w.getLsbD (n % 32) = true
  · have twoPowNe : BitVec.twoPow 32 (n % 32) ≠ 0#32 := by
      intro equal
      have bitEq := congrArg (fun v => v.getLsbD (n % 32)) equal
      simp [bound] at bitEq
    simp [set, twoPowNe]
  · simp [set]

theorem getLsbD_bitMask (n j : Nat) (bound : j < 32) :
    (bitMask n).getLsbD j = decide (n % 32 = j) := by
  rw [bitMask_eq, BitVec.getLsbD_twoPow]
  have small : n % 32 < 32 := Nat.mod_lt n (by decide)
  by_cases equal : n % 32 = j
  · simp [equal, bound]
  · simp [equal]

/-- A slot is in use when its bit in its word is set. -/
theorem aklGcPoolInUse_eq (p : GcPool) (ind : Nat) :
    aklGcPoolInUse p ind = (p.gpFreemap (ind / 32)).getLsbD (ind % 32) := by
  have tested := and_bitMask_eq_zero (p.gpFreemap (ind / 32)) ind
  unfold aklGcPoolInUse bitsInUint
  cases bitEq : (p.gpFreemap (ind / 32)).getLsbD (ind % 32) with
  | false => simpa using tested.mpr bitEq
  | true =>
      have notZero : ¬ (p.gpFreemap (ind / 32) &&& bitMask ind) = 0 := by
        intro zero
        rw [tested.mp zero] at bitEq
        cases bitEq
      simpa using notZero

theorem slot_eq_iff (i j : Nat) : i = j ↔ i / 32 = j / 32 ∧ i % 32 = j % 32 := by
  constructor
  · rintro rfl
    exact ⟨rfl, rfl⟩
  · rintro ⟨word, bit⟩
    rw [← Nat.div_add_mod i 32, ← Nat.div_add_mod j 32, word, bit]

theorem aklGcPoolUse_word (p : GcPool) (i k : Nat) :
    (aklGcPoolUse p i).gpFreemap k =
      if k = i / 32 then p.gpFreemap k ||| bitMask i else p.gpFreemap k := by
  simp only [aklGcPoolUse, bitsInUint, Function.update_apply]
  split
  · next equal => rw [equal]
  · rfl

theorem aklGcPoolClearUse_word (p : GcPool) (i k : Nat) :
    (aklGcPoolClearUse p i).gpFreemap k =
      if k = i / 32 then p.gpFreemap k &&& ~~~ bitMask i else p.gpFreemap k := by
  simp only [aklGcPoolClearUse, bitsInUint, Function.update_apply]
  split
  · next equal => rw [equal]
  · rfl

/-- Taking a slot sets its bit and no other. -/
theorem aklGcPoolInUse_use (p : GcPool) (i j : Nat) :
    aklGcPoolInUse (aklGcPoolUse p i) j = (decide (i = j) || aklGcPoolInUse p j) := by
  have bound : j % 32 < 32 := Nat.mod_lt j (by decide)
  rw [aklGcPoolInUse_eq, aklGcPoolInUse_eq, aklGcPoolUse_word]
  by_cases word : j / 32 = i / 32
  · have sameSlot : decide (i % 32 = j % 32) = decide (i = j) := by
      rw [decide_eq_decide, slot_eq_iff i j]
      exact (and_iff_right word.symm).symm
    rw [if_pos word, BitVec.getLsbD_or, getLsbD_bitMask i _ bound, sameSlot, Bool.or_comm]
  · have ne : i ≠ j := fun equal => word (equal ▸ rfl)
    rw [if_neg word, decide_eq_false ne, Bool.false_or]

/-- Giving a slot back clears its bit and no other. -/
theorem aklGcPoolInUse_clearUse (p : GcPool) (i j : Nat) :
    aklGcPoolInUse (aklGcPoolClearUse p i) j = (!decide (i = j) && aklGcPoolInUse p j) := by
  have bound : j % 32 < 32 := Nat.mod_lt j (by decide)
  rw [aklGcPoolInUse_eq, aklGcPoolInUse_eq, aklGcPoolClearUse_word]
  by_cases word : j / 32 = i / 32
  · have sameSlot : decide (i % 32 = j % 32) = decide (i = j) := by
      rw [decide_eq_decide, slot_eq_iff i j]
      exact (and_iff_right word.symm).symm
    rw [if_pos word, BitVec.getLsbD_and, BitVec.getLsbD_not, getLsbD_bitMask i _ bound, sameSlot,
      decide_eq_true bound, Bool.true_and, Bool.and_comm]
  · have ne : i ≠ j := fun equal => word (equal ▸ rfl)
    rw [if_neg word, decide_eq_false ne, Bool.not_false, Bool.true_and]

/-- A word that is not full has a clear bit. -/
theorem exists_clear_bit {w : BitVec 32} (room : w ≠ BitVec.allOnes 32) :
    ∃ j < 32, w.getLsbD j = false := by
  by_contra full
  push Not at full
  apply room
  apply BitVec.eq_of_getLsbD_eq
  intro j bound
  rw [BitVec.getLsbD_allOnes, decide_eq_true bound]
  simpa using full j bound

/-! ## Finding a free slot -/

theorem aklGcPoolHaveFree_iff (p : GcPool) :
    aklGcPoolHaveFree p = true ↔
      p.gpFreemap 0 ≠ BitVec.allOnes 32 ∨ p.gpFreemap 1 ≠ BitVec.allOnes 32 := by
  have words : List.range (aklGcPoolSize / bitsInUint) = [0, 1] := rfl
  rw [aklGcPoolHaveFree, words]
  simp

/-- A pool has room when one of its 64 slots is free. -/
theorem aklGcPoolHaveFree_iff_exists (p : GcPool) :
    aklGcPoolHaveFree p = true ↔ ∃ ind < 64, aklGcPoolInUse p ind = false := by
  rw [aklGcPoolHaveFree_iff]
  constructor
  · rintro (room | room)
    · obtain ⟨j, bound, clear⟩ := exists_clear_bit room
      refine ⟨j, by omega, ?_⟩
      rw [aklGcPoolInUse_eq, Nat.div_eq_of_lt bound, Nat.mod_eq_of_lt bound, clear]
    · obtain ⟨j, bound, clear⟩ := exists_clear_bit room
      refine ⟨32 + j, by omega, ?_⟩
      have word : (32 + j) / 32 = 1 := by omega
      have bit : (32 + j) % 32 = j := by omega
      rw [aklGcPoolInUse_eq, word, bit, clear]
  · rintro ⟨ind, bound, free⟩
    by_contra full
    push Not at full
    have word : ind / 32 = 0 ∨ ind / 32 = 1 := by omega
    have small : ind % 32 < 32 := Nat.mod_lt ind (by decide)
    rw [aklGcPoolInUse_eq] at free
    rcases word with word | word
    · rw [word, full.1, BitVec.getLsbD_allOnes, decide_eq_true small] at free
      cases free
    · rw [word, full.2, BitVec.getLsbD_allOnes, decide_eq_true small] at free
      cases free

/-- The slots in use. -/
def GcPool.used (p : GcPool) : Finset Nat :=
  (Finset.range 64).filter fun j => aklGcPoolInUse p j = true

/-- The element count is the number of slots in use. -/
def GcPool.Counted (p : GcPool) : Prop :=
  p.avCount = UInt32.ofNat p.used.card

theorem GcPool.mem_used {p : GcPool} {j : Nat} :
    j ∈ p.used ↔ j < 64 ∧ aklGcPoolInUse p j = true := by
  rw [GcPool.used, Finset.mem_filter, Finset.mem_range]

theorem GcPool.card_used_le (p : GcPool) : p.used.card ≤ 64 := by
  have bound := Finset.card_filter_le (Finset.range 64) fun j => aklGcPoolInUse p j = true
  rwa [Finset.card_range] at bound

/-- Nothing is in use in a pool with a zero bitmap. -/
theorem aklGcPoolInUse_zero (avCount : UInt32) (next : Option Addr) (ind : Nat) :
    aklGcPoolInUse ⟨avCount, next, fun _ => 0⟩ ind = false := by
  rw [aklGcPoolInUse_eq]
  exact BitVec.getLsbD_zero

theorem GcPool.Counted.of_free {p : GcPool} (count : p.avCount = 0)
    (free : ∀ ind < 64, aklGcPoolInUse p ind = false) : p.Counted := by
  have usedEq : p.used = ∅ := by
    apply Finset.filter_eq_empty_iff.mpr
    intro j mem
    rw [free j (Finset.mem_range.mp mem)]
    decide
  unfold GcPool.Counted
  rw [usedEq, count]
  rfl

theorem GcPool.Counted.zero (next : Option Addr) :
    (⟨0, next, fun _ => 0⟩ : GcPool).Counted :=
  .of_free rfl fun ind _ => aklGcPoolInUse_zero 0 next ind

/-- Taking a free slot counts it. -/
theorem GcPool.Counted.use {p : GcPool} {ind : Nat} (counted : p.Counted) (bound : ind < 64)
    (free : aklGcPoolInUse p ind = false) : (aklGcPoolUse p ind).Counted := by
  have usedEq : (aklGcPoolUse p ind).used = insert ind p.used := by
    ext j
    rw [Finset.mem_insert, GcPool.mem_used, GcPool.mem_used, aklGcPoolInUse_use, Bool.or_eq_true,
      decide_eq_true_eq]
    constructor
    · rintro ⟨small, equal | used⟩
      · exact Or.inl equal.symm
      · exact Or.inr ⟨small, used⟩
    · rintro (rfl | ⟨small, used⟩)
      · exact ⟨bound, Or.inl rfl⟩
      · exact ⟨small, Or.inr used⟩
  have notMem : ind ∉ p.used := by
    rw [GcPool.mem_used, free]
    simp
  unfold GcPool.Counted
  rw [usedEq, Finset.card_insert_of_notMem notMem, UInt32.ofNat_add]
  show p.avCount + 1 = _
  rw [counted]
  rfl

/-- Giving a used slot back discounts it. -/
theorem GcPool.Counted.clearUse {p : GcPool} {ind : Nat} (counted : p.Counted) (bound : ind < 64)
    (taken : aklGcPoolInUse p ind = true) : (aklGcPoolClearUse p ind).Counted := by
  have usedEq : (aklGcPoolClearUse p ind).used = p.used.erase ind := by
    ext j
    rw [Finset.mem_erase, GcPool.mem_used, GcPool.mem_used, aklGcPoolInUse_clearUse,
      Bool.and_eq_true, Bool.not_eq_true', decide_eq_false_iff_not]
    constructor
    · rintro ⟨small, ne, used⟩
      exact ⟨Ne.symm ne, small, used⟩
    · rintro ⟨ne, small, used⟩
      exact ⟨small, Ne.symm ne, used⟩
  have mem : ind ∈ p.used := GcPool.mem_used.mpr ⟨bound, taken⟩
  unfold GcPool.Counted
  rw [usedEq]
  show p.avCount - 1 = _
  rw [counted, ← Finset.card_erase_add_one mem, UInt32.ofNat_add]
  simp

/-- `int cnt` is the count itself as long as the count does not reach the sign. -/
theorem toInt32_lt_iff {count : UInt32} (small : count.toNat < 2 ^ 31) :
    count.toInt32 < 64 ↔ count.toNat < 64 := by
  have signed : count.toInt32.toInt = count.toNat :=
    BitVec.toInt_eq_toNat_of_lt (Nat.mul_lt_mul_of_pos_left small (by decide))
  rw [Int32.lt_iff_toInt_lt, signed]
  exact Int.ofNat_lt

theorem GcPool.Counted.toNat {p : GcPool} (counted : p.Counted) :
    p.avCount.toNat = p.used.card := by
  have bound := p.card_used_le
  rw [counted, UInt32.toNat_ofNat']
  exact Nat.mod_eq_of_lt (by omega)

theorem GcPool.Counted.small {p : GcPool} (counted : p.Counted) : p.avCount.toNat < 2 ^ 31 := by
  rw [counted.toNat]
  exact Nat.lt_of_le_of_lt p.card_used_le (by decide)

/-- The slot behind the counted ones is free, or the first word has a free bit. -/
def GcPool.FindsFree (p : GcPool) : Prop :=
  (p.avCount.toNat < 64 ∧ aklGcPoolInUse p p.avCount.toNat = false) ∨
    p.gpFreemap 0 ≠ BitVec.allOnes 32

/-- The scan of one word that is not full. -/
theorem find_clear_bit {w : BitVec 32} (room : w ≠ BitVec.allOnes 32) :
    ∃ j < 32, ((List.range bitsInUint).find? fun j => (w &&& bitMask j) == 0) = some j ∧
      w.getLsbD j = false := by
  obtain ⟨k, bound, clear⟩ := exists_clear_bit room
  have tests : ∀ j < 32, ((w &&& bitMask j) == 0) = !w.getLsbD j := by
    intro j small
    have tested := and_bitMask_eq_zero w j
    rw [Nat.mod_eq_of_lt small] at tested
    cases bitEq : w.getLsbD j with
    | false => simpa using tested.mpr bitEq
    | true =>
        have notZero : ¬ (w &&& bitMask j) = 0 := by
          intro zero
          rw [tested.mp zero] at bitEq
          cases bitEq
        simpa using notZero
  cases found : (List.range bitsInUint).find? fun j => (w &&& bitMask j) == 0 with
  | none =>
      have failed := List.find?_eq_none.mp found k (List.mem_range.mpr bound)
      rw [tests k bound, clear] at failed
      exact absurd rfl failed
  | some j =>
      have small : j < 32 := List.mem_range.mp (List.mem_of_find?_eq_some found)
      have tested := List.find?_some found
      rw [tests j small] at tested
      exact ⟨j, small, rfl, by simpa using tested⟩

/-- The scan of the bitmap stops at a clear bit of the first word. -/
theorem scan_first_word {p : GcPool} (first : p.gpFreemap 0 ≠ BitVec.allOnes 32) :
    ∃ j < 32, ((List.range (aklGcPoolSize / bitsInUint)).findSome? fun i =>
      if p.gpFreemap i != BitVec.allOnes 32 then
        (List.range bitsInUint).find? fun j => (p.gpFreemap i &&& bitMask j) == 0
      else none) = some j ∧ (p.gpFreemap 0).getLsbD j = false := by
  have words : List.range (aklGcPoolSize / bitsInUint) = [0, 1] := rfl
  have room : (p.gpFreemap 0 != BitVec.allOnes 32) = true := bne_iff_ne.mpr first
  obtain ⟨j, small, found, clear⟩ := find_clear_bit first
  refine ⟨j, small, ?_, clear⟩
  rw [words]
  simp only [List.findSome?_cons, room, if_true, found]

/-- When the first word is full it stops in the second one. -/
theorem scan_second_word {p : GcPool} (first : p.gpFreemap 0 = BitVec.allOnes 32)
    (second : p.gpFreemap 1 ≠ BitVec.allOnes 32) :
    ∃ j < 32, ((List.range (aklGcPoolSize / bitsInUint)).findSome? fun i =>
      if p.gpFreemap i != BitVec.allOnes 32 then
        (List.range bitsInUint).find? fun j => (p.gpFreemap i &&& bitMask j) == 0
      else none) = some j := by
  have words : List.range (aklGcPoolSize / bitsInUint) = [0, 1] := rfl
  have full : (p.gpFreemap 0 != BitVec.allOnes 32) = false := bne_eq_false_iff_eq.mpr first
  have room : (p.gpFreemap 1 != BitVec.allOnes 32) = true := bne_iff_ne.mpr second
  obtain ⟨j, small, found, -⟩ := find_clear_bit second
  refine ⟨j, small, ?_⟩
  rw [words]
  simp only [List.findSome?_cons, full, room, if_true, found, Bool.false_eq_true, if_false]

/-- A pool with room always yields a slot. -/
theorem aklGcPoolFindFree_isSome {p : GcPool} (room : aklGcPoolHaveFree p = true) :
    ∃ ind, aklGcPoolFindFree p = some ind := by
  unfold aklGcPoolFindFree
  split
  · exact ⟨p.avCount.toNat, rfl⟩
  · by_cases first : p.gpFreemap 0 = BitVec.allOnes 32
    · have second := ((aklGcPoolHaveFree_iff p).mp room).resolve_left fun ne => ne first
      obtain ⟨j, -, found⟩ := scan_second_word first second
      exact ⟨j, found⟩
    · obtain ⟨j, -, found, -⟩ := scan_first_word first
      exact ⟨j, found⟩

/-- The slot is a free one exactly when the count or the first word leads to it. -/
theorem aklGcPoolFindFree_spec {p : GcPool} (small : p.avCount.toNat < 2 ^ 31)
    (room : aklGcPoolHaveFree p = true) :
    ∃ ind < 64, aklGcPoolFindFree p = some ind ∧
      (aklGcPoolInUse p ind = false ↔ p.FindsFree) := by
  have next : p.avCount.toInt32 < 64 ↔ p.avCount.toNat < 64 := toInt32_lt_iff small
  unfold aklGcPoolFindFree
  by_cases byCount : p.avCount.toNat < 64 ∧ aklGcPoolInUse p p.avCount.toNat = false
  · refine ⟨p.avCount.toNat, byCount.1, ?_, ?_⟩
    · rw [if_pos ⟨next.mpr byCount.1, byCount.2⟩]
    · exact iff_of_true byCount.2 (Or.inl byCount)
  · have notNext : ¬ (p.avCount.toInt32 < 64 ∧ aklGcPoolInUse p p.avCount.toNat = false) :=
      fun both => byCount ⟨next.mp both.1, both.2⟩
    rw [if_neg notNext]
    by_cases first : p.gpFreemap 0 = BitVec.allOnes 32
    · -- the bit found in the second word is taken for a slot of the first
      have second := ((aklGcPoolHaveFree_iff p).mp room).resolve_left fun ne => ne first
      obtain ⟨j, small, found⟩ := scan_second_word first second
      refine ⟨j, by omega, found, ?_⟩
      have taken : aklGcPoolInUse p j = true := by
        rw [aklGcPoolInUse_eq, Nat.div_eq_of_lt small, Nat.mod_eq_of_lt small, first,
          BitVec.getLsbD_allOnes, decide_eq_true small]
      apply iff_of_false
      · rw [taken]
        decide
      · rintro (count | word)
        · exact byCount count
        · exact word first
    · obtain ⟨j, small, found, clear⟩ := scan_first_word first
      refine ⟨j, by omega, found, ?_⟩
      apply iff_of_true
      · rw [aklGcPoolInUse_eq, Nat.div_eq_of_lt small, Nat.mod_eq_of_lt small, clear]
      · exact Or.inr first

/-- When the first `n` slots are in use the count is `n`. -/
theorem GcPool.Counted.toNat_eq {p : GcPool} (counted : p.Counted) {n : Nat} (bound : n ≤ 64)
    (filled : ∀ ind < 64, aklGcPoolInUse p ind = decide (ind < n)) : p.avCount.toNat = n := by
  have usedEq : p.used = Finset.range n := by
    ext ind
    rw [GcPool.mem_used, Finset.mem_range]
    constructor
    · rintro ⟨small, taken⟩
      rw [filled ind small] at taken
      exact of_decide_eq_true taken
    · intro less
      have small : ind < 64 := Nat.lt_of_lt_of_le less bound
      exact ⟨small, by rw [filled ind small, decide_eq_true less]⟩
  rw [counted.toNat, usedEq, Finset.card_range]

/-- Then the next slot is found. -/
theorem aklGcPoolFindFree_next {p : GcPool} (counted : p.Counted) {n : Nat} (bound : n < 64)
    (filled : ∀ ind < 64, aklGcPoolInUse p ind = decide (ind < n)) :
    aklGcPoolFindFree p = some n := by
  have count := counted.toNat_eq (Nat.le_of_lt bound) filled
  have next : p.avCount.toInt32 < 64 := by
    rw [toInt32_lt_iff counted.small, count]
    exact bound
  have free : aklGcPoolInUse p n = false := by
    rw [filled n bound, decide_eq_false (Nat.lt_irrefl n)]
  rw [aklGcPoolFindFree, count, if_pos ⟨next, free⟩]

/-! ## A pool with room and a pool without -/

/-- A pool has no room when all of its 64 slots are in use. -/
theorem aklGcPoolHaveFree_eq_false_iff (p : GcPool) :
    aklGcPoolHaveFree p = false ↔ ∀ ind < 64, aklGcPoolInUse p ind = true := by
  rw [← Bool.not_eq_true, aklGcPoolHaveFree_iff_exists]
  simp

/-- The first word has a clear bit when one of the first 32 slots is free. -/
theorem first_word_iff (p : GcPool) :
    p.gpFreemap 0 ≠ BitVec.allOnes 32 ↔ ∃ ind < 32, aklGcPoolInUse p ind = false := by
  have slot {ind : Nat} (bound : ind < 32) :
      aklGcPoolInUse p ind = (p.gpFreemap 0).getLsbD ind := by
    rw [aklGcPoolInUse_eq, Nat.div_eq_of_lt bound, Nat.mod_eq_of_lt bound]
  constructor
  · intro room
    obtain ⟨ind, bound, clear⟩ := exists_clear_bit room
    exact ⟨ind, bound, (slot bound).trans clear⟩
  · rintro ⟨ind, bound, free⟩ full
    rw [slot bound, full, BitVec.getLsbD_allOnes, decide_eq_true bound] at free
    cases free

/-- In a pool without room neither the count nor the scan leads to a slot. -/
theorem aklGcPoolFindFree_full {p : GcPool} (small : p.avCount.toNat < 2 ^ 31)
    (full : aklGcPoolHaveFree p = false) : aklGcPoolFindFree p = none := by
  have taken := (aklGcPoolHaveFree_eq_false_iff p).mp full
  have notNext : ¬ (p.avCount.toInt32 < 64 ∧ aklGcPoolInUse p p.avCount.toNat = false) := by
    rintro ⟨next, free⟩
    rw [taken _ ((toInt32_lt_iff small).mp next)] at free
    cases free
  rw [aklGcPoolFindFree, if_neg notNext, List.findSome?_eq_none_iff]
  intro i mem
  have wordFull := List.any_eq_false.mp full i mem
  rw [if_neg wordFull]

/-- What `akl_gc_pool_have_free` and `akl_gc_pool_find_free` promise together. -/
structure GcPool.Yields (p : GcPool) : Prop where
  room : aklGcPoolHaveFree p = true →
    ∃ ind < 64, aklGcPoolFindFree p = some ind ∧ aklGcPoolInUse p ind = false
  full : aklGcPoolHaveFree p = false → aklGcPoolFindFree p = none

/-- The promise is kept unless the slot behind the counted ones is of no use, the first word is
full and the second one is not. -/
theorem pool_yields_iff {p : GcPool} (small : p.avCount.toNat < 2 ^ 31) :
    p.Yields ↔
      (∀ ind < 64, aklGcPoolInUse p ind = true) ∨
        (p.avCount.toNat < 64 ∧ aklGcPoolInUse p p.avCount.toNat = false) ∨
        ∃ ind < 32, aklGcPoolInUse p ind = false := by
  rw [← first_word_iff, ← aklGcPoolHaveFree_eq_false_iff]
  cases answer : aklGcPoolHaveFree p with
  | false =>
      apply iff_of_true
      · exact ⟨fun room => absurd (answer.symm.trans room) (by decide), fun full =>
          aklGcPoolFindFree_full small full⟩
      · exact Or.inl rfl
  | true =>
      obtain ⟨ind, bound, found, free⟩ := aklGcPoolFindFree_spec small answer
      constructor
      · intro yields
        obtain ⟨ind', -, found', free'⟩ := yields.room answer
        cases found.symm.trans found'
        exact Or.inr (free.mp free')
      · rintro (full | finds)
        · cases full
        · exact ⟨fun _ => ⟨ind, bound, found, free.mpr finds⟩, fun full =>
            absurd (answer.symm.trans full) (by decide)⟩

/-- The first word is full, and slot 33 is the one of the second word that is in use: the clear
bit 0 of the second word is taken for slot 0. -/
theorem pool_not_yields : ¬ GcPool.Yields ⟨33, none, fun i => if i = 0 then 0xFFFFFFFF else 2⟩ := by
  intro yields
  obtain ⟨ind, -, found, free⟩ := yields.room (by decide)
  have foundZero : aklGcPoolFindFree
      ⟨33, none, fun i => if i = 0 then 0xFFFFFFFF else 2⟩ = some 0 := by decide
  cases foundZero.symm.trans found
  exact absurd free (by decide)

/-- A pool whose slots are taken in order. -/
theorem pool_yields_thirtythree :
    GcPool.Yields ⟨33, none, fun i => if i = 0 then 0xFFFFFFFF else 1⟩ :=
  (pool_yields_iff (by decide)).mpr (Or.inr (Or.inl (by decide)))

end AkLisp
