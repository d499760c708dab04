import AkLisp.Memory.Block

/-!
# Vectors

A vector is an array of members of one size in a block of bytes.  Pointers to its members
are the distances from the start of the block.  Counts and sizes are of type `unsigned int`,
and so are their products.
-/

namespace AkLisp

open Memory

/-- What goes wrong when a vector is used. -/
inductive VectorFault where
  /-- `memcpy` is called with `NULL` -/
  | null
  /-- `memcpy` reads or writes outside of an object -/
  | outside
  /-- the bound on the recursion given to the model is too small -/
  | outOfFuel
  deriving DecidableEq, Repr

/-- `struct akl_vector` -/
structure AklVector where
  avVector : Block UInt8
  avCount : UInt32
  avSize : UInt32
  avMsize : UInt32
  deriving DecidableEq

/-- `AKL_VECTOR_DEFSIZE` -/
def aklVectorDefsize : UInt32 := 10

/-- `sizeof(void *)` -/
def pointerSize : UInt32 := 8

/-- `akl_init_vector`; `akl_calloc` clears the block. -/
def aklInitVector (nmemb size : UInt32) : AklVector :=
  let nmemb := if nmemb = 0 then aklVectorDefsize else nmemb
  let size := if size = 0 then pointerSize else size
  ⟨List.replicate (nmemb.toNat * size.toNat) (some 0), 0, nmemb, size⟩

namespace AklVector

/-- `memcpy` into the block of a vector; it does nothing when no byte is copied. -/
def memcpy (vec : AklVector) (ptr : Option Nat) (data : Block UInt8) (n : Nat) :
    Except VectorFault AklVector :=
  if n = 0 then return vec
  else
    match ptr with
    | none => throw .null
    | some off =>
        match vec.avVector.copy off data n with
        | none => throw .outside
        | some avVector => return { vec with avVector }

/-- The vector with other bytes in its block. -/
def stored (vec : AklVector) (off : Nat) (data : Block UInt8) : AklVector :=
  { vec with avVector := vec.avVector.store off data }

section

variable {vec : AklVector} {off n : Nat} {data : Block UInt8}

theorem memcpy_nothing (vec : AklVector) (ptr : Option Nat) (data : Block UInt8) :
    vec.memcpy ptr data 0 = .ok vec := by
  simp only [memcpy, if_true]
  rfl

theorem memcpy_null (some_ : n ≠ 0) : vec.memcpy none data n = .error .null := by
  rw [memcpy, if_neg some_]
  rfl

theorem memcpy_outside (some_ : n ≠ 0)
    (outside : ¬ (off + n ≤ vec.avVector.length ∧ n ≤ data.length)) :
    vec.memcpy (some off) data n = .error .outside := by
  simp only [memcpy, if_neg some_, Block.copy, if_neg outside]
  rfl

theorem memcpy_inside (some_ : n ≠ 0) (inside : off + n ≤ vec.avVector.length)
    (readable : n ≤ data.length) :
    vec.memcpy (some off) data n = .ok (vec.stored off (data.take n)) := by
  simp only [memcpy, if_neg some_, Block.copy, if_pos (And.intro inside readable)]
  rfl

end

/-- The member a pointer leads to. -/
def member (vec : AklVector) (ptr : Option Nat) : Option (Block UInt8) :=
  ptr.map fun off => vec.avVector.load off vec.avMsize.toNat

end AklVector

/-- `akl_vector_at` -/
def aklVectorAt (vec : AklVector) (ind : UInt32) : Option Nat :=
  if ind < vec.avSize then some (ind * vec.avMsize).toNat else none

/-- `akl_vector_pop` -/
def aklVectorPop (vec : AklVector) : Option Nat × AklVector :=
  if vec.avCount = 0 then (none, vec)
  else
    let vec := { vec with avCount := vec.avCount - 1 }
    (aklVectorAt vec vec.avCount, vec)

/-- `akl_vector_is_grow_need` -/
def aklVectorIsGrowNeed (vec : AklVector) : Bool := vec.avSize ≤ vec.avCount + 1

/-- `akl_vector_grow`; `akl_realloc` succeeds. -/
def aklVectorGrow (vec : AklVector) (newSize : UInt32) : AklVector :=
  let avSize :=
    if newSize ≠ 0 ∧ vec.avSize < newSize then newSize else vec.avSize + vec.avSize / 2
  { vec with avSize, avVector := vec.avVector.resize (avSize * vec.avMsize).toNat }

theorem aklVectorGrow_zero (vec : AklVector) : aklVectorGrow vec 0 =
    { vec with
      avSize := vec.avSize + vec.avSize / 2
      avVector := vec.avVector.resize ((vec.avSize + vec.avSize / 2) * vec.avMsize).toNat } := by
  simp only [aklVectorGrow, ne_eq, not_true_eq_false, false_and, if_false]

/-- `akl_vector_reserve` -/
def aklVectorReserve (vec : AklVector) : Option Nat × AklVector :=
  let vec := if aklVectorIsGrowNeed vec then aklVectorGrow vec 0 else vec
  (aklVectorAt vec vec.avCount, { vec with avCount := vec.avCount + 1 })

/-- `akl_vector_push` -/
def aklVectorPush (vec : AklVector) (data : Block UInt8) :
    Except VectorFault (UInt32 × AklVector) := do
  let (ptr, vec) := aklVectorReserve vec
  let vec ← vec.memcpy ptr data vec.avMsize.toNat
  return (vec.avCount - 1, vec)

/-- `akl_vector_set` -/
def aklVectorSet (vec : AklVector) (w : UInt32) (data : Block UInt8) :
    Except VectorFault AklVector :=
  -- the test of `w` has an empty body
  vec.memcpy (some (w * vec.avMsize).toNat) data vec.avSize.toNat

/-- `akl_vector_push_vec`.  The recursion is bounded by a number the caller chooses. -/
def aklVectorPushVec : Nat → AklVector → AklVector → Except VectorFault AklVector
  | 0, _, _ => throw .outOfFuel
  | fuel + 1, vec, v =>
      if vec.avMsize ≠ v.avMsize then return vec
      else if vec.avCount + v.avCount + 1 < vec.avSize then
        aklVectorPushVec fuel (aklVectorGrow vec 0) v
      else do
        let ptr := aklVectorAt vec (vec.avCount + 1)
        let vec ← vec.memcpy ptr v.avVector v.avCount.toNat
        return { vec with avCount := vec.avCount + v.avCount }

/-- The loop of `akl_vector_find` at the index `i`, with the number of rounds that are left.
The index is assigned to an `int`. -/
def findFrom (vec : AklVector) (cmpFn : Option (Block UInt8) → Int) :
    Nat → UInt32 → Option Nat × Int
  | 0, _ => (none, -1)
  | rounds + 1, i =>
      if cmpFn (vec.member (aklVectorAt vec i)) = 0 then
        (aklVectorAt vec i, i.toInt32.toInt)
      else findFrom vec cmpFn rounds (i + 1)

/-- `akl_vector_find`.  The comparison function looks at the member its pointer leads to, or
it is called with `NULL`. -/
def aklVectorFind (vec : AklVector) (cmpFn : Option (Block UInt8) → Int) : Option Nat × Int :=
  findFrom vec cmpFn vec.avCount.toNat 0

/-- `akl_vector_truncate_by` -/
def aklVectorTruncateBy (vec : AklVector) (k : UInt32) : AklVector :=
  if 0 < vec.avCount - k then { vec with avCount := vec.avCount - k }
  else { vec with avCount := 0 }

/-- `akl_vector_last` -/
def aklVectorLast (vec : AklVector) : Option Nat := aklVectorAt vec vec.avCount

/-! ### Vectors that hold a sequence -/

/-- The members of the vector are the elements of `xs`. -/
structure AklVector.Holds (vec : AklVector) (xs : List (List UInt8)) : Prop where
  count : vec.avCount.toNat = xs.length
  room : xs.length ≤ vec.avSize.toNat
  length : vec.avVector.length = vec.avSize.toNat * vec.avMsize.toNat
  below : vec.avSize.toNat * vec.avMsize.toNat < 2 ^ 32
  positive : 0 < vec.avMsize.toNat
  slots : Slots vec.avMsize.toNat vec.avVector xs

namespace AklVector.Holds

variable {vec : AklVector} {xs : List (List UInt8)}

theorem at_eq (holds : vec.Holds xs) {i : Nat} (below : i < vec.avSize.toNat) :
    aklVectorAt vec (UInt32.ofNat i) = some (i * vec.avMsize.toNat) := by
  have small : i < 2 ^ 32 := below.trans vec.avSize.toNat_lt
  have product : i * vec.avMsize.toNat < 2 ^ 32 :=
    (Nat.mul_le_mul_right _ (Nat.le_of_lt below)).trans_lt holds.below
  have index : (UInt32.ofNat i).toNat = i := UInt32.toNat_ofNat_of_lt' small
  rw [aklVectorAt, if_pos (by rwa [UInt32.lt_iff_toNat_lt, index]), UInt32.toNat_mul, index,
    Nat.mod_eq_of_lt product]

/-- The elements fit into the block. -/
theorem inside (holds : vec.Holds xs) : xs.length * vec.avMsize.toNat ≤ vec.avVector.length := by
  rw [holds.length]
  exact Nat.mul_le_mul_right _ holds.room

/-- The element under an index. -/
theorem member_at (holds : vec.Holds xs) {i : Nat} {x : List UInt8} (found : xs[i]? = some x) :
    vec.member (aklVectorAt vec (UInt32.ofNat i)) = some (x.map some) := by
  have bound := (List.getElem?_eq_some_iff.mp found).1
  rw [holds.at_eq (bound.trans_le holds.room), member, Option.map_some, holds.slots i x found]

/-- Growing by a half keeps the elements. -/
theorem grow (holds : vec.Holds xs)
    (fits : (vec.avSize.toNat + vec.avSize.toNat / 2) * vec.avMsize.toNat < 2 ^ 32) :
    (aklVectorGrow vec 0).Holds xs ∧
      (aklVectorGrow vec 0).avSize.toNat = vec.avSize.toNat + vec.avSize.toNat / 2 := by
  have small : vec.avSize.toNat + vec.avSize.toNat / 2 < 2 ^ 32 :=
    (Nat.le_mul_of_pos_right _ holds.positive).trans_lt fits
  have sizeEq : (vec.avSize + vec.avSize / 2).toNat =
      vec.avSize.toNat + vec.avSize.toNat / 2 := by
    rw [UInt32.toNat_add, UInt32.toNat_div]
    exact Nat.mod_eq_of_lt small
  have bytesEq : ((vec.avSize + vec.avSize / 2) * vec.avMsize).toNat =
      (vec.avSize.toNat + vec.avSize.toNat / 2) * vec.avMsize.toNat := by
    rw [UInt32.toNat_mul, sizeEq]
    exact Nat.mod_eq_of_lt fits
  have roomier : xs.length ≤ vec.avSize.toNat + vec.avSize.toNat / 2 :=
    holds.room.trans (Nat.le_add_right _ _)
  rw [aklVectorGrow_zero]
  constructor
  · constructor
    · exact holds.count
    · exact sizeEq ▸ roomier
    · rw [Block.length_resize, bytesEq, sizeEq]
    · exact sizeEq ▸ fits
    · exact holds.positive
    · apply holds.slots.resize holds.inside
      rw [bytesEq]
      exact Nat.mul_le_mul_right _ roomier
  · exact sizeEq

end AklVector.Holds

end AkLisp
