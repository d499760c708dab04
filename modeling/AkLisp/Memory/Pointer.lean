import AkLisp.Memory.Block

/-!
# Numbers and pointers in memory

A number is stored byte by byte, the least significant byte first.  It is read back where all
its bytes are determinate.
-/

namespace AkLisp.Memory

/-- The first `n` bytes of a number. -/
def wordBytes : Nat → Nat → List UInt8
  | 0, _ => []
  | n + 1, value => UInt8.ofNat value :: wordBytes n (value / 256)

/-- The number that the bytes stand for. -/
def wordOf : List UInt8 → Nat
  | [] => 0
  | byte :: bytes => byte.toNat + 256 * wordOf bytes

@[simp]
theorem length_wordBytes (n value : Nat) : (wordBytes n value).length = n := by
  induction n generalizing value with
  | zero => rfl
  | succ n ih => rw [wordBytes, List.length_cons, ih]

theorem wordOf_wordBytes (n value : Nat) : wordOf (wordBytes n value) = value % 256 ^ n := by
  induction n generalizing value with
  | zero => simp [wordBytes, wordOf, Nat.mod_one]
  | succ n ih =>
      have byte : (UInt8.ofNat value).toNat = value % 256 := UInt8.toNat_ofNat'
      rw [wordBytes, wordOf, ih, byte, Nat.pow_succ', Nat.mod_mul]

/-- The contents of cells that are all determinate. -/
def determined {α : Type*} : Block α → Option (List α)
  | [] => some []
  | none :: _ => none
  | some a :: b => (determined b).map (a :: ·)

@[simp]
theorem determined_map_some {α : Type*} (xs : List α) : determined (xs.map some) = some xs := by
  induction xs with
  | nil => rfl
  | cons x xs ih => rw [List.map_cons, determined, ih, Option.map_some]

/-- The bytes of a pointer. -/
def pointerBytes (p : UInt64) : List UInt8 := wordBytes 8 p.toNat

/-- The pointer in eight cells. -/
def readPointer (b : Block UInt8) : Option UInt64 :=
  if b.length = 8 then (determined b).map fun bytes => UInt64.ofNat (wordOf bytes) else none

@[simp]
theorem length_pointerBytes (p : UInt64) : (pointerBytes p).length = 8 := length_wordBytes 8 _

/-- What was written is read. -/
@[simp]
theorem readPointer_pointerBytes (p : UInt64) :
    readPointer ((pointerBytes p).map some) = some p := by
  have small : p.toNat < 256 ^ 8 := p.toNat_lt
  rw [readPointer, List.length_map, length_pointerBytes, if_pos rfl, determined_map_some,
    Option.map_some, pointerBytes, wordOf_wordBytes, Nat.mod_eq_of_lt small, UInt64.ofNat_toNat]

end AkLisp.Memory
