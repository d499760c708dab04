import AkLisp.State.Data
import Mathlib.Data.Rat.Floor

/-!
# Comparison of values

`akl_compare_values` compares two values of one type: numbers as `long`, strings
with `strcmp`, symbols by their addresses, lists by a loop that calls it again on
their elements.  Two values of different types give -1.
-/

namespace AkLisp

open Linked

/-- The conversion of a `double` to a signed integer, which drops the fraction.  What
is out of range becomes the least integer. -/
def toSigned (bits : Nat) (number : ℚ) : Int :=
  let whole := if number < 0 then ⌈number⌉ else ⌊number⌋
  if -2 ^ bits ≤ whole ∧ whole < 2 ^ bits then whole else -2 ^ bits

/-- The conversion to `long`. -/
def toLong : ℚ → Int := toSigned 63

/-- The conversion to `int`. -/
def toInt : ℚ → Int := toSigned 31

/-- `compare_numbers` -/
def compareNumbers (n1 n2 : Int) : Int :=
  if n1 = n2 then 0 else if n1 > n2 then 1 else -1

/-- A `char` as `strcmp` sees it. -/
def unsignedChar (ch : Chr) : Int := ch % 256

/-- `strcmp`.  Behind its last character a string has the terminating NUL. -/
def strcmp : List Chr → List Chr → Int
  | [], b => 0 - unsignedChar (b.headD 0)
  | ch :: a, b =>
      if unsignedChar ch = unsignedChar (b.headD 0) ∧ unsignedChar ch ≠ 0 then strcmp a b.tail
      else unsignedChar ch - unsignedChar (b.headD 0)

/-- `akl_list_it_has_next` -/
def aklListItHasNext (m : Mem VRef) (it : Option Addr) : Bool :=
  (it.bind m.next).isSome

/-- `akl_list_it_next`: the data at the iterator, and the iterator behind it. -/
def aklListItNext (m : Mem VRef) (it : Option Addr) : Option VRef × Option Addr :=
  (it.bind m.data, it.bind m.next)

/-- The loop of `akl_compare_values` over two lists, with the iterators and the
values it has come to. -/
def compareEntries (compare : Option VRef → Option VRef → Except Fault Int) (m : Mem VRef) :
    Nat → Option Addr → Option Addr → Option VRef → Option VRef → Except Fault Int
  | 0, _, _, _, _ => throw .outOfFuel
  | rounds + 1, e1, e2, v1, v2 => do
      let (v1, e1) := if aklListItHasNext m e1 then aklListItNext m e1 else (v1, e1)
      -- the second value is taken from the first list, too
      let (v2, e1) := if aklListItHasNext m e2 then aklListItNext m e1 else (v2, e1)
      let r ← compare v1 v2
      if r ≠ 0 then return r else compareEntries compare m rounds e1 e2 v1 v2

/-- `akl_compare_values`.  The addresses of the symbols are given; the recursion is
bounded by a number the caller chooses, a loop by the number of the entries. -/
def aklCompareValues (address : Symbol → Int) (d : Data) :
    Nat → Option VRef → Option VRef → Except Fault Int
  | 0, _, _ => throw .outOfFuel
  | fuel + 1, some c1, some c2 =>
      match d.payload c1, d.payload c2 with
      | some (.number n1), some (.number n2) => return compareNumbers (toLong n1) (toLong n2)
      | some (.string a), some (.string b) => return strcmp a b
      | some (.symbol s1), some (.symbol s2) => return compareNumbers (address s1) (address s2)
      | some .nil, some .nil => return 0
      | some .true, some .true => return 0
      | some (.list l1), some (.list l2) =>
          compareEntries (aklCompareValues address d fuel) d.entries (d.entries.top + 1)
            (d.lists[l1]?.bind AklList.liHead) (d.lists[l2]?.bind AklList.liHead) none none
      | some _, some _ => return -1
      | _, _ => throw .nullDeref
  | _ + 1, _, _ => throw .assertion

/-- A value that is neither a list nor a function. -/
inductive Scalar where
  | number (number : ℚ)
  | string (string : List Chr)
  | symbol (symbol : Symbol)
  | true
  | nil
  deriving DecidableEq

/-- The payload of the value. -/
def Scalar.payload : Scalar → Payload
  | .number n => .number n
  | .string text => .string text
  | .symbol sym => .symbol sym
  | .true => .true
  | .nil => .nil

theorem Scalar.eq_number {s : Scalar} {number : ℚ} (payloadEq : s.payload = .number number) :
    s = .number number := by
  cases s <;> cases payloadEq
  rfl

/-- `va_type` of a scalar. -/
inductive ScalarType where
  | number
  | string
  | symbol
  | true
  | nil
  deriving DecidableEq

def Scalar.vaType : Scalar → ScalarType
  | .number _ => .number
  | .string _ => .string
  | .symbol _ => .symbol
  | .true => .true
  | .nil => .nil

/-- A number is within the range of `long`. -/
def Scalar.InLong : Scalar → Prop
  | .number n => -2 ^ 63 ≤ n ∧ n < 2 ^ 63
  | _ => True

/-- The cases of `akl_compare_values` that make no further call. -/
def compareScalars (address : Symbol → Int) : Scalar → Scalar → Int
  | .number n1, .number n2 => compareNumbers (toLong n1) (toLong n2)
  | .string a, .string b => strcmp a b
  | .symbol s1, .symbol s2 => compareNumbers (address s1) (address s2)
  | .nil, .nil => 0
  | .true, .true => 0
  | _, _ => -1

theorem aklCompareValues_scalars (address : Symbol → Int) {d : Data} {c1 c2 : VRef}
    {s t : Scalar} (first : d.payload c1 = some s.payload) (second : d.payload c2 = some t.payload)
    (fuel : Nat) : aklCompareValues address d (fuel + 1) (some c1) (some c2) =
      .ok (compareScalars address s t) := by
  cases s <;> cases t <;>
    simp only [aklCompareValues, first, second, Scalar.payload, compareScalars] <;> rfl

theorem aklCompareValues_scalar_list {address : Symbol → Int} {d : Data} {c1 c2 : VRef}
    {s : Scalar} {l : LRef} (first : d.payload c1 = some s.payload)
    (second : d.payload c2 = some (.list l)) (fuel : Nat) :
    aklCompareValues address d (fuel + 1) (some c1) (some c2) = .ok (-1) := by
  cases s <;> simp only [aklCompareValues, first, second, Scalar.payload] <;> rfl

theorem aklCompareValues_list_scalar {address : Symbol → Int} {d : Data} {c1 c2 : VRef}
    {t : Scalar} {l : LRef} (first : d.payload c1 = some (.list l))
    (second : d.payload c2 = some t.payload) (fuel : Nat) :
    aklCompareValues address d (fuel + 1) (some c1) (some c2) = .ok (-1) := by
  cases t <;> simp only [aklCompareValues, first, second, Scalar.payload] <;> rfl

/-- A null pointer fails the assertion. -/
theorem aklCompareValues_null {address : Symbol → Int} {d : Data} (c1 : Option VRef) (fuel : Nat) :
    aklCompareValues address d (fuel + 1) c1 none = .error .assertion := by
  cases c1 <;> rfl

theorem aklCompareValues_null_left {address : Symbol → Int} {d : Data} (c2 : Option VRef)
    (fuel : Nat) : aklCompareValues address d (fuel + 1) none c2 = .error .assertion := rfl

/-! ### The order of the scalars -/

@[simp]
theorem compareNumbers_self (n : Int) : compareNumbers n n = 0 := if_pos rfl

theorem compareNumbers_eq_zero {n1 n2 : Int} : compareNumbers n1 n2 = 0 ↔ n1 = n2 := by
  unfold compareNumbers
  split
  · simp [*]
  · split <;> simp [*]

theorem compareNumbers_neg {n1 n2 : Int} : compareNumbers n1 n2 < 0 ↔ n1 < n2 := by
  unfold compareNumbers
  split
  · omega
  · split <;> omega

theorem compareNumbers_sign (n1 n2 : Int) :
    (compareNumbers n1 n2).sign = -(compareNumbers n2 n1).sign := by
  unfold compareNumbers
  rcases Int.lt_trichotomy n1 n2 with less | equal | greater
  · rw [if_neg (Int.ne_of_lt less), if_neg (by omega), if_neg (by omega), if_pos less]
    rfl
  · rw [equal]
    simp
  · rw [if_neg (by omega), if_pos greater, if_neg (by omega), if_neg (by omega)]
    rfl

theorem compareNumbers_nonpos {n1 n2 : Int} : compareNumbers n1 n2 ≤ 0 ↔ n1 ≤ n2 := by
  unfold compareNumbers
  split
  · omega
  · split <;> omega

theorem unsignedChar_nonneg (ch : Chr) : 0 ≤ unsignedChar ch :=
  Int.emod_nonneg ch (by decide)

/-- `strcmp` looks at the first characters, the NUL of an exhausted string included. -/
theorem strcmp_heads (a b : List Chr) : strcmp a b =
    if unsignedChar (a.headD 0) = unsignedChar (b.headD 0) ∧ unsignedChar (a.headD 0) ≠ 0 then
      strcmp a.tail b.tail
    else unsignedChar (a.headD 0) - unsignedChar (b.headD 0) := by
  cases a with
  | nil =>
      rw [strcmp, if_neg]
      · rfl
      · rintro ⟨-, nonzero⟩
        exact nonzero rfl
  | cons ch a => rfl

theorem strcmp_self (a : List Chr) : strcmp a a = 0 := by
  induction a with
  | nil => rfl
  | cons ch a ih =>
      rw [strcmp_heads]
      split
      · exact ih
      · exact Int.sub_self _

theorem strcmp_sign (a b : List Chr) : (strcmp a b).sign = -(strcmp b a).sign := by
  induction a generalizing b with
  | nil =>
      rw [strcmp_heads, strcmp_heads b, if_neg, if_neg, ← Int.sign_neg]
      · congr 1
        omega
      · rintro ⟨equal, nonzero⟩
        exact nonzero (equal.trans rfl)
      · rintro ⟨-, nonzero⟩
        exact nonzero rfl
  | cons ch a ih =>
      rw [strcmp_heads, strcmp_heads b]
      by_cases equal : unsignedChar ((ch :: a).headD 0) = unsignedChar (b.headD 0) ∧
          unsignedChar ((ch :: a).headD 0) ≠ 0
      · have swapped : unsignedChar (b.headD 0) = unsignedChar ((ch :: a).headD 0) ∧
            unsignedChar (b.headD 0) ≠ 0 := ⟨equal.1.symm, equal.1 ▸ equal.2⟩
        rw [if_pos equal, if_pos swapped]
        exact ih b.tail
      · have swapped : ¬ (unsignedChar (b.headD 0) = unsignedChar ((ch :: a).headD 0) ∧
            unsignedChar (b.headD 0) ≠ 0) := by
          rintro ⟨equal', nonzero⟩
          exact equal ⟨equal'.symm, equal' ▸ nonzero⟩
        rw [if_neg equal, if_neg swapped, ← Int.sign_neg]
        congr 1
        omega

theorem strcmp_trans {a b c : List Chr} (first : strcmp a b ≤ 0) (second : strcmp b c ≤ 0) :
    strcmp a c ≤ 0 := by
  induction a generalizing b c with
  | nil =>
      have := unsignedChar_nonneg (c.headD 0)
      rw [strcmp]
      omega
  | cons ch a ih =>
      rw [strcmp_heads] at first second ⊢
      have nonneg := unsignedChar_nonneg ((ch :: a).headD 0)
      by_cases ab : unsignedChar ((ch :: a).headD 0) = unsignedChar (b.headD 0) ∧
          unsignedChar ((ch :: a).headD 0) ≠ 0
      · rw [if_pos ab] at first
        by_cases bc : unsignedChar (b.headD 0) = unsignedChar (c.headD 0) ∧
            unsignedChar (b.headD 0) ≠ 0
        · rw [if_pos bc] at second
          rw [if_pos ⟨ab.1.trans bc.1, ab.2⟩]
          exact ih first second
        · rw [if_neg bc] at second
          have less : unsignedChar (b.headD 0) ≠ unsignedChar (c.headD 0) := by
            intro equal
            exact bc ⟨equal, ab.1 ▸ ab.2⟩
          rw [if_neg (by omega)]
          omega
      · rw [if_neg ab] at first
        by_cases bc : unsignedChar (b.headD 0) = unsignedChar (c.headD 0) ∧
            unsignedChar (b.headD 0) ≠ 0
        · rw [if_neg (by omega)]
          omega
        · rw [if_neg bc] at second
          rw [if_neg (by omega)]
          omega

section

variable {p q : ℚ}

/-- Within its range the conversion only drops the fraction. -/
theorem toLong_eq (low : -2 ^ 63 ≤ q) (high : q < 2 ^ 63) :
    toLong q = if q < 0 then ⌈q⌉ else ⌊q⌋ := by
  unfold toLong toSigned
  apply if_pos
  split
  · rename_i negative
    constructor
    · have above : (((-2 ^ 63 : Int) : ℚ)) ≤ ⌈q⌉ := by
        push_cast
        exact low.trans (Int.le_ceil q)
      exact Int.cast_le.mp above
    · have below : ⌈q⌉ ≤ 0 := Int.ceil_le.mpr (by simpa using negative.le)
      omega
  · rename_i nonneg
    constructor
    · have above : 0 ≤ ⌊q⌋ := Int.floor_nonneg.mpr (not_lt.mp nonneg)
      omega
    · exact Int.floor_lt.mpr (by exact_mod_cast high)

theorem toLong_mono (lowP : -2 ^ 63 ≤ p) (highP : p < 2 ^ 63) (lowQ : -2 ^ 63 ≤ q)
    (highQ : q < 2 ^ 63) (le : p ≤ q) : toLong p ≤ toLong q := by
  rw [toLong_eq lowP highP, toLong_eq lowQ highQ]
  by_cases negP : p < 0
  · rw [if_pos negP]
    by_cases negQ : q < 0
    · rw [if_pos negQ]
      exact Int.ceil_le_ceil le
    · rw [if_neg negQ]
      have below : ⌈p⌉ ≤ 0 := Int.ceil_le.mpr (by simpa using negP.le)
      have above : 0 ≤ ⌊q⌋ := Int.floor_nonneg.mpr (not_lt.mp negQ)
      exact below.trans above
  · have negQ : ¬ q < 0 := fun negQ => negP (le.trans_lt negQ)
    rw [if_neg negP, if_neg negQ]
    exact Int.floor_le_floor le

/-- Two numbers that are equal, or that do not agree in their integer parts, are
ordered like these. -/
theorem toLong_lt_iff (lowP : -2 ^ 63 ≤ p) (highP : p < 2 ^ 63) (lowQ : -2 ^ 63 ≤ q)
    (highQ : q < 2 ^ 63) (apart : p = q ∨ toLong p ≠ toLong q) :
    toLong p < toLong q ↔ p < q := by
  constructor
  · intro less
    by_contra notLess
    have := toLong_mono lowQ highQ lowP highP (not_lt.mp notLess)
    omega
  · intro less
    rcases apart with rfl | different
    · exact absurd less (lt_irrefl p)
    · exact lt_of_le_of_ne (toLong_mono lowP highP lowQ highQ less.le) different

end

section

variable {address : Symbol → Int} {a b c : Scalar}

theorem compareScalars_self (a : Scalar) : compareScalars address a a = 0 := by
  cases a with
  | number n => exact compareNumbers_self _
  | string text => exact strcmp_self text
  | symbol sym => exact compareNumbers_self _
  | true => rfl
  | nil => rfl

/-- Values of different types compare to -1. -/
theorem compareScalars_mixed (mixed : a.vaType ≠ b.vaType) : compareScalars address a b = -1 := by
  cases a <;> cases b <;> first | rfl | exact absurd rfl mixed

theorem compareScalars_sign (address : Symbol → Int) (same : a.vaType = b.vaType) :
    (compareScalars address a b).sign = -(compareScalars address b a).sign := by
  cases a <;> cases b <;> cases same
  · exact compareNumbers_sign _ _
  · exact strcmp_sign _ _
  · exact compareNumbers_sign _ _
  · rfl
  · rfl

theorem compareScalars_trans (same : a.vaType = b.vaType)
    (first : compareScalars address a b ≤ 0) (second : compareScalars address b c ≤ 0) :
    compareScalars address a c ≤ 0 := by
  by_cases same' : b.vaType = c.vaType
  · cases a <;> cases b <;> cases same <;> cases c <;> cases same'
    · exact compareNumbers_nonpos.mpr
        ((compareNumbers_nonpos.mp first).trans (compareNumbers_nonpos.mp second))
    · exact strcmp_trans first second
    · exact compareNumbers_nonpos.mpr
        ((compareNumbers_nonpos.mp first).trans (compareNumbers_nonpos.mp second))
    · exact Int.le_refl 0
    · exact Int.le_refl 0
  · rw [compareScalars_mixed (by rwa [same])]
    decide

end

end AkLisp
