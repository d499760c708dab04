import AkLisp.Builtins.Arithmetic
import AkLisp.Printer.Format

/-!
# Division

`/`, `div` and `mod` (which is `%` too) convert their doubles in different places.  `div`
looks for a zero divisor among the `long`s and divides by an `int`, `mod` takes the
remainder of two `int`s and does not look at all.  What a conversion gives for a number
that does not fit is undefined in C, so everything is said about all ways to convert.
-/

namespace AkLisp

open Linked

/-- The value of an `int`. -/
def IsInt (z : ℤ) : Prop := -2 ^ 31 ≤ z ∧ z < 2 ^ 31

/-- The value of a `long`. -/
def IsLong (z : ℤ) : Prop := -2 ^ 63 ≤ z ∧ z < 2 ^ 63

instance (z : ℤ) : Decidable (IsInt z) := inferInstanceAs (Decidable (_ ∧ _))

instance (z : ℤ) : Decidable (IsLong z) := inferInstanceAs (Decidable (_ ∧ _))

/-- A number without its fraction. -/
def truncate (x : ℚ) : ℤ := x.num.tdiv x.den

/-- The conversions of doubles to `int` and `long`: what they give for numbers that fit. -/
structure Casts where
  toInt : ℚ → ℤ
  toLong : ℚ → ℤ
  isInt : ∀ x, IsInt (toInt x)
  isLong : ∀ x, IsLong (toLong x)
  toInt_eq : ∀ x, IsInt (truncate x) → toInt x = truncate x
  toLong_eq : ∀ x, IsLong (truncate x) → toLong x = truncate x

/-- The natural number that is the double nearest to another one: it has 53 significant
bits. -/
def doubleOfNat (n : ℕ) : ℕ :=
  let unit : ℕ := 2 ^ (Nat.log2 n + 1 - 53)
  roundHalfEven ((n : ℚ) / (unit : ℚ)) * unit

/-- The conversion of a `long` to a double. -/
def doubleOfLong (z : ℤ) : ℚ := z.sign * doubleOfNat z.natAbs

/-- What has at most 53 bits is a double. -/
theorem doubleOfLong_eq {z : ℤ} (small : z.natAbs < 2 ^ 53) : doubleOfLong z = z := by
  have bits : Nat.log2 z.natAbs + 1 - 53 = 0 := by
    rcases Nat.eq_zero_or_pos z.natAbs with zero | positive
    · rw [zero]
      decide
    · have short := (Nat.log2_lt (Nat.pos_iff_ne_zero.mp positive)).mpr small
      omega
  have rounded : doubleOfNat z.natAbs = z.natAbs := by
    rw [doubleOfNat, bits, pow_zero, Nat.cast_one, div_one, roundHalfEven_natCast, mul_one]
  rw [doubleOfLong, rounded, ← Int.cast_natCast, ← Int.cast_mul, Int.sign_mul_natAbs]

/-- `NIL_VALUE` -/
def nilRecord : ValueRecord := ⟨.nil, true⟩

/-- What the loop of `/` and that of `div` do with the numbers: `quotient` is `none` where
the processor traps. -/
structure Divider (δ : Type) where
  first : ℚ → δ
  isZero : ℚ → Bool
  quotient : δ → ℚ → Option δ
  result : δ → ValueRecord

/-- Division of doubles, which is taken as exact. -/
def Divider.ddiv : Divider ℚ where
  first n := n
  isZero n := n = 0
  quotient div n := some (div / n)
  result div := aklNumber div

/-- The quotient of two integers of a type whose least value is `min`. -/
def divide? (min a b : ℤ) : Option ℤ :=
  if b = 0 ∨ a = min ∧ b = -1 then none else some (a.tdiv b)

/-- The remainder, for which the processor divides as well. -/
def remainder? (min a b : ℤ) : Option ℤ :=
  if b = 0 ∨ a = min ∧ b = -1 then none else some (a.tmod b)

/-- Division of a `long` by an `int`. -/
def Divider.idiv (casts : Casts) : Divider ℤ where
  first n := casts.toLong n
  isZero n := casts.toLong n = 0
  quotient div n := divide? (-2 ^ 63) div (casts.toInt n)
  result div := aklNumber (doubleOfLong div)

namespace CallState

variable {δ : Type}

/-- The loop of `/` and `div`, at most `fuel` rounds; `none` for a trap. -/
def divideLoop (k : Divider δ) (values : VRef → ValueRecord) :
    Nat → δ → CallState → Option ValueRecord × CallState
  | 0, div, cx => (some (k.result div), cx)
  | fuel + 1, div, cx =>
      match cx.aklFrameShiftNumber values with
      | (none, cx) => (some (k.result div), cx)
      | (some n, cx) =>
          if k.isZero n then (some nilRecord, cx.aklRaiseError .error "Zero division.")
          else
            match k.quotient div n with
            | none => (none, cx)
            | some div => divideLoop k values fuel div cx

/-- A built-in that divides its first argument by the others. -/
def divideAll (k : Divider δ) (values : VRef → ValueRecord) (cx : CallState) :
    Option ValueRecord × CallState :=
  match cx.aklFrameShiftNumber values with
  | (none, cx) => (some (aklNumber 0), cx)
  | (some n, cx) =>
      cx.divideLoop k values ((aklFrameGetCount cx.cxFrame).toNat + 1) (k.first n)

end CallState

/-- `akl_fn_ddiv` -/
def aklFnDdiv (values : VRef → ValueRecord) (cx : CallState) : Option ValueRecord × CallState :=
  cx.divideAll .ddiv values

/-- `akl_fn_idiv` -/
def aklFnIdiv (casts : Casts) (values : VRef → ValueRecord) (cx : CallState) :
    Option ValueRecord × CallState :=
  cx.divideAll (.idiv casts) values

/-- `akl_fn_mod` -/
def aklFnMod (casts : Casts) (values : VRef → ValueRecord) (cx : CallState) :
    Option ValueRecord × CallState :=
  let fetch := cx.aklGetArgsStrict values 2 [.vt .vtNumber, .vt .vtNumber]
  if fetch.code = -1 then (some nilRecord, fetch.state)
  else
    match fetch.stored with
    | [.number a, .number b] =>
        ((remainder? (-2 ^ 31) (casts.toInt a) (casts.toInt b)).map fun r => aklNumber r,
          fetch.state)
    | _ => (none, fetch.state)

/-- How a division ends. -/
inductive Divided (δ : Type) where
  | quotient (div : δ)
  | zeroDivision
  | trap
  deriving DecidableEq

namespace Divider

variable {δ : Type} (k : Divider δ)

/-- The divisions by some numbers, one after the other. -/
def divided : δ → List ℚ → Divided δ
  | div, [] => .quotient div
  | div, n :: ns =>
      if k.isZero n then .zeroDivision
      else
        match k.quotient div n with
        | none => .trap
        | some div => divided div ns

/-- What the caller of a division sees. -/
def Ends (cx : CallState) (r : Option ValueRecord × CallState) : Divided δ → Prop
  | .quotient div => r.1 = some (k.result div)
  | .zeroDivision =>
      r.1 = some nilRecord ∧ r.2.errors = cx.errors ++ [⟨.error, "Zero division."⟩]
  | .trap => r.1 = none

variable {k}

theorem Ends.congr {cx cx' : CallState} {r : Option ValueRecord × CallState} {divided : Divided δ}
    (ends : k.Ends cx' r divided) (errors : cx'.errors = cx.errors) : k.Ends cx r divided := by
  cases divided with
  | quotient div => exact ends
  | zeroDivision => exact ⟨ends.1, by rw [← errors, ends.2]⟩
  | trap => exact ends

end Divider

namespace CallState.On

variable {δ : Type} {k : Divider δ} {values : VRef → ValueRecord} {args : List VRef}
  {cx : CallState}

theorem divideLoop (on : cx.On args) {ns : List ℚ}
    (numbers : args.map (fun v => (values v).number?) = ns.map some) (div : δ) {fuel : Nat}
    (enough : args.length < fuel) :
    k.Ends cx (cx.divideLoop k values fuel div) (k.divided div ns) := by
  induction ns generalizing args cx div fuel with
  | nil =>
      have noArgs : args = [] := List.map_eq_nil_iff.mp numbers
      subst noArgs
      cases fuel with
      | zero => cases enough
      | succ fuel =>
          rw [CallState.divideLoop, on.shiftNumber_nil]
          rfl
  | cons n ns ih =>
      cases args with
      | nil => cases numbers
      | cons v args =>
          rw [List.map_cons, List.map_cons, List.cons.injEq] at numbers
          obtain ⟨number, numbers⟩ := numbers
          cases fuel with
          | zero => cases enough
          | succ fuel =>
              obtain ⟨cx', shiftEq, on', same⟩ := on.shiftNumber values
              rw [number] at shiftEq
              rw [CallState.divideLoop, shiftEq, Divider.divided]
              simp only
              by_cases zero : k.isZero n = true
              · rw [if_pos zero, if_pos zero]
                exact ⟨rfl, by rw [aklRaiseError, same.errors]⟩
              · rw [if_neg zero, if_neg zero]
                cases k.quotient div n with
                | none => rfl
                | some div' =>
                    have rest := ih on' numbers div' (Nat.lt_of_succ_lt_succ enough)
                    exact rest.congr same.errors

/-- A built-in that divides ends as its divisions do. -/
theorem divideAll {v : VRef} (on : cx.On (v :: args)) {n : ℚ} {ns : List ℚ}
    (numbers : (v :: args).map (fun v => (values v).number?) = (n :: ns).map some) :
    k.Ends cx (cx.divideAll k values) (k.divided (k.first n) ns) := by
  rw [List.map_cons, List.map_cons, List.cons.injEq] at numbers
  obtain ⟨number, numbers⟩ := numbers
  obtain ⟨cx', shiftEq, on', same⟩ := on.shiftNumber values
  rw [number] at shiftEq
  rw [CallState.divideAll, shiftEq]
  have counted : args.length < (aklFrameGetCount cx'.cxFrame).toNat + 1 := by
    rw [on'.count]
    exact Nat.lt_succ_self _
  exact (on'.divideLoop numbers (k.first n) counted).congr same.errors

end CallState.On

/-! ## Integers -/

theorem truncate_intCast (z : ℤ) : truncate z = z := by
  rw [truncate, Rat.num_intCast, Rat.den_intCast, Nat.cast_one, Int.tdiv_one]

namespace Casts

variable (casts : Casts)

theorem toInt_intCast {z : ℤ} (fits : IsInt z) : casts.toInt z = z := by
  have truncated := truncate_intCast z
  rw [casts.toInt_eq z (by rw [truncated]; exact fits), truncated]

theorem toLong_intCast {z : ℤ} (fits : IsLong z) : casts.toLong z = z := by
  have truncated := truncate_intCast z
  rw [casts.toLong_eq z (by rw [truncated]; exact fits), truncated]

/-- Conversions that give this `int` for the numbers that do not fit. -/
def outside (z : ℤ) (fits : IsInt z) : Casts where
  toInt x := if IsInt (truncate x) then truncate x else z
  toLong x := if IsLong (truncate x) then truncate x else 0
  isInt x := by
    split
    · assumption
    · exact fits
  isLong x := by
    split
    · assumption
    · decide
  toInt_eq x inside := if_pos inside
  toLong_eq x inside := if_pos inside

theorem outside_toInt {z k : ℤ} (fits : IsInt z) (big : ¬ IsInt k) :
    (outside z fits).toInt k = z := by
  have big' : ¬ IsInt (truncate k) := by rwa [truncate_intCast]
  exact if_neg big'

end Casts

/-- A quotient is again a `long`, and the least one only if nothing was divided. -/
theorem isLong_tdiv {a b : ℤ} (long : IsLong a) (nonzero : b ≠ 0)
    (noOverflow : ¬ (a = -2 ^ 63 ∧ b = -1)) :
    IsLong (a.tdiv b) ∧ (b ≠ 1 → a.tdiv b ≠ -2 ^ 63) := by
  have smaller := Int.natAbs_tdiv_le_natAbs a b
  obtain ⟨lower, upper⟩ := long
  by_cases one : b = 1
  · subst one
    rw [Int.tdiv_one]
    exact ⟨⟨lower, upper⟩, fun different => absurd rfl different⟩
  · by_cases minusOne : b = -1
    · subst minusOne
      rw [Int.tdiv_neg, Int.tdiv_one, IsLong]
      omega
    · have halved : (a.tdiv b).natAbs ≤ a.natAbs / 2 := by
        rw [Int.natAbs_tdiv]
        exact Nat.div_le_div_left (by omega) (by decide)
      rw [IsLong]
      omega

theorem divide?_eq {min a b : ℤ} (nonzero : b ≠ 0) (noOverflow : ¬ (a = min ∧ b = -1)) :
    divide? min a b = some (a.tdiv b) :=
  if_neg fun traps => traps.elim nonzero noOverflow

namespace Divider

section

variable {δ : Type} {k : Divider δ} {ns : List ℚ}

/-- A zero divisor is noticed unless a division in front of it traps. -/
theorem divided_zero {n : ℚ} {div : δ} (mem : n ∈ ns) (zero : k.isZero n = true)
    (noTrap : k.divided div ns ≠ .trap) : k.divided div ns = .zeroDivision := by
  induction ns generalizing div with
  | nil => cases mem
  | cons m ns ih =>
      rw [divided] at noTrap ⊢
      by_cases isZero : k.isZero m = true
      · rw [if_pos isZero]
      · rw [if_neg isZero] at noTrap ⊢
        have behind : n ∈ ns := by
          rcases List.mem_cons.mp mem with rfl | behind
          · exact absurd zero isZero
          · exact behind
        cases quotient : k.quotient div m with
        | none =>
            rw [quotient] at noTrap
            exact absurd rfl noTrap
        | some div' =>
            rw [quotient] at noTrap
            exact ih behind noTrap

theorem divided_ne_trap (total : ∀ div n, k.quotient div n ≠ none) (div : δ) :
    k.divided div ns ≠ .trap := by
  induction ns generalizing div with
  | nil => nofun
  | cons n ns ih =>
      rw [divided]
      split
      · nofun
      · cases quotient : k.quotient div n with
        | none => exact absurd quotient (total div n)
        | some div' => exact ih div'

end

variable (casts : Casts) {div b : ℤ} {bs : List ℤ}

theorem idiv_isZero (long : IsLong b) : (idiv casts).isZero b = true ↔ b = 0 := by
  simp only [idiv, decide_eq_true_eq, casts.toLong_intCast long]

theorem idiv_divided_cons (long : IsLong b) (ns : List ℚ) :
    (idiv casts).divided div ((b : ℚ) :: ns) =
      if b = 0 then .zeroDivision
      else
        match divide? (-2 ^ 63) div (casts.toInt b) with
        | none => .trap
        | some div => (idiv casts).divided div ns := by
  rw [divided]
  by_cases zero : b = 0
  · rw [if_pos ((idiv_isZero casts long).mpr zero), if_pos zero]
  · have quotientEq : (idiv casts).quotient div b = divide? (-2 ^ 63) div (casts.toInt b) := rfl
    rw [if_neg fun isZero => zero ((idiv_isZero casts long).mp isZero), if_neg zero, quotientEq]
    cases divide? (-2 ^ 63) div (casts.toInt b) <;> rfl

/-- What makes a division of `long`s by `int`s overflow. -/
def Overflows (div : ℤ) (bs : List ℤ) : Prop :=
  div = -2 ^ 63 ∧ (bs.dropWhile fun b => b = 1).head? = some (-1)

/-- Divisors that fit do not trap. -/
theorem idiv_divided_ne_trap (divLong : IsLong div) (long : ∀ b ∈ bs, IsLong b)
    (ints : ∀ b ∈ bs.takeWhile fun b => b ≠ 0, IsInt b) (noOverflow : ¬ Overflows div bs) :
    (idiv casts).divided div (bs.map Int.cast) ≠ .trap := by
  induction bs generalizing div with
  | nil => nofun
  | cons b bs ih =>
      rw [List.map_cons, idiv_divided_cons casts (long b List.mem_cons_self)]
      by_cases zero : b = 0
      · rw [if_pos zero]
        nofun
      · have ints' : ∀ d ∈ b :: bs.takeWhile fun b => b ≠ 0, IsInt d := by
          rwa [List.takeWhile_cons_of_pos (by simpa using zero)] at ints
        have noOverflow' : ¬ (div = -2 ^ 63 ∧ b = -1) := by
          rintro ⟨least, rfl⟩
          exact noOverflow ⟨least, rfl⟩
        obtain ⟨quotientLong, quotientNe⟩ := isLong_tdiv divLong zero noOverflow'
        rw [if_neg zero, casts.toInt_intCast (ints' b List.mem_cons_self),
          divide?_eq zero noOverflow']
        apply ih quotientLong fun d mem => long d (List.mem_cons_of_mem b mem)
        · exact fun d mem => ints' d (List.mem_cons_of_mem b mem)
        · rintro ⟨least, next⟩
          by_cases one : b = 1
          · subst one
            rw [Int.tdiv_one] at least
            exact noOverflow ⟨least, by rwa [List.dropWhile_cons_of_pos (by simp)]⟩
          · exact quotientNe one least

/-- The least `long` divided by 1 some times and then by -1 traps. -/
theorem idiv_divided_overflow (long : ∀ b ∈ bs, IsLong b) (overflow : Overflows div bs) :
    (idiv casts).divided div (bs.map Int.cast) = .trap := by
  obtain ⟨rfl, next⟩ := overflow
  induction bs with
  | nil => cases next
  | cons b bs ih =>
      rw [List.map_cons, idiv_divided_cons casts (long b List.mem_cons_self)]
      by_cases one : b = 1
      · subst one
        rw [List.dropWhile_cons_of_pos (by simp)] at next
        rw [if_neg one_ne_zero, casts.toInt_intCast (by decide),
          divide?_eq one_ne_zero (by decide), Int.tdiv_one]
        exact ih (fun d mem => long d (List.mem_cons_of_mem 1 mem)) next
      · rw [List.dropWhile_cons_of_neg (by simpa using one), List.head?_cons,
          Option.some.injEq] at next
        subst next
        rw [if_neg (by decide), casts.toInt_intCast (by decide), divide?, if_pos (by decide)]

/-- Two numbers without an overflow. -/
theorem idiv_divided_singleton (long : IsLong b) (nonzero : b ≠ 0) (int : IsInt b)
    (noOverflow : ¬ Overflows div [b]) :
    (idiv casts).divided div ([b].map Int.cast) = .quotient (div.tdiv b) := by
  have noOverflow' : ¬ (div = -2 ^ 63 ∧ b = -1) := by
    rintro ⟨least, rfl⟩
    exact noOverflow ⟨least, rfl⟩
  rw [List.map_singleton, idiv_divided_cons casts long, if_neg nonzero,
    casts.toInt_intCast int, divide?_eq nonzero noOverflow']
  rfl

/-- A divisor that does not fit may become 0. -/
theorem idiv_divided_outside (long : ∀ b ∈ bs, IsLong b)
    (mem : b ∈ bs.takeWhile fun b => b ≠ 0) (big : ¬ IsInt b) :
    (idiv (.outside 0 (by decide))).divided div (bs.map Int.cast) = .trap := by
  induction bs generalizing div with
  | nil => cases mem
  | cons d bs ih =>
      rw [List.map_cons, idiv_divided_cons _ (long d List.mem_cons_self)]
      by_cases zero : d = 0
      · rw [List.takeWhile_cons_of_neg (by simpa using zero)] at mem
        cases mem
      · rw [if_neg zero]
        rw [List.takeWhile_cons_of_pos (by simpa using zero)] at mem
        rcases List.mem_cons.mp mem with rfl | behind
        · rw [Casts.outside_toInt _ big, divide?, if_pos (.inl rfl)]
        · cases divide? (-2 ^ 63) div ((Casts.outside 0 (by decide)).toInt d) with
          | none => rfl
          | some div' => exact ih (fun e mem => long e (List.mem_cons_of_mem d mem)) behind

end Divider

/-! ## The built-ins -/

/-- A built-in that was called with these numbers returns, and with a zero divisor raises an
error and returns NIL. -/
structure Divides (args : List ℤ) (cx : CallState) (r : Option ValueRecord × CallState) : Prop where
  returns : r.1 ≠ none
  zero : 0 ∈ args.tail →
    r.1 = some nilRecord ∧ ∃ message, r.2.errors = cx.errors ++ [⟨.error, message⟩]

/-- Two numbers are divided with the quotient truncated towards zero. -/
structure DividesExactly (args : List ℤ) (cx : CallState) (r : Option ValueRecord × CallState) :
    Prop extends Divides args cx r where
  exact_ : ∀ a b, args = [a, b] → b ≠ 0 → r.1 = some (aklNumber (a.tdiv b))

/-- The divisors of `div` in front of a zero are `int`s, no division overflows, and the
quotient of two numbers is a double. -/
def DivSafe : List ℤ → Prop
  | [] => True
  | a :: bs =>
      (∀ b ∈ bs.takeWhile fun b => b ≠ 0, IsInt b) ∧ ¬ Divider.Overflows a bs ∧
        ∀ b, bs = [b] → b ≠ 0 → doubleOfLong (a.tdiv b) = a.tdiv b

/-- The divisor of `mod` is an `int` and not zero, and for the divisor -1 the dividend is
an `int` and not the least one. -/
def ModSafe : List ℤ → Prop
  | [a, b] => IsInt b ∧ b ≠ 0 ∧ (b = -1 → IsInt a ∧ a ≠ -2 ^ 31)
  | _ => True

section

variable {values : VRef → ValueRecord} {vs : List VRef} {cx : CallState} {args : List ℤ}

theorem Divides.of_ends {δ : Type} {k : Divider δ} {r : Option ValueRecord × CallState}
    {divided : Divided δ} {a : ℤ} {bs : List ℤ} (ends : k.Ends cx r divided)
    (noTrap : divided ≠ .trap) (zero : 0 ∈ bs → divided = .zeroDivision) :
    Divides (a :: bs) cx r := by
  constructor
  · cases divided with
    | quotient div =>
        rw [ends]
        nofun
    | zeroDivision =>
        rw [ends.1]
        nofun
    | trap => exact absurd rfl noTrap
  · intro mem
    rw [zero mem] at ends
    exact ⟨ends.1, _, ends.2⟩

/-- Without arguments a division is 0. -/
theorem divideAll_nil {δ : Type} (k : Divider δ) (on : cx.On []) :
    cx.divideAll k values = (some (aklNumber 0), cx) := by
  rw [CallState.divideAll, on.shiftNumber_nil]

/-- A division of integers ends as its divisions do. -/
theorem divideAll_ends {δ : Type} (k : Divider δ) {a : ℤ} {bs : List ℤ} (on : cx.On vs)
    (numbers : vs.map (fun v => (values v).number?) = (a :: bs).map fun z : ℤ => some (z : ℚ)) :
    k.Ends cx (cx.divideAll k values) (k.divided (k.first a) (bs.map Int.cast)) := by
  cases vs with
  | nil => cases numbers
  | cons v vs =>
      apply on.divideAll
      rw [numbers, List.map_cons, List.map_cons, List.map_map]
      rfl

theorem aklFnDdiv_divides (on : cx.On vs)
    (numbers : vs.map (fun v => (values v).number?) = args.map fun z : ℤ => some (z : ℚ)) :
    Divides args cx (aklFnDdiv values cx) := by
  cases args with
  | nil =>
      rw [List.map_eq_nil_iff.mp numbers] at on
      rw [aklFnDdiv, divideAll_nil _ on]
      exact ⟨nofun, nofun⟩
  | cons a bs =>
      have noTrap : Divider.ddiv.divided (Divider.ddiv.first a) (bs.map Int.cast) ≠ .trap :=
        Divider.divided_ne_trap (fun _ _ => Option.some_ne_none _) _
      apply Divides.of_ends (divideAll_ends .ddiv on numbers) noTrap
      intro mem
      have zeroMem : (0 : ℚ) ∈ bs.map Int.cast := List.mem_map.mpr ⟨0, mem, Int.cast_zero⟩
      have isZero : Divider.ddiv.isZero 0 = true := by simp [Divider.ddiv]
      exact Divider.divided_zero zeroMem isZero noTrap

theorem aklFnIdiv_divides_iff (on : cx.On vs) (long : ∀ z ∈ args, IsLong z)
    (numbers : vs.map (fun v => (values v).number?) = args.map fun z : ℤ => some (z : ℚ)) :
    (∀ casts, DividesExactly args cx (aklFnIdiv casts values cx)) ↔ DivSafe args := by
  cases args with
  | nil =>
      rw [List.map_eq_nil_iff.mp numbers] at on
      refine iff_of_true (fun casts => ?_) trivial
      rw [aklFnIdiv, divideAll_nil _ on]
      exact ⟨⟨nofun, nofun⟩, nofun⟩
  | cons a bs =>
      have divisorsLong : ∀ b ∈ bs, IsLong b := fun b mem => long b (List.mem_cons_of_mem a mem)
      have ends : ∀ casts, (Divider.idiv casts).Ends cx (aklFnIdiv casts values cx)
          ((Divider.idiv casts).divided a (bs.map Int.cast)) := by
        intro casts
        have ended := divideAll_ends (.idiv casts) on numbers
        have firstEq : (Divider.idiv casts).first a = a :=
          casts.toLong_intCast (long a List.mem_cons_self)
        rwa [firstEq] at ended
      constructor
      · intro divides
        have someCasts := Casts.outside 0 (by decide)
        have ints : ∀ b ∈ bs.takeWhile fun b => b ≠ 0, IsInt b := by
          intro b mem
          by_contra big
          have ended := ends (.outside 0 (by decide))
          rw [Divider.idiv_divided_outside divisorsLong mem big] at ended
          exact (divides _).returns ended
        have noOverflow : ¬ Divider.Overflows a bs := by
          intro overflow
          have ended := ends someCasts
          rw [Divider.idiv_divided_overflow _ divisorsLong overflow] at ended
          exact (divides _).returns ended
        refine ⟨ints, noOverflow, ?_⟩
        rintro b rfl nonzero
        have int : IsInt b := ints b (by simp [nonzero])
        have ended := ends someCasts
        rw [Divider.idiv_divided_singleton _ (divisorsLong b List.mem_cons_self) nonzero int
          noOverflow] at ended
        have exactly := (divides someCasts).exact_ a b rfl nonzero
        rw [ended] at exactly
        simpa [Divider.idiv, aklNumber] using exactly
      · rintro ⟨ints, noOverflow, isDouble⟩ casts
        have noTrap := Divider.idiv_divided_ne_trap casts (long a List.mem_cons_self)
          divisorsLong ints noOverflow
        refine ⟨.of_ends (ends casts) noTrap fun mem => ?_, ?_⟩
        · have zeroMem : (0 : ℚ) ∈ bs.map Int.cast := List.mem_map.mpr ⟨0, mem, Int.cast_zero⟩
          have isZero : (Divider.idiv casts).isZero 0 = true := by
            have zero := (Divider.idiv_isZero casts (b := 0) (by decide)).mpr rfl
            rwa [Int.cast_zero] at zero
          exact Divider.divided_zero zeroMem isZero noTrap
        · rintro a' b pair nonzero
          cases pair
          have int : IsInt b := ints b (by simp [nonzero])
          have ended := ends casts
          rw [Divider.idiv_divided_singleton _ (divisorsLong b List.mem_cons_self) nonzero int
            noOverflow] at ended
          rw [ended, ← isDouble b rfl nonzero]
          rfl

theorem number?_eq_some_iff {vp : ValueRecord} {n : ℚ} :
    vp.number? = some n ↔ vp.vaValue = .number n := by
  rw [ValueRecord.number?]
  cases vp.vaValue <;> simp

theorem accepts_number_iff {v : VRef} :
    (ExpectedType.vt .vtNumber).Accepts (values v) ↔ ((values v).number?).isSome := by
  rw [ValueRecord.number?, ExpectedType.Accepts]
  cases (values v).vaValue <;> simp [VaValue.vaType]

variable {below cells : List (Cell VRef)}

/-- How `mod` asks for its arguments. -/
theorem fetch_numbers_strict (values : VRef → ValueRecord)
    (covers : Covers cx.stack cx.cxFrame below cells []) :
    Fetch.Strict values [.vt .vtNumber, .vt .vtNumber] (cells.map Prod.snd) below cx
      (cx.aklGetArgsStrict values 2 [.vt .vtNumber, .vt .vtNumber]) :=
  CallState.aklGetArgsStrict_strict (List.cons_ne_nil _ _) (by simp [ExpectedType.Stores]) covers

/-- Two numbers are fetched. -/
theorem fetch_numbers (covers : Covers cx.stack cx.cxFrame below cells []) {a b : ℚ}
    (numbers : (cells.map Prod.snd).map (fun v => (values v).number?) = [some a, some b]) :
    ∃ state, cx.aklGetArgsStrict values 2 [.vt .vtNumber, .vt .vtNumber] =
      ⟨0, [.number a, .number b], state⟩ := by
  have strict := fetch_numbers_strict values covers
  obtain ⟨v, others, argsEq, first, othersEq⟩ := List.map_eq_cons_iff.mp numbers
  obtain ⟨w, none_, rfl, second, noneEq⟩ := List.map_eq_cons_iff.mp othersEq
  rw [List.map_eq_nil_iff.mp noneEq] at argsEq
  rw [argsEq] at strict
  generalize cx.aklGetArgsStrict values 2 [.vt .vtNumber, .vt .vtNumber] = fetch at strict ⊢
  have accepted : ExpectedType.Accept values [.vt .vtNumber, .vt .vtNumber] [v, w] := by
    refine .cons (accepts_number_iff.mpr ?_) (.cons (accepts_number_iff.mpr ?_) .nil)
    · rw [first]
      rfl
    · rw [second]
      rfl
  have zero := strict.zero_iff.mpr accepted
  have gives := strict.stores zero
  obtain ⟨code, stored, state⟩ := fetch
  cases gives with
  | cons firstGives othersGive =>
      cases othersGive with
      | cons secondGives noneGive =>
          cases noneGive
          cases firstGives with
          | number held =>
              cases secondGives with
              | number held' =>
                  rw [number?_eq_some_iff, held] at first
                  rw [number?_eq_some_iff, held'] at second
                  cases first
                  cases second
                  cases zero
                  exact ⟨state, rfl⟩

/-- With another number of arguments `mod` raises an error. -/
theorem aklFnMod_refused (casts : Casts) (covers : Covers cx.stack cx.cxFrame below cells [])
    (count : cells.length ≠ 2) : Divides args cx (aklFnMod casts values cx) := by
  have strict := fetch_numbers_strict values covers
  have failed : (cx.aklGetArgsStrict values 2 [.vt .vtNumber, .vt .vtNumber]).code ≠ 0 := by
    intro zero
    have lengths := List.Forall₂.length_eq (strict.zero_iff.mp zero)
    rw [List.length_map] at lengths
    exact count lengths.symm
  obtain ⟨code, message, errors⟩ := strict.reports failed
  rw [aklFnMod, if_pos code]
  exact ⟨nofun, fun _ => ⟨rfl, message, errors⟩⟩

theorem modSafe_of_length_ne (count : args.length ≠ 2) : ModSafe args := by
  unfold ModSafe
  split
  · exact absurd rfl count
  · trivial

theorem aklFnMod_divides_iff (covers : Covers cx.stack cx.cxFrame below cells [])
    (numbers : (cells.map Prod.snd).map (fun v => (values v).number?) =
      args.map fun z : ℤ => some (z : ℚ)) :
    (∀ casts, Divides args cx (aklFnMod casts values cx)) ↔ ModSafe args := by
  have lengths := congrArg List.length numbers
  rw [List.length_map, List.length_map, List.length_map] at lengths
  by_cases count : args.length = 2
  · obtain ⟨a, b, rfl⟩ := List.length_eq_two.mp count
    obtain ⟨state, fetched⟩ := fetch_numbers covers numbers
    have result : ∀ casts, aklFnMod casts values cx =
        ((remainder? (-2 ^ 31) (casts.toInt a) (casts.toInt b)).map fun r => aklNumber r,
          state) := by
      intro casts
      have noError : ¬ (0 : ℤ) = -1 := by decide
      rw [aklFnMod, fetched, if_neg noError]
    have trapped : ∀ casts : Casts,
        (casts.toInt b = 0 ∨ casts.toInt a = -2 ^ 31 ∧ casts.toInt b = -1) →
          ¬ Divides [a, b] cx (aklFnMod casts values cx) := by
      intro casts traps divides
      apply divides.returns
      rw [result, remainder?, if_pos traps]
      rfl
    constructor
    · intro divides
      have someCasts := Casts.outside 0 (by decide)
      have int : IsInt b := by
        by_contra big
        exact trapped (.outside 0 (by decide)) (.inl (Casts.outside_toInt _ big)) (divides _)
      refine ⟨int, ?_, ?_⟩
      · rintro rfl
        exact trapped someCasts (.inl (someCasts.toInt_intCast int)) (divides _)
      · rintro rfl
        constructor
        · by_contra big
          exact trapped (.outside (-2 ^ 31) (by decide))
            (.inr ⟨Casts.outside_toInt _ big, Casts.toInt_intCast _ int⟩) (divides _)
        · rintro rfl
          exact trapped someCasts
            (.inr ⟨someCasts.toInt_intCast (by decide), someCasts.toInt_intCast int⟩) (divides _)
    · rintro ⟨int, nonzero, minusOne⟩ casts
      have noTrap : ¬ (casts.toInt b = 0 ∨ casts.toInt a = -2 ^ 31 ∧ casts.toInt b = -1) := by
        rw [casts.toInt_intCast int]
        rintro (zero | ⟨least, one⟩)
        · exact nonzero zero
        · obtain ⟨intA, notLeast⟩ := minusOne one
          rw [casts.toInt_intCast intA] at least
          exact notLeast least
      constructor
      · rw [result, remainder?, if_neg noTrap]
        nofun
      · intro mem
        rw [List.tail_cons, List.mem_singleton] at mem
        exact absurd mem.symm nonzero
  · have refused : cells.length ≠ 2 := by rwa [lengths]
    exact iff_of_true (fun casts => aklFnMod_refused casts covers refused)
      (modSafe_of_length_ne count)

end

/-- Division never traps and is exact: `/` always, `div` and `mod` exactly for the numbers
that are safe for them, whatever a conversion gives for a number that does not fit. -/
theorem division_iff (values : VRef → ValueRecord) {cx : CallState}
    {below cells : List (Cell VRef)} (covers : Covers cx.stack cx.cxFrame below cells [])
    {args : List ℤ} (long : ∀ z ∈ args, IsLong z)
    (numbers : (cells.map Prod.snd).map (fun v => (values v).number?) =
      args.map fun z : ℤ => some (z : ℚ)) :
    Divides args cx (aklFnDdiv values cx) ∧
      ((∀ casts, DividesExactly args cx (aklFnIdiv casts values cx)) ↔ DivSafe args) ∧
      ((∀ casts, Divides args cx (aklFnMod casts values cx)) ↔ ModSafe args) :=
  have on : cx.On (cells.map Prod.snd) := ⟨below, cells, [], covers, rfl⟩
  ⟨aklFnDdiv_divides on numbers, aklFnIdiv_divides_iff on long numbers,
    aklFnMod_divides_iff covers numbers⟩

/-- A stack of two numbers, each at the address that it is. -/
theorem twoNumbers_covers (a b : ℕ) (name : String) :
    Covers (CallState.start name (aklStackPush (aklStackPush default a) b) 2 .init []).stack
      (CallState.start name (aklStackPush (aklStackPush default a) b) 2 .init []).cxFrame []
      [(0, a), (1, b)] [] :=
  have holds : (aklStackPush (aklStackPush default a) b).Holds ([] ++ [(0, a), (1, b)]) :=
    (StackState.Holds.empty.push a).push b
  holds.aklInitFrame (by simp)

/-- 7 and 2 are divided in every way, and 7 and 0 not by `mod`. -/
theorem division_seven_two :
    let values : VRef → ValueRecord := fun v => aklNumber v
    let cx := CallState.start "div" (aklStackPush (aklStackPush default 7) 2) 2 .init []
    let zero := CallState.start "mod" (aklStackPush (aklStackPush default 7) 0) 2 .init []
    (Divides [7, 2] cx (aklFnDdiv values cx) ∧
      (∀ casts, DividesExactly [7, 2] cx (aklFnIdiv casts values cx)) ∧
      ∀ casts, Divides [7, 2] cx (aklFnMod casts values cx)) ∧
    ¬ ∀ casts, Divides [7, 0] zero (aklFnMod casts values zero) := by
  intro values cx zero
  rcases @division_iff values cx _ _ (twoNumbers_covers 7 2 "div") [7, 2] (by decide) rfl with
    ⟨always, whole, rest⟩
  have wholeSafe : DivSafe [7, 2] := by
    refine ⟨by decide, fun overflows => absurd overflows.1 (by decide), ?_⟩
    rintro b single -
    cases single
    exact doubleOfLong_eq (by decide)
  have modSafe : ModSafe [7, 2] := ⟨by decide, by decide, by decide⟩
  refine ⟨⟨always, whole.mpr wholeSafe, rest.mpr modSafe⟩, fun divides => ?_⟩
  have safe := (@division_iff values zero _ _ (twoNumbers_covers 7 0 "mod") [7, 0] (by decide)
    rfl).2.2.mp divides
  exact safe.2.1 rfl

/-- `(mod 7 0)` traps, and `(div 7 4294967296)` may trap. -/
theorem division_traps :
    let values : VRef → ValueRecord := fun v => aklNumber v
    let mod := CallState.start "mod" (aklStackPush (aklStackPush default 7) 0) 2 .init []
    let div := CallState.start "div" (aklStackPush (aklStackPush default 7) 4294967296) 2 .init []
    (¬ ∀ casts, Divides [7, 0] mod (aklFnMod casts values mod)) ∧
      ¬ ∀ casts, DividesExactly [7, 4294967296] div (aklFnIdiv casts values div) := by
  constructor
  · intro divides
    have safe := (aklFnMod_divides_iff (twoNumbers_covers 7 0 "mod") rfl).mp divides
    exact safe.2.1 rfl
  · intro divides
    have on : CallState.On _ [7, 4294967296] :=
      ⟨[], _, [], twoNumbers_covers 7 4294967296 "div", rfl⟩
    have safe := (aklFnIdiv_divides_iff on (by decide) rfl).mp divides
    exact absurd (safe.1 4294967296 (by simp)) (by decide)

end AkLisp
