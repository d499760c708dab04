import AkLisp.Reader.Render
import Mathlib.Data.Int.Log
import Mathlib.Data.List.DropRight
import Mathlib.Data.Rat.Floor

/-!
# Decimal numerals and the conversion `%g`

A numeral is a text of digits with an optional part behind the decimal point and
an optional exponent, and it has a value.  `printf` with `%g` writes a number
as the numeral of its six leading digits; the value of this numeral is the
number rounded to six significant digits.
-/

namespace AkLisp

/-- Without the zeros at the end. -/
def stripZeros (ds : List Chr) : List Chr := ds.rdropWhile (· = code '0')

/-- An exponent is written with its sign and at least two digits. -/
def exponentText (e : ℤ) : List Chr :=
  let ds := decimalDigits e.natAbs
  (if e < 0 then code '-' else code '+') :: (if ds.length < 2 then code '0' :: ds else ds)

/-- A decimal numeral. -/
structure Numeral where
  negative : Bool
  whole : List Chr
  fraction : List Chr
  exponent : Option ℤ
  nonempty : whole ≠ []
  digits : ∀ ch ∈ whole ++ fraction, isdigit ch = true

namespace Numeral

/-- The sign of a numeral. -/
def signText (n : Numeral) : List Chr := if n.negative then [code '-'] else []

/-- The decimal point and what stands behind it. -/
def fractionText (n : Numeral) : List Chr :=
  if n.fraction = [] then [] else code '.' :: n.fraction

/-- The exponent behind its letter. -/
def scaleText (n : Numeral) : List Chr :=
  match n.exponent with
  | none => []
  | some e => code 'e' :: exponentText e

/-- The numeral as it is written. -/
def text (n : Numeral) : List Chr :=
  n.signText ++ (n.whole ++ (n.fractionText ++ n.scaleText))

/-- The number a numeral stands for. -/
def value (n : Numeral) : ℚ :=
  (if n.negative then -1 else 1) *
    (readDigits 10 (n.whole ++ n.fraction) * 10 ^ (n.exponent.getD 0 - n.fraction.length))

end Numeral

theorem stripZeros_spec (ds : List Chr) :
    ∃ k, ds = stripZeros ds ++ List.replicate k (code '0') := by
  induction ds using List.reverseRecOn with
  | nil => exact ⟨0, rfl⟩
  | append_singleton ds d ih =>
      by_cases zero : d = code '0'
      · obtain ⟨k, equal⟩ := ih
        refine ⟨k + 1, ?_⟩
        have stripEq : stripZeros (ds ++ [d]) = stripZeros ds :=
          List.rdropWhile_concat_pos _ _ _ (by simpa using zero)
        rw [stripEq, List.replicate_succ', ← List.append_assoc, ← equal, zero]
      · have stripEq : stripZeros (ds ++ [d]) = ds ++ [d] :=
          List.rdropWhile_concat_neg _ _ _ (by simpa using zero)
        exact ⟨0, by rw [stripEq, List.replicate_zero, List.append_nil]⟩

theorem mem_of_stripZeros {ds : List Chr} {ch : Chr} (mem : ch ∈ stripZeros ds) : ch ∈ ds := by
  obtain ⟨k, equal⟩ := stripZeros_spec ds
  rw [equal]
  exact List.mem_append_left _ mem

theorem readDigits_append (base : ℕ) (a b : List Chr) :
    readDigits base (a ++ b) = readDigits base a * base ^ b.length + readDigits base b := by
  induction b using List.reverseRecOn with
  | nil => simp [readDigits]
  | append_singleton b d ih =>
      have last (ds : List Chr) :
          readDigits base (ds ++ [d]) = (d - code '0').toNat + base * readDigits base ds := by
        rw [readDigits, List.foldl_append]
        rfl
      rw [← List.append_assoc, last, ih, last, List.length_append, List.length_singleton, pow_succ]
      ring

theorem readDigits_zeros (base k : ℕ) : readDigits base (List.replicate k (code '0')) = 0 := by
  induction k with
  | zero => rfl
  | succ k ih =>
      rw [List.replicate_succ', readDigits_append, ih]
      simp [readDigits]

/-- Zeros at the end of the fraction do not matter. -/
theorem readDigits_stripZeros (whole fraction : List Chr) (e : ℤ) :
    (readDigits 10 (whole ++ stripZeros fraction) : ℚ) * 10 ^ (e - (stripZeros fraction).length) =
      readDigits 10 (whole ++ fraction) * 10 ^ (e - fraction.length) := by
  obtain ⟨k, equal⟩ := stripZeros_spec fraction
  generalize stripZeros fraction = stripped at equal ⊢
  rw [equal, ← List.append_assoc, readDigits_append 10 (whole ++ stripped), readDigits_zeros,
    List.length_append, List.length_replicate]
  push_cast
  rw [add_zero, mul_assoc, ← zpow_natCast, ← zpow_add₀ (by norm_num)]
  congr 2
  ring

theorem isdigit_zero : isdigit (code '0') = true := by decide

theorem decimalDigits_ne_nil (n : ℕ) : decimalDigits n ≠ [] := by
  obtain ⟨⟨d, ds, equal, -⟩, -⟩ := decimalDigits_spec n
  rw [equal]
  exact List.cons_ne_nil _ _

/-- The numeral with these digits, the first of which has the given weight, without
the zeros at its end: in the format of `%f` or in that of `%e`. -/
def Numeral.ofDigits (negative : Bool) (m : ℕ) (exponent : ℤ) : Numeral :=
  let ds := decimalDigits m
  if -4 ≤ exponent ∧ exponent < 6 then
    if 0 ≤ exponent then
      { negative
        whole := ds.take (exponent.toNat + 1)
        fraction := stripZeros (ds.drop (exponent.toNat + 1))
        exponent := none
        nonempty := by simpa using decimalDigits_ne_nil m
        digits := by
          intro ch mem
          apply (decimalDigits_spec m).2
          rcases List.mem_append.mp mem with mem | mem
          · exact List.mem_of_mem_take mem
          · exact List.mem_of_mem_drop (mem_of_stripZeros mem) }
    else
      { negative
        whole := [code '0']
        fraction := stripZeros (List.replicate (-exponent - 1).toNat (code '0') ++ ds)
        exponent := none
        nonempty := by simp
        digits := by
          intro ch mem
          rcases List.mem_append.mp mem with mem | mem
          · rw [List.mem_singleton.mp mem]
            exact isdigit_zero
          · rcases List.mem_append.mp (mem_of_stripZeros mem) with mem | mem
            · rw [List.eq_of_mem_replicate mem]
              exact isdigit_zero
            · exact (decimalDigits_spec m).2 ch mem }
  else
    { negative
      whole := ds.take 1
      fraction := stripZeros (ds.drop 1)
      exponent := some exponent
      nonempty := by simpa using decimalDigits_ne_nil m
      digits := by
        intro ch mem
        apply (decimalDigits_spec m).2
        rcases List.mem_append.mp mem with mem | mem
        · exact List.mem_of_mem_take mem
        · exact List.mem_of_mem_drop (mem_of_stripZeros mem) }

/-- The nearest integer, the even one of two. -/
def roundHalfEven (x : ℚ) : ℕ :=
  let whole := ⌊x⌋₊
  if x - whole < 1 / 2 ∨ x - whole = 1 / 2 ∧ whole % 2 = 0 then whole else whole + 1

/-- The six leading digits of a positive number and the exponent of the first. -/
def leadingDigits (x : ℚ) : ℕ × ℤ :=
  let exponent := Int.log 10 x
  let digits := roundHalfEven (x / 10 ^ (exponent - 5))
  if digits = 10 ^ 6 then (10 ^ 5, exponent + 1) else (digits, exponent)

/-- The numeral `%g` makes of a number. -/
def numeralG (x : ℚ) : Numeral :=
  if x = 0 then ⟨false, [code '0'], [], none, by simp, by simp [isdigit_zero]⟩
  else .ofDigits (decide (x < 0)) (leadingDigits |x|).1 (leadingDigits |x|).2

/-- What `printf` writes for `%g`. -/
def formatG (x : ℚ) : List Chr := (numeralG x).text

/-- A number rounded to six significant digits. -/
def sixSignificant (x : ℚ) : ℚ :=
  if x = 0 then 0
  else (if x < 0 then -1 else 1) *
    ((leadingDigits |x|).1 * 10 ^ ((leadingDigits |x|).2 - 5))

section Rounding

theorem roundHalfEven_natCast (k : ℕ) : roundHalfEven k = k := by
  simp [roundHalfEven]

theorem le_roundHalfEven {x : ℚ} {k : ℕ} (below : (k : ℚ) ≤ x) : k ≤ roundHalfEven x := by
  have floorLe : k ≤ ⌊x⌋₊ := Nat.le_floor below
  unfold roundHalfEven
  dsimp only
  split
  · exact floorLe
  · exact floorLe.trans (Nat.le_succ _)

theorem roundHalfEven_le {x : ℚ} {k : ℕ} (nonneg : 0 ≤ x) (below : x < k) :
    roundHalfEven x ≤ k := by
  have floorLt : ⌊x⌋₊ < k := (Nat.floor_lt nonneg).mpr below
  unfold roundHalfEven
  dsimp only
  split
  · exact floorLt.le
  · exact floorLt

variable {x : ℚ}

/-- The number without its exponent. -/
theorem scaled_bounds (positive : 0 < x) :
    10 ^ 5 ≤ x / 10 ^ (Int.log 10 x - 5) ∧ x / 10 ^ (Int.log 10 x - 5) < 10 ^ 6 := by
  have lower : (10 : ℚ) ^ Int.log 10 x ≤ x := Int.zpow_log_le_self (by norm_num) positive
  have upper : x < (10 : ℚ) ^ (Int.log 10 x + 1) := Int.lt_zpow_succ_log_self (by norm_num) x
  have scalePositive : (0 : ℚ) < 10 ^ (Int.log 10 x - 5) := zpow_pos (by norm_num) _
  have lowerEq : (10 : ℚ) ^ Int.log 10 x = 10 ^ 5 * 10 ^ (Int.log 10 x - 5) := by
    rw [← zpow_natCast, ← zpow_add₀ (by norm_num)]
    congr 1
    push_cast
    ring
  have upperEq : (10 : ℚ) ^ (Int.log 10 x + 1) = 10 ^ 6 * 10 ^ (Int.log 10 x - 5) := by
    rw [← zpow_natCast, ← zpow_add₀ (by norm_num)]
    congr 1
    push_cast
    ring
  rw [le_div_iff₀ scalePositive, div_lt_iff₀ scalePositive, ← lowerEq, ← upperEq]
  exact ⟨lower, upper⟩

/-- There are six leading digits. -/
theorem leadingDigits_bounds (positive : 0 < x) :
    10 ^ 5 ≤ (leadingDigits x).1 ∧ (leadingDigits x).1 < 10 ^ 6 := by
  obtain ⟨lower, upper⟩ := scaled_bounds positive
  have atLeast : 10 ^ 5 ≤ roundHalfEven (x / 10 ^ (Int.log 10 x - 5)) :=
    le_roundHalfEven (by exact_mod_cast lower)
  have atMost : roundHalfEven (x / 10 ^ (Int.log 10 x - 5)) ≤ 10 ^ 6 :=
    roundHalfEven_le (le_trans (by norm_num) lower) (by exact_mod_cast upper)
  unfold leadingDigits
  dsimp only
  split
  · exact ⟨le_refl _, by norm_num⟩
  · next notCarried => exact ⟨atLeast, lt_of_le_of_ne atMost notCarried⟩

/-- The exponent is that of the number or, after a carry, one more. -/
theorem leadingDigits_exponent (x : ℚ) :
    Int.log 10 x ≤ (leadingDigits x).2 ∧ (leadingDigits x).2 ≤ Int.log 10 x + 1 := by
  unfold leadingDigits
  dsimp only
  split
  · exact ⟨by simp, le_refl _⟩
  · exact ⟨le_refl _, by simp⟩

/-- Nothing is lost where the sixth digit is the last one. -/
theorem leadingDigits_exact (positive : 0 < x) {k : ℕ}
    (integral : x / 10 ^ (Int.log 10 x - 5) = k) :
    ((leadingDigits x).1 : ℚ) * 10 ^ ((leadingDigits x).2 - 5) = x := by
  have upper := (scaled_bounds positive).2
  rw [integral] at upper
  have notCarried : k ≠ 10 ^ 6 := by
    rintro rfl
    exact absurd upper (by norm_num)
  have digitsEq : leadingDigits x = (k, Int.log 10 x) := by
    unfold leadingDigits
    simp only [integral, roundHalfEven_natCast, if_neg notCarried]
  rw [digitsEq, ← integral]
  exact div_mul_cancel₀ x (zpow_ne_zero _ (by norm_num))

end Rounding

theorem length_decimalDigits {m : ℕ} (lower : 10 ^ 5 ≤ m) (upper : m < 10 ^ 6) :
    (decimalDigits m).length = 6 := by
  have nonzero : m ≠ 0 := by omega
  have atMost := (Nat.digits_length_le_iff (b := 10) (by norm_num) m).mpr upper
  have atLeast := (Nat.lt_digits_length_iff (b := 10) (by norm_num) m).mpr lower
  unfold decimalDigits
  rw [if_neg nonzero, List.length_map, List.length_reverse]
  omega

/-- Both formats write the same number. -/
theorem Numeral.ofDigits_value (negative : Bool) {m : ℕ} (lower : 10 ^ 5 ≤ m) (upper : m < 10 ^ 6)
    (exponent : ℤ) :
    (ofDigits negative m exponent).value =
      (if negative then -1 else 1) * (m * 10 ^ (exponent - 5)) := by
  have length := length_decimalDigits lower upper
  have read := readDigits_decimalDigits m
  unfold ofDigits
  dsimp only
  split
  · next fixed =>
      split
      · next nonneg =>
          rw [Numeral.value]
          dsimp only
          rw [readDigits_stripZeros, List.take_append_drop, read, List.length_drop, length]
          congr 3
          simp only [Option.getD_none]
          omega
      · next below =>
          rw [Numeral.value]
          dsimp only
          rw [readDigits_stripZeros, ← List.append_assoc, readDigits_append, List.singleton_append,
            ← List.replicate_succ, readDigits_zeros, read, List.length_append,
            List.length_replicate, length]
          congr 3
          · simp
          · simp only [Option.getD_none]
            omega
  · rw [Numeral.value]
    dsimp only
    rw [readDigits_stripZeros, List.take_append_drop, read, List.length_drop, length]
    congr 3

/-- The numeral `%g` writes stands for the number rounded to six significant
digits. -/
theorem numeralG_value (x : ℚ) : (numeralG x).value = sixSignificant x := by
  unfold numeralG sixSignificant
  split
  · simp [Numeral.value, readDigits]
  · next nonzero =>
      have bounds := leadingDigits_bounds (abs_pos.mpr nonzero)
      rw [Numeral.ofDigits_value _ bounds.1 bounds.2]
      simp

/-- An integer with at most six significant digits. -/
def HasSixDigits (n : ℤ) : Prop := ∃ (k : ℤ) (j : ℕ), k.natAbs < 10 ^ 6 ∧ n = k * 10 ^ j

section Integers

variable {n : ℤ}

theorem abs_intCast (n : ℤ) : |(n : ℚ)| = (n.natAbs : ℕ) := by
  rw [Nat.cast_natAbs, Int.cast_abs]

theorem log_abs_intCast (n : ℤ) : Int.log 10 |(n : ℚ)| = Nat.log 10 n.natAbs := by
  rw [abs_intCast, Int.log_natCast]

/-- The exponent of an integer is not negative. -/
theorem leadingDigits_nonneg (n : ℤ) : 0 ≤ (leadingDigits |(n : ℚ)|).2 := by
  have lower := (leadingDigits_exponent |(n : ℚ)|).1
  rw [log_abs_intCast] at lower
  omega

theorem sign_mul_abs (n : ℤ) : (if (n : ℚ) < 0 then -1 else 1) * |(n : ℚ)| = n := by
  split
  · next negative => rw [abs_of_neg negative]; ring
  · next nonneg => rw [abs_of_nonneg (not_lt.mp nonneg), one_mul]

/-- An integer is its own rounding if its sixth digit is the last one that is not
zero. -/
theorem sixSignificant_of_integral (nonzero : n ≠ 0) {k : ℕ}
    (integral : (n.natAbs : ℚ) / 10 ^ ((Nat.log 10 n.natAbs : ℤ) - 5) = k) :
    sixSignificant n = n := by
  have castNonzero : (n : ℚ) ≠ 0 := Int.cast_ne_zero.mpr nonzero
  rw [← abs_intCast, ← log_abs_intCast] at integral
  unfold sixSignificant
  rw [if_neg castNonzero, leadingDigits_exact (abs_pos.mpr castNonzero) integral,
    sign_mul_abs]

/-- Integers with few digits are written in full. -/
theorem sixSignificant_of_small (small : Nat.log 10 n.natAbs ≤ 5) : sixSignificant n = n := by
  by_cases zero : n = 0
  · simp [zero, sixSignificant]
  · refine sixSignificant_of_integral zero (k := n.natAbs * 10 ^ (5 - Nat.log 10 n.natAbs)) ?_
    have exponentEq : (Nat.log 10 n.natAbs : ℤ) - 5 = -((5 - Nat.log 10 n.natAbs : ℕ) : ℤ) := by
      omega
    rw [exponentEq, zpow_neg, zpow_natCast, div_inv_eq_mul]
    push_cast
    rfl

/-- The rounding of an integer with more digits is an integer. -/
theorem sixSignificant_of_large (nonzero : n ≠ 0) (large : 5 < Nat.log 10 n.natAbs) :
    ∃ (k : ℤ) (j : ℕ), k.natAbs < 10 ^ 6 ∧ j + 4 ≤ Nat.log 10 n.natAbs ∧
      sixSignificant n = ((k * 10 ^ j : ℤ) : ℚ) := by
  have castNonzero : (n : ℚ) ≠ 0 := Int.cast_ne_zero.mpr nonzero
  have bounds := leadingDigits_bounds (abs_pos.mpr castNonzero)
  have exponent := leadingDigits_exponent |(n : ℚ)|
  rw [log_abs_intCast] at exponent
  obtain ⟨j, exponentEq⟩ := Int.eq_ofNat_of_zero_le
    (show 0 ≤ (leadingDigits |(n : ℚ)|).2 - 5 by omega)
  refine ⟨(if (n : ℚ) < 0 then -1 else 1) * (leadingDigits |(n : ℚ)|).1, j, ?_, by omega, ?_⟩
  · split <;> simpa using bounds.2
  · unfold sixSignificant
    rw [if_neg castNonzero, exponentEq, zpow_natCast]
    split
    · push_cast
      ring
    · push_cast
      ring

/-- Exactly the integers with at most six significant digits are their own
rounding. -/
theorem sixSignificant_eq_iff (n : ℤ) : sixSignificant n = n ↔ HasSixDigits n := by
  constructor
  · intro same
    by_cases few : n.natAbs < 10 ^ 6
    · exact ⟨n, 0, few, by simp⟩
    · have nonzero : n ≠ 0 := by
        rintro rfl
        exact few (by norm_num)
      have large : 6 ≤ Nat.log 10 n.natAbs :=
        Nat.le_log_of_pow_le (by norm_num) (not_lt.mp few)
      obtain ⟨k, j, bound, -, valueEq⟩ := sixSignificant_of_large nonzero large
      exact ⟨k, j, bound, by exact_mod_cast same.symm.trans valueEq⟩
  · rintro ⟨k, j, bound, rfl⟩
    by_cases zero : k * 10 ^ j = 0
    · rw [zero]
      simp [sixSignificant]
    · have natAbsEq : (k * 10 ^ j).natAbs = k.natAbs * 10 ^ j := by
        rw [Int.natAbs_mul, Int.natAbs_pow]
        rfl
      have few : Nat.log 10 (k * 10 ^ j).natAbs < j + 6 := by
        apply Nat.log_lt_of_lt_pow (Int.natAbs_ne_zero.mpr zero)
        rw [natAbsEq, pow_add, mul_comm]
        exact Nat.mul_lt_mul_of_pos_left bound (Nat.pow_pos (by norm_num))
      refine sixSignificant_of_integral zero
        (k := k.natAbs * 10 ^ (j + 5 - Nat.log 10 (k * 10 ^ j).natAbs)) ?_
      generalize Nat.log 10 (k * 10 ^ j).natAbs = log at few ⊢
      have exponentEq : (j : ℤ) - (log - 5) = ((j + 5 - log : ℕ) : ℤ) := by omega
      rw [natAbsEq]
      push_cast
      rw [mul_div_assoc, ← zpow_natCast, ← zpow_sub₀ (by norm_num), exponentEq, zpow_natCast]

/-- What `%g` writes for an integer that is a `double` stands for one, too. -/
theorem sixSignificant_isDouble (below : n.natAbs < 2 ^ 53) :
    ∃ r : DoubleInt, (r.value : ℚ) = sixSignificant n := by
  by_cases small : Nat.log 10 n.natAbs ≤ 5
  · refine ⟨⟨n, n, 0, below, by norm_num, by simp⟩, ?_⟩
    exact (sixSignificant_of_small small).symm
  · have nonzero : n ≠ 0 := by
      rintro rfl
      exact small (by simp)
    obtain ⟨k, j, bound, lower, valueEq⟩ := sixSignificant_of_large nonzero (by omega)
    have few : Nat.log 10 n.natAbs < 16 :=
      Nat.log_lt_of_lt_pow (by omega) (lt_trans below (by norm_num))
    refine ⟨⟨k * 10 ^ j, k * 5 ^ j, j, ?_, by omega, ?_⟩, valueEq.symm⟩
    · have power : 5 ^ j ≤ 5 ^ 11 := Nat.pow_le_pow_right (by norm_num) (by omega)
      rw [Int.natAbs_mul, Int.natAbs_pow]
      calc k.natAbs * 5 ^ j ≤ 10 ^ 6 * 5 ^ 11 := Nat.mul_le_mul bound.le power
        _ < 2 ^ 53 := by norm_num
    · rw [mul_assoc, ← mul_pow]
      rfl

end Integers

section Characters

/-- A digit and what may follow it in a number. -/
def IsNumberText (text : List Chr) : Prop :=
  ∃ d ds, text = d :: ds ∧ isdigit d = true ∧
    ∀ ch ∈ ds, isValidInNumber ch = true ∧ IsStringChar ch

theorem isNumberChar_digit {ch : Chr} (digit : isdigit ch = true) :
    isValidInNumber ch = true ∧ IsStringChar ch := by
  refine ⟨isValidInNumber_digit digit, isStringChar_atomPart ?_⟩
  simp [isAtomPart, digit]

theorem isNumberChar_of_mem {ch : Chr} (mem : ch ∈ "+-.e".toList.map code) :
    isValidInNumber ch = true ∧ IsStringChar ch := by
  have all : ∀ c ∈ "+-.e".toList.map code, isValidInNumber c = true ∧ 0 < c ∧ c < 128 := by decide
  obtain ⟨valid, bounds⟩ := all ch mem
  exact ⟨valid, IsAscii.isStringChar bounds⟩

theorem exponentText_chars (e : ℤ) :
    ∀ ch ∈ exponentText e, isValidInNumber ch = true ∧ IsStringChar ch := by
  have digits : ∀ ch ∈ decimalDigits e.natAbs, isValidInNumber ch = true ∧ IsStringChar ch :=
    fun ch mem => isNumberChar_digit ((decimalDigits_spec _).2 ch mem)
  intro ch mem
  unfold exponentText at mem
  rcases List.mem_cons.mp mem with rfl | mem
  · split
    · exact isNumberChar_of_mem (by decide)
    · exact isNumberChar_of_mem (by decide)
  · split at mem
    · rcases List.mem_cons.mp mem with rfl | mem
      · exact isNumberChar_digit isdigit_zero
      · exact digits ch mem
    · exact digits ch mem

/-- A numeral without its sign is a number token. -/
theorem Numeral.isNumberText (n : Numeral) :
    IsNumberText (n.whole ++ (n.fractionText ++ n.scaleText)) := by
  obtain ⟨d, ds, wholeEq⟩ := List.exists_cons_of_ne_nil n.nonempty
  refine ⟨d, ds ++ (n.fractionText ++ n.scaleText), by rw [wholeEq]; rfl, ?_, ?_⟩
  · exact n.digits d (by simp [wholeEq])
  · intro ch mem
    rcases List.mem_append.mp mem with mem | mem
    · exact isNumberChar_digit (n.digits ch (by simp [wholeEq, mem]))
    · rcases List.mem_append.mp mem with mem | mem
      · unfold fractionText at mem
        split at mem
        · cases mem
        · rcases List.mem_cons.mp mem with rfl | mem
          · exact isNumberChar_of_mem (by decide)
          · exact isNumberChar_digit (n.digits ch (List.mem_append_right _ mem))
      · unfold scaleText at mem
        split at mem
        · cases mem
        · rcases List.mem_cons.mp mem with rfl | mem
          · exact isNumberChar_of_mem (by decide)
          · exact exponentText_chars _ ch mem

/-- A numeral whose digits do not start with a zero does not start with one. -/
theorem Numeral.ofDigits_head (negative : Bool) {m : ℕ} (nonzero : m ≠ 0) {exponent : ℤ}
    (nonneg : 0 ≤ exponent) : (ofDigits negative m exponent).text.head? ≠ some (code '0') := by
  obtain ⟨⟨d, ds, digitsEq, first⟩, -⟩ := decimalDigits_spec m
  have whole (n : Numeral) (k : ℕ) (wholeEq : n.whole = (decimalDigits m).take (k + 1)) :
      n.text.head? ≠ some (code '0') := by
    rw [digitsEq, List.take_succ_cons] at wholeEq
    unfold text signText
    split
    · exact fun equal => absurd (Option.some.inj equal) (by decide)
    · rw [wholeEq]
      exact fun equal => first nonzero (Option.some.inj equal)
  unfold ofDigits
  dsimp only
  split
  · exact whole _ exponent.toNat rfl
  · exact whole _ 0 rfl

end Characters

/-- What is assumed of `strtod` and `sscanf`: a numeral that stands for an integer
that is a `double` is read as this number. -/
structure ReadsNumerals [Libc] : Prop where
  strtod : ∀ (n : Numeral) (r : DoubleInt), n.value = r.value → Libc.strtod n.text = r.value
  scanOctal : Libc.scanOctal [code '0'] = 0

/-- The number the reader makes of what `%g` writes for an integer. -/
theorem ReadsNumerals.numberOfText_formatG [Libc] (reading : ReadsNumerals) {n : ℤ}
    (below : n.natAbs < 2 ^ 53) : numberOfText (formatG n) = sixSignificant n := by
  by_cases zero : n = 0
  · have text : formatG (n : ℚ) = [code '0'] := by
      rw [zero]
      simp [formatG, numeralG, Numeral.text, Numeral.signText, Numeral.fractionText,
        Numeral.scaleText]
    have number : numberOfText [code '0'] = Libc.scanOctal [code '0'] := by
      rw [numberOfText, if_pos (by decide)]
    rw [text, number, reading.scanOctal, zero]
    simp [sixSignificant]
  · have castNonzero : (n : ℚ) ≠ 0 := Int.cast_ne_zero.mpr zero
    have digits := (leadingDigits_bounds (abs_pos.mpr castNonzero)).1
    have head : (formatG (n : ℚ)).head? ≠ some (code '0') := by
      unfold formatG numeralG
      rw [if_neg castNonzero]
      exact Numeral.ofDigits_head _ (by omega) (leadingDigits_nonneg n)
    have first : (formatG (n : ℚ) ++ [0]).getD 0 0 ≠ code '0' := by
      cases textEq : formatG (n : ℚ) with
      | nil => decide
      | cons c cs =>
          rw [textEq] at head
          exact fun equal => head (congrArg some equal)
    obtain ⟨r, valueEq⟩ := sixSignificant_isDouble below
    rw [numberOfText, if_neg (fun both => first both.1), ← valueEq]
    exact reading.strtod (numeralG n) r ((numeralG_value n).trans valueEq.symm)

/-- The value of an exponent behind its letter. -/
def exponentValue : List Chr → ℤ
  | [] => 0
  | sign :: ds => if sign = code '-' then -(readDigits 10 ds : ℤ) else readDigits 10 ds

/-- The value of a numeral without its sign. -/
def magnitude (text : List Chr) : ℚ :=
  let mantissa := text.takeWhile (· ≠ code 'e')
  let whole := mantissa.takeWhile (· ≠ code '.')
  let fraction := (mantissa.dropWhile (· ≠ code '.')).tail
  readDigits 10 (whole ++ fraction) *
    10 ^ (exponentValue (text.dropWhile (· ≠ code 'e')).tail - fraction.length)

/-- What `strtod` makes of a numeral. -/
def floatValue (text : List Chr) : ℚ :=
  if text.head? = some (code '-') then -magnitude text.tail else magnitude text

theorem exponentValue_exponentText (e : ℤ) : exponentValue (exponentText e) = e := by
  have read : readDigits 10 (if (decimalDigits e.natAbs).length < 2 then
      code '0' :: decimalDigits e.natAbs else decimalDigits e.natAbs) = e.natAbs := by
    split
    · rw [← List.singleton_append, readDigits_append, readDigits_decimalDigits]
      simp [readDigits]
    · exact readDigits_decimalDigits _
  unfold exponentText exponentValue
  dsimp only
  rw [read]
  by_cases negative : e < 0
  · rw [if_pos negative, if_pos rfl]
    omega
  · rw [if_neg negative, if_neg (by decide)]
    omega

theorem ne_of_isdigit {ch c : Chr} (digit : isdigit ch = true) (other : isdigit c = false) :
    ch ≠ c := by
  rintro rfl
  rw [digit] at other
  cases other

theorem Numeral.magnitude_text (n : Numeral) :
    magnitude (n.whole ++ (n.fractionText ++ n.scaleText)) =
      readDigits 10 (n.whole ++ n.fraction) * 10 ^ (n.exponent.getD 0 - n.fraction.length) := by
  have digits : ∀ ch ∈ n.whole ++ n.fraction, ch ≠ code 'e' ∧ ch ≠ code '.' := fun ch mem =>
    ⟨ne_of_isdigit (n.digits ch mem) (by decide), ne_of_isdigit (n.digits ch mem) (by decide)⟩
  have whole : ∀ ch ∈ n.whole, ch ≠ code '.' := fun ch mem =>
    (digits ch (List.mem_append_left _ mem)).2
  have noLetter : ∀ ch ∈ n.whole ++ n.fractionText, ch ≠ code 'e' := by
    intro ch mem
    rcases List.mem_append.mp mem with mem | mem
    · exact (digits ch (List.mem_append_left _ mem)).1
    · unfold fractionText at mem
      split at mem
      · cases mem
      · rcases List.mem_cons.mp mem with rfl | mem
        · decide
        · exact (digits ch (List.mem_append_right _ mem)).1
  have mantissaEq : (n.whole ++ (n.fractionText ++ n.scaleText)).takeWhile (· ≠ code 'e') =
      n.whole ++ n.fractionText := by
    rw [← List.append_assoc, List.takeWhile_append_of_pos (by simpa using noLetter)]
    unfold scaleText
    cases n.exponent <;> simp
  have scaleEq : (n.whole ++ (n.fractionText ++ n.scaleText)).dropWhile (· ≠ code 'e') =
      n.scaleText := by
    rw [← List.append_assoc, List.dropWhile_append_of_pos (by simpa using noLetter)]
    unfold scaleText
    cases n.exponent <;> simp
  have wholeEq : (n.whole ++ n.fractionText).takeWhile (· ≠ code '.') = n.whole := by
    rw [List.takeWhile_append_of_pos (by simpa using whole)]
    unfold fractionText
    split <;> simp
  have fractionEq : ((n.whole ++ n.fractionText).dropWhile (· ≠ code '.')).tail = n.fraction := by
    rw [List.dropWhile_append_of_pos (by simpa using whole)]
    unfold fractionText
    split
    · next empty => simp [empty]
    · simp
  have exponentEq : exponentValue n.scaleText.tail = n.exponent.getD 0 := by
    unfold scaleText
    cases n.exponent with
    | none => rfl
    | some e => exact exponentValue_exponentText e
  unfold magnitude
  dsimp only
  rw [mantissaEq, wholeEq, fractionEq, scaleEq, exponentEq]

theorem Numeral.floatValue_text (n : Numeral) : floatValue n.text = n.value := by
  unfold floatValue text signText value
  cases n.negative with
  | true =>
      change (if some (code '-') = some (code '-') then -magnitude (n.whole ++ _) else _) = _
      rw [if_pos rfl, n.magnitude_text]
      simp
  | false =>
      obtain ⟨d, ds, textEq, digit, -⟩ := n.isNumberText
      have notMinus : (n.whole ++ (n.fractionText ++ n.scaleText)).head? ≠ some (code '-') := by
        rw [textEq]
        exact fun equal => ne_of_isdigit digit (by decide) (Option.some.inj equal)
      change (if (n.whole ++ _).head? = some (code '-') then _ else magnitude (n.whole ++ _)) = _
      rw [if_neg notMinus, n.magnitude_text]
      simp

/-- `strtod` and `sscanf` on numerals. -/
abbrev numeralLibc : Libc := ⟨floatValue, fun text => readDigits 8 text⟩

theorem numeralLibc_reads : @ReadsNumerals numeralLibc :=
  @ReadsNumerals.mk numeralLibc (fun n _ equal => n.floatValue_text.trans equal) (by decide)

end AkLisp
