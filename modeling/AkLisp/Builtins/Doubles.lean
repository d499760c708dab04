import AkLisp.Builtins.Division
import AkLisp.Builtins.Local
import AkLisp.Builtins.Range

/-!
# Numbers that are doubles

The arithmetic of the built-ins rounds every result to a double.  What a result is
rounded to is a parameter; integers of at most 53 bits are not rounded.  Each built-in
makes a new value of the number, so what was there before stays as it is.  Where nothing is
rounded, `+`, `*` and `/` are the built-ins on exact numbers.
-/

namespace AkLisp

open Linked CallState Evaluation

/-- Rounding to a double.  Nothing is said about results that no double is near to. -/
class Doubles where
  toDouble : ℚ → ℚ
  toDouble_int : ∀ z : ℤ, |z| ≤ 2 ^ 53 → toDouble z = z

/-- A value is a number. -/
def Data.IsNumber (d : Data) (v : VRef) (n : ℚ) : Prop := d.payload v = some (.number n)

theorem Data.IsNumber.later {d d' : Data} {v : VRef} {n : ℚ} (number : d.IsNumber v n)
    (later : d ≤ d') : d'.IsNumber v n :=
  Data.payload_later later number

namespace Rounded

open Doubles

variable [Doubles]

/-- A built-in that pops its numbers off the frame and combines them. -/
def popAll (op : ℚ → ℚ → ℚ) (start : ℚ) (cx : CallState) : VRef × CallState :=
  let (result, cx) := cx.popNumbers cx.data.valueRecord (fun acc n => toDouble (op acc n))
    ((aklFrameGetCount cx.cxFrame).toNat + 1) start
  cx.newValue (.number result)

/-- `akl_fn_plus` -/
def aklFnPlus : CallState → VRef × CallState := popAll (fun sum n => sum + n) 0

/-- `akl_fn_mul` -/
def aklFnMul : CallState → VRef × CallState := popAll (fun prod n => prod * n) 1

/-- The end of `akl_fn_minus` for an argument that is not a number. -/
def notANumber (cx : CallState) : VRef × CallState :=
  (cx.aklRaiseError .error "Argument is not a number!").newValue (.number 0)

/-- The loop of `akl_fn_minus`; every round but the last one takes an argument. -/
def minusLoop : Nat → ℚ → CallState → VRef × CallState
  | 0, a, cx => cx.newValue (.number a)
  | rounds + 1, a, cx =>
      match cx.aklFrameShift with
      | (none, cx) => cx.newValue (.number a)
      | (some v, cx) =>
          match cx.number? (some v) with
          | some n => minusLoop rounds (toDouble (a - n)) cx
          | none => notANumber cx

/-- `akl_fn_minus` -/
def aklFnMinus (cx : CallState) : VRef × CallState :=
  match cx.aklFrameShift with
  | (none, cx) => cx.newValue (.number 0)
  | (some v, cx) =>
      match cx.number? (some v) with
      | some a => minusLoop ((aklFrameGetCount cx.cxFrame).toNat + 1) a cx
      | none => notANumber cx

/-- The loop of `akl_fn_ddiv`; every round but the last one takes an argument. -/
def ddivLoop : Nat → ℚ → CallState → VRef × CallState
  | 0, div, cx => cx.newValue (.number div)
  | rounds + 1, div, cx =>
      match cx.aklFrameShiftNumber cx.data.valueRecord with
      | (none, cx) => cx.newValue (.number div)
      | (some n, cx) =>
          if n = 0 then (Data.aklNil, cx.aklRaiseError .error "Zero division.")
          else ddivLoop rounds (toDouble (div / n)) cx

/-- `akl_fn_ddiv` -/
def aklFnDdiv (cx : CallState) : VRef × CallState :=
  match cx.aklFrameShiftNumber cx.data.valueRecord with
  | (none, cx) => cx.newValue (.number 0)
  | (some n, cx) => ddivLoop ((aklFrameGetCount cx.cxFrame).toNat + 1) n cx

/-- `akl_fn_inc` and `akl_fn_dec`, which go to the next or to the previous number. -/
def stepNumber (step : ℚ → ℚ) (cx : CallState) : VRef × CallState :=
  let fetch := cx.aklGetArgsStrict cx.data.valueRecord 1 [.vt .vtNumber]
  if fetch.code = -1 then (Data.aklNil, fetch.state)
  else
    let n := match fetch.stored with
      | [.number n] => n
      | _ => 0
    fetch.state.newValue (.number (toDouble (step n)))

/-- `akl_fn_inc` -/
def aklFnInc : CallState → VRef × CallState := stepNumber fun n => n + 1

/-- `akl_fn_dec` -/
def aklFnDec : CallState → VRef × CallState := stepNumber fun n => n - 1

/-! ### Results -/

/-- The result of a built-in is a new value of the number. -/
def Makes (result : VRef × CallState) (d : Data) (n : ℚ) : Prop :=
  result.1 = d.values.length ∧ result.2.data = (d.newValue ⟨.number n, false, false⟩).2

omit [Doubles] in
theorem makes_newValue {cx : CallState} {d : Data} (dataEq : cx.data = d) (n : ℚ) :
    Makes (cx.newValue (.number n)) d n := by
  subst dataEq
  exact ⟨rfl, rfl⟩

/-- For arguments with these values a built-in makes a new value of the number. -/
def Computes (fn : CallState → VRef × CallState) (d : Data) (vs : List VRef) (n : ℚ) : Prop :=
  ∀ cx : CallState, cx.data = d → cx.On vs → Makes (fn cx) d n

omit [Doubles] in
/-- So does the C function of the machine. -/
theorem Computes.total {Γ : Program} {f : FRef} {fn : CallState → VRef × CallState} {d : Data}
    {vs : List VRef} {n : ℚ} {Q : VRef → Data → Prop} (computes : Computes fn d vs n)
    (callee : Γ f = some (.cfun (CProg.ofTotal fn))) (few : vs.length < 2 ^ 31)
    (holds : Q d.values.length (d.newValue ⟨.number n, false, false⟩).2) :
    Total (Γ.apply f vs) d Q := by
  apply total_local callee few
  intro cx dataEq on
  rcases computes cx dataEq on with ⟨valueEq, newData⟩
  refine ⟨_, _, rfl, ?_, ?_⟩
  · rw [newData]
    exact Data.le_newValue d _
  · rw [valueEq, newData]
    exact holds

omit [Doubles] in
theorem popNumbers_data (values : VRef → ValueRecord) (op : ℚ → ℚ → ℚ) (fuel : Nat) (acc : ℚ)
    (cx : CallState) : (cx.popNumbers values op fuel acc).2.data = cx.data := by
  induction fuel generalizing acc cx with
  | zero => rfl
  | succ fuel ih =>
      have popped : (cx.aklFramePopNumber values).2.data = cx.data := rfl
      rw [CallState.popNumbers]
      cases popEq : cx.aklFramePopNumber values with
      | mk n cx' =>
          rw [popEq] at popped
          cases n with
          | none => exact popped
          | some n => exact (ih _ cx').trans popped

section

variable {d : Data} {vs : List VRef} {ns : List ℚ} {v w : VRef} {a b : ℚ}

omit [Doubles] in
theorem number?_eq (number : d.IsNumber v a) : (d.valueRecord v).number? = some a := by
  rw [ValueRecord.number?, Data.valueRecord_vaValue number]
  rfl

omit [Doubles] in
theorem callNumber?_eq {cx : CallState} (dataEq : cx.data = d) (number : d.IsNumber v a) :
    cx.number? (some v) = some a := by
  have found : cx.data.payload v = some (.number a) := by rw [dataEq]; exact number
  simp only [CallState.number?, Option.bind_some, found]

omit [Doubles] in
theorem leadingNumbers_eq (numbers : List.Forall₂ d.IsNumber vs ns) :
    leadingNumbers d.valueRecord vs = ns := by
  induction numbers with
  | nil => rfl
  | cons number others ih => rw [leadingNumbers, number?_eq number, ih]

/-- `+` and `*` combine their numbers from the last one on. -/
theorem popAll_computes (numbers : List.Forall₂ d.IsNumber vs ns) (op : ℚ → ℚ → ℚ) (start : ℚ) :
    Computes (popAll op start) d vs
      (ns.reverse.foldl (fun acc n => toDouble (op acc n)) start) := by
  intro cx dataEq on
  subst dataEq
  have counted : vs.length < (aklFrameGetCount cx.cxFrame).toNat + 1 := by
    rw [on.count]
    exact Nat.lt_succ_self _
  have result := (on.popNumbers (fun acc n => toDouble (op acc n)) start counted).trans
    (congrArg _ (leadingNumbers_eq (List.rel_reverse numbers)))
  have kept := popNumbers_data cx.data.valueRecord (fun acc n => toDouble (op acc n))
    ((aklFrameGetCount cx.cxFrame).toNat + 1) start cx
  rw [← result]
  exact makes_newValue kept _

/-- `-` takes the others off the first number. -/
theorem minusLoop_makes {cx : CallState} {rounds : Nat} (dataEq : cx.data = d) (on : cx.On vs)
    (numbers : List.Forall₂ d.IsNumber vs ns) (enough : vs.length < rounds) (a : ℚ) :
    Makes (minusLoop rounds a cx) d (ns.foldl (fun a n => toDouble (a - n)) a) := by
  induction numbers generalizing cx rounds a with
  | nil =>
      cases rounds with
      | zero => cases enough
      | succ rounds =>
          rw [minusLoop, on.shift_nil]
          exact makes_newValue dataEq _
  | @cons v n vs ns number others ih =>
      cases rounds with
      | zero => cases enough
      | succ rounds =>
          rcases on.shift with ⟨cx', shiftEq, on', same⟩
          rw [minusLoop, shiftEq]
          simp only [callNumber?_eq (same.data.trans dataEq) number]
          exact ih (same.data.trans dataEq) on' (Nat.lt_of_succ_lt_succ enough) _

theorem minus_computes (number : d.IsNumber v a) (numbers : List.Forall₂ d.IsNumber vs ns) :
    Computes aklFnMinus d (v :: vs) (ns.foldl (fun a n => toDouble (a - n)) a) := by
  intro cx dataEq on
  rcases on.shift with ⟨cx', shiftEq, on', same⟩
  rw [aklFnMinus, shiftEq]
  simp only [callNumber?_eq (same.data.trans dataEq) number]
  apply minusLoop_makes (same.data.trans dataEq) on' numbers
  rw [on'.count]
  exact Nat.lt_succ_self _

/-- `/` divides the first number by the others, which are not zero. -/
theorem ddivLoop_makes {cx : CallState} {rounds : Nat} (dataEq : cx.data = d) (on : cx.On vs)
    (numbers : List.Forall₂ d.IsNumber vs ns) (nonzero : 0 ∉ ns) (enough : vs.length < rounds)
    (a : ℚ) : Makes (ddivLoop rounds a cx) d (ns.foldl (fun a n => toDouble (a / n)) a) := by
  induction numbers generalizing cx rounds a with
  | nil =>
      cases rounds with
      | zero => cases enough
      | succ rounds =>
          rw [ddivLoop, on.shiftNumber_nil]
          exact makes_newValue dataEq _
  | @cons v n vs ns number others ih =>
      cases rounds with
      | zero => cases enough
      | succ rounds =>
          rcases on.shiftNumber cx.data.valueRecord with ⟨cx', shiftEq, on', same⟩
          rw [dataEq, number?_eq number] at shiftEq
          have here : n ≠ 0 := fun zero => nonzero (zero ▸ List.mem_cons_self)
          rw [ddivLoop, dataEq, shiftEq]
          simp only [if_neg here]
          exact ih (same.data.trans dataEq) on' (fun mem => nonzero (List.mem_cons_of_mem n mem))
            (Nat.lt_of_succ_lt_succ enough) _

theorem ddiv_computes (number : d.IsNumber v a) (numbers : List.Forall₂ d.IsNumber vs ns)
    (nonzero : 0 ∉ ns) :
    Computes aklFnDdiv d (v :: vs) (ns.foldl (fun a n => toDouble (a / n)) a) := by
  intro cx dataEq on
  rcases on.shiftNumber cx.data.valueRecord with ⟨cx', shiftEq, on', same⟩
  rw [dataEq, number?_eq number] at shiftEq
  rw [aklFnDdiv, dataEq, shiftEq]
  apply ddivLoop_makes (same.data.trans dataEq) on' numbers nonzero
  rw [on'.count]
  exact Nat.lt_succ_self _

/-- `++` and `--` -/
theorem stepNumber_computes (number : d.IsNumber v a) (step : ℚ → ℚ) :
    Computes (stepNumber step) d [v] (toDouble (step a)) := by
  intro cx dataEq on
  have counted : (aklFrameGetCount cx.cxFrame).toNat = 1 := on.count
  rcases on.shift with ⟨cx', shiftEq, on', same⟩
  have held : (d.valueRecord v).vaValue = .number a := Data.valueRecord_vaValue number
  have fetchEq : cx.aklGetArgsStrict cx.data.valueRecord 1 [.vt .vtNumber] =
      ⟨0, [.number a], cx'⟩ := by
    simp [CallState.aklGetArgsStrict, CallState.getArgsStrictLoop, counted, shiftEq, dataEq,
      ExpectedType.mismatch, ExpectedType.store, held, VaValue.vaType]
  simp only [stepNumber, fetchEq]
  exact makes_newValue (same.data.trans dataEq) _

end

/-! ### Integers -/

section

variable {d : Data} {v w : VRef} {i j : ℤ}

/-- Two integers whose sum is a double are added exactly. -/
theorem plus_ints (first : d.IsNumber v i) (second : d.IsNumber w j) (smallSecond : |j| ≤ 2 ^ 53)
    (smallSum : |i + j| ≤ 2 ^ 53) : Computes aklFnPlus d [v, w] ((i + j : ℤ) : ℚ) := by
  have computes := popAll_computes (.cons first (.cons second .nil)) (fun sum n => sum + n) 0
  have last : toDouble ((0 : ℚ) + j) = (j : ℚ) := by rw [zero_add, toDouble_int j smallSecond]
  have sum : toDouble ((j : ℚ) + i) = ((i + j : ℤ) : ℚ) := by
    rw [← toDouble_int (i + j) smallSum]
    push_cast
    rw [add_comm]
  simp only [List.reverse_cons, List.reverse_nil, List.nil_append, List.cons_append,
    List.foldl_cons, List.foldl_nil, last, sum] at computes
  exact computes

theorem mul_ints (first : d.IsNumber v i) (second : d.IsNumber w j) (smallSecond : |j| ≤ 2 ^ 53)
    (smallProd : |i * j| ≤ 2 ^ 53) : Computes aklFnMul d [v, w] ((i * j : ℤ) : ℚ) := by
  have computes := popAll_computes (.cons first (.cons second .nil)) (fun prod n => prod * n) 1
  have last : toDouble ((1 : ℚ) * j) = (j : ℚ) := by rw [one_mul, toDouble_int j smallSecond]
  have prod : toDouble ((j : ℚ) * i) = ((i * j : ℤ) : ℚ) := by
    rw [← toDouble_int (i * j) smallProd]
    push_cast
    rw [mul_comm]
  simp only [List.reverse_cons, List.reverse_nil, List.nil_append, List.cons_append,
    List.foldl_cons, List.foldl_nil, last, prod] at computes
  exact computes

theorem minus_ints (first : d.IsNumber v i) (second : d.IsNumber w j)
    (small : |i - j| ≤ 2 ^ 53) : Computes aklFnMinus d [v, w] ((i - j : ℤ) : ℚ) := by
  have computes := minus_computes first (.cons second .nil)
  have difference : toDouble ((i : ℚ) - j) = ((i - j : ℤ) : ℚ) := by
    rw [← toDouble_int (i - j) small]
    push_cast
    rfl
  simpa only [List.foldl_cons, List.foldl_nil, difference] using computes

theorem dec_int (number : d.IsNumber v i) (small : |i - 1| ≤ 2 ^ 53) :
    Computes aklFnDec d [v] ((i - 1 : ℤ) : ℚ) := by
  have computes := stepNumber_computes number fun n => n - 1
  have difference : toDouble ((i : ℚ) - 1) = ((i - 1 : ℤ) : ℚ) := by
    rw [← toDouble_int (i - 1) small]
    push_cast
    rfl
  rw [difference] at computes
  exact computes

end

/-! ### Without rounding -/

/-- What a built-in returns: a new value of the number, or the static `NIL`. -/
def Returns (result : VRef × CallState) (exact : ValueRecord × CallState) : Prop :=
  (∃ n, exact.1 = aklNumber n ∧ result = exact.2.newValue (.number n)) ∨
    exact.1 = nilRecord ∧ result = (Data.aklNil, exact.2)

section Exact

variable (exact : ∀ n, toDouble n = n)

include exact

/-- `+` and `*` are the built-ins that compute exactly, with a rounding behind each operation. -/
theorem popAll_returns (op : ℚ → ℚ → ℚ) (start : ℚ) (cx : CallState) :
    Returns (popAll op start cx) (cx.popAll cx.data.valueRecord op start) := by
  refine Or.inl ⟨(cx.popNumbers cx.data.valueRecord op
    ((aklFrameGetCount cx.cxFrame).toNat + 1) start).1, rfl, ?_⟩
  simp only [popAll, CallState.popAll, exact]

theorem ddivLoop_returns {values : VRef → ValueRecord} {rounds : Nat} {cx : CallState}
    (here : cx.data.valueRecord = values) (div : ℚ) :
    ∃ r, cx.divideLoop .ddiv values rounds div = (some r.1, r.2) ∧
      Returns (ddivLoop rounds div cx) r := by
  induction rounds generalizing cx div with
  | zero => exact ⟨(aklNumber div, cx), rfl, Or.inl ⟨div, rfl, rfl⟩⟩
  | succ rounds ih =>
      have kept : (cx.aklFrameShiftNumber values).2.data = cx.data := rfl
      rw [divideLoop, ddivLoop, here]
      cases shiftEq : cx.aklFrameShiftNumber values with
      | mk shifted cx' =>
          rw [shiftEq] at kept
          cases shifted with
          | none => exact ⟨(aklNumber div, cx'), rfl, Or.inl ⟨div, rfl, rfl⟩⟩
          | some n =>
              by_cases zero : n = 0
              · refine ⟨(nilRecord, cx'.aklRaiseError .error "Zero division."), ?_, ?_⟩
                · simp [Divider.ddiv, zero]
                · exact Or.inr ⟨rfl, by simp [zero]⟩
              · rcases @ih cx' (by rw [kept, here]) (div / n) with ⟨r, ran, returns⟩
                refine ⟨r, ?_, ?_⟩
                · simpa [Divider.ddiv, zero] using ran
                · simpa [zero, exact] using returns

/-- So is `/`. -/
theorem ddiv_returns (cx : CallState) :
    ∃ r, AkLisp.aklFnDdiv cx.data.valueRecord cx = (some r.1, r.2) ∧ Returns (aklFnDdiv cx) r := by
  have kept : (cx.aklFrameShiftNumber cx.data.valueRecord).2.data = cx.data := rfl
  rw [AkLisp.aklFnDdiv, divideAll, aklFnDdiv]
  cases shiftEq : cx.aklFrameShiftNumber cx.data.valueRecord with
  | mk shifted cx' =>
      rw [shiftEq] at kept
      cases shifted with
      | none => exact ⟨(aklNumber 0, cx'), rfl, Or.inl ⟨0, rfl, rfl⟩⟩
      | some n => exact ddivLoop_returns exact (congrArg Data.valueRecord kept) n

end Exact
end Rounded

end AkLisp
