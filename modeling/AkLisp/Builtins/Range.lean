import AkLisp.Builtins.Division
import AkLisp.Builtins.Mapping
import AkLisp.Builtins.Sequence
import AkLisp.Builtins.Typed
import Mathlib.Data.Int.Range

/-!
# Ranges of integers

`range` counts an `int` up from its first argument and stops when the counter has passed
the second one.  The counter is of the type of the bound, so it cannot pass the largest
`int`: there the increment overflows.
-/

namespace AkLisp

open Linked

/-- `INT_MAX` -/
def intMax : ℤ := 2 ^ 31 - 1

/-- How the loop of `range` goes wrong. -/
inductive RangeFault where
  /-- the increment of the largest `int`, which is undefined -/
  | overflow
  /-- the bound on the rounds given to the model is too small -/
  | outOfRounds
  deriving DecidableEq, Repr

/-- `va_value` of a payload. -/
def Payload.vaValue : Payload → VaValue
  | .nil => .nil
  | .true => .true
  | .symbol sym => .symbol sym
  | .number n => .number n
  | .string text => .string text
  | .list l => .list l
  | .function fn => .function fn

/-- What a pointer to a value points to. -/
def Data.valueRecord (d : Data) (v : VRef) : ValueRecord :=
  match d.values[v]? with
  | some value => ⟨value.payload.vaValue, value.isNil⟩
  | none => nilRecord

/-- The loop of `akl_fn_range`, from the number `f` on. -/
def rangeLoop (list : LRef) (t : ℤ) : Nat → ℤ → Data → Except RangeFault Data
  | 0, _, _ => throw .outOfRounds
  | rounds + 1, f, d =>
      if f ≤ t then
        let (v, d) := d.newValue ⟨.number f, false, false⟩
        let d := d.listAppendValue list v
        if f = intMax then throw .overflow else rangeLoop list t rounds (f + 1) d
      else return d

/-- `akl_fn_range` -/
def aklFnRange (rounds : Nat) (ctx : CallState) : Except RangeFault (VRef × CallState) :=
  let fetch := ctx.aklGetArgsStrict ctx.data.valueRecord 2 [.vt .vtNumber, .vt .vtNumber]
  if fetch.code = -1 then return (Data.aklNil, fetch.state)
  else
    match fetch.stored with
    | [.number fp, .number tp] => do
        let (list, data) := fetch.state.data.newList
        let data ← rangeLoop list (toInt tp) rounds (toInt fp) (data.quoteList list)
        let (v, data) := data.newValue ⟨.list list, false, false⟩
        return (v, { fetch.state with data })
    | _ => return (Data.aklNil, fetch.state)

/-! ### The loop -/

theorem range_self {f t : ℤ} (passed : t < f) : Int.range f (t + 1) = [] := by
  have none_ : (t + 1 - f).toNat = 0 := by omega
  rw [Int.range, none_]
  rfl

theorem range_cons {f t : ℤ} (within : f ≤ t) :
    Int.range f (t + 1) = f :: Int.range (f + 1) (t + 1) := by
  have count : (t + 1 - f).toNat = (t + 1 - (f + 1)).toNat + 1 := by omega
  rw [Int.range, Int.range, count, List.range_succ_eq_map, List.map_cons, List.map_map]
  congr 1
  · exact Int.add_zero f
  · apply List.map_congr_left
    intro r _
    simp only [Function.comp_apply, Nat.cast_succ]
    omega

theorem range_length (f t : ℤ) : (Int.range f (t + 1)).length = (max 0 (t - f + 1)).toNat := by
  rw [Int.range, List.length_map, List.length_range]
  omega

/-- The values are new numbers, in this order. -/
def Numbers (d : Data) (ws : List VRef) (ns : List ℤ) : Prop :=
  ws.map d.payload = ns.map fun n : ℤ => some (.number n)

/-- A new number behind those of the list. -/
theorem Collected.number {d : Data} {nl : LRef} {bs : List Addr} {ws : List VRef}
    (collected : Collected d nl bs ws) (n : ℤ) :
    Collected ((d.newValue ⟨.number n, false, false⟩).2.listAppendValue nl d.values.length) nl
      (bs ++ [d.entries.top]) (ws ++ [d.values.length]) := by
  have new : Collected (d.newValue ⟨.number n, false, false⟩).2 nl bs ws :=
    ⟨collected.header, collected.data⟩
  exact new.append _

/-- Below the largest `int` the loop appends the numbers up to its bound and ends. -/
theorem rangeLoop_collected {nl : LRef} {f t : ℤ} {d : Data} {bs : List Addr} {ws : List VRef}
    {rounds : Nat} (small : t < intMax) (collected : Collected d nl bs ws)
    (enough : (t + 1 - f).toNat < rounds) :
    ∃ d' bs' vs, rangeLoop nl t rounds f d = .ok d' ∧ Collected d' nl bs' (ws ++ vs) ∧
      Numbers d' vs (Int.range f (t + 1)) ∧
      ∀ v p, d.payload v = some p → d'.payload v = some p := by
  induction rounds generalizing f d bs ws with
  | zero => cases enough
  | succ rounds ih =>
      rw [rangeLoop]
      by_cases within : f ≤ t
      · have notMax : f ≠ intMax := by omega
        obtain ⟨d', bs', vs, loopEq, collected', numbers, keeps⟩ :=
          ih (f := f + 1) (collected.number f) (by omega)
        have keepsOld : ∀ v p, d.payload v = some p → d'.payload v = some p := by
          intro v p found
          exact keeps v p (Data.newValue_payload d _ found)
        have first : d'.payload d.values.length = some (.number f) :=
          keeps _ _ (Data.newValue_payload_self d _)
        refine ⟨d', bs', d.values.length :: vs, ?_, ?_, ?_, keepsOld⟩
        · simp only [if_pos within, if_neg notMax, Data.newValue_fst]
          exact loopEq
        · rwa [List.append_assoc, List.singleton_append] at collected'
        · rw [Numbers, range_cons within, List.map_cons, List.map_cons, first, numbers]
      · refine ⟨d, bs, [], ?_, ?_, ?_, fun v p found => found⟩
        · rw [if_neg within]
          rfl
        · rwa [List.append_nil]
        · rw [Numbers, range_self (by omega)]
          rfl

/-- Up to the largest `int` it never ends. -/
theorem rangeLoop_intMax {nl : LRef} {f : ℤ} {d d' : Data} {rounds : Nat} (within : f ≤ intMax) :
    rangeLoop nl intMax rounds f d ≠ .ok d' := by
  induction rounds generalizing f d with
  | zero => exact nofun
  | succ rounds ih =>
      rw [rangeLoop, if_pos within]
      by_cases last : f = intMax
      · simp only [if_pos last]
        exact nofun
      · simp only [if_neg last]
        exact ih (by omega)

/-! ### The call -/

/-- The call gives the list of the integers from `f` to `t`: it comes to an end and no
`int` overflows. -/
def RangeIs (ctx : CallState) (f t : ℤ) : Prop :=
  ∃ rounds v ctx' ws, aklFnRange rounds ctx = .ok (v, ctx') ∧ ListResult ctx'.data v ws ∧
    Numbers ctx'.data ws (Int.range f (t + 1)) ∧ ws.length = (max 0 (t - f + 1)).toNat

theorem Data.valueRecord_vaValue {d : Data} {v : VRef} {p : Payload}
    (found : d.payload v = some p) :
    (d.valueRecord v).vaValue = p.vaValue := by
  obtain ⟨value, valueEq, rfl⟩ := Option.map_eq_some_iff.mp found
  rw [valueRecord, valueEq]

/-- The type of a number accepts it, and what it gives is the number. -/
theorem Data.accepts_number {d : Data} {v : VRef} {n : ℚ} (found : d.payload v = some (.number n)) :
    (ExpectedType.vt .vtNumber).Accepts (d.valueRecord v) := by
  refine .inr (.inr (.inr ?_))
  rw [valueRecord_vaValue found]
  rfl

theorem Data.gives_number {d : Data} {v : VRef} {n : ℚ} {s : Stored}
    (found : d.payload v = some (.number n))
    (gives : (ExpectedType.vt .vtNumber).Gives d.valueRecord v s) : s = .number n := by
  cases gives with
  | number held =>
      rw [valueRecord_vaValue found] at held
      cases held
      rfl

/-- Two numbers are fetched. -/
theorem CallState.aklGetArgsStrict_numbers {stack : StackState VRef}
    {below cells : List (Cell VRef)}
    {d : Data} {fv tv : VRef} {fp tp : ℚ} (holds : stack.Holds (below ++ cells))
    (args : cells.map Prod.snd = [fv, tv]) (first : d.payload fv = some (.number fp))
    (second : d.payload tv = some (.number tp)) (name : String) (errors : List AklError) :
    ∃ ctx : CallState, ctx.data = d ∧
      (CallState.start name stack cells.length d errors).aklGetArgsStrict d.valueRecord 2
        [.vt .vtNumber, .vt .vtNumber] = ⟨0, [.number fp, .number tp], ctx⟩ := by
  have two : cells.length = 2 := by simpa using congrArg List.length args
  have few : cells.length < 2 ^ 31 := by omega
  have kept := aklGetArgsStrict_data d.valueRecord (.start name stack cells.length d errors) 2
    [.vt .vtNumber, .vt .vtNumber]
  have fetched : Fetch.Strict d.valueRecord [.vt .vtNumber, .vt .vtNumber] (cells.map Prod.snd)
      below (start name stack cells.length d errors)
      ((start name stack cells.length d errors).aklGetArgsStrict d.valueRecord 2
        [.vt .vtNumber, .vt .vtNumber]) :=
    aklGetArgsStrict_strict (List.cons_ne_nil _ _) (by simp [ExpectedType.Stores])
      (holds.aklInitFrame few)
  rw [args] at fetched
  have zero := fetched.zero_iff.mpr
    (.cons (Data.accepts_number first) (.cons (Data.accepts_number second) .nil))
  have stored := fetched.stores zero
  generalize aklGetArgsStrict d.valueRecord (.start name stack cells.length d errors) 2
    [.vt .vtNumber, .vt .vtNumber] = fetch at kept zero stored ⊢
  obtain ⟨code, pointers, state⟩ := fetch
  cases zero
  cases stored with
  | cons givesFirst others =>
      cases others with
      | cons givesSecond others =>
          cases others
          rw [Data.gives_number first givesFirst, Data.gives_number second givesSecond]
          exact ⟨state, kept, rfl⟩

/-- With two numbers the call runs the loop between their integers. -/
theorem aklFnRange_eq {stack : StackState VRef} {below cells : List (Cell VRef)} {d : Data}
    {fv tv : VRef} {fp tp : ℚ} (holds : stack.Holds (below ++ cells))
    (args : cells.map Prod.snd = [fv, tv]) (first : d.payload fv = some (.number fp))
    (second : d.payload tv = some (.number tp)) (name : String) (errors : List AklError) :
    ∃ ctx : CallState, ∀ rounds, aklFnRange rounds (.start name stack cells.length d errors) =
      (rangeLoop d.newList.1 (toInt tp) rounds (toInt fp) (d.newList.2.quoteList d.newList.1)).map
        fun data => (data.values.length,
          { ctx with data := (data.newValue ⟨.list d.newList.1, false, false⟩).2 }) := by
  obtain ⟨ctx, dataEq, fetchEq⟩ :=
    CallState.aklGetArgsStrict_numbers holds args first second name errors
  have startData : (CallState.start name stack cells.length d errors).data = d := rfl
  refine ⟨ctx, fun rounds => ?_⟩
  have succeeded : ¬ ((0 : Int) = -1) := by decide
  simp only [aklFnRange, startData, fetchEq, if_neg succeeded, dataEq]
  cases rangeLoop d.newList.1 (toInt tp) rounds (toInt fp) (d.newList.2.quoteList d.newList.1) <;>
    rfl

/-- The value of the list, made behind its numbers. -/
theorem Collected.returned {d : Data} {nl : LRef} {bs : List Addr} {ws : List VRef} {ns : List ℤ}
    (collected : Collected d nl bs ws) (numbers : Numbers d ws ns) :
    ListResult (d.newValue ⟨.list nl, false, false⟩).2 d.values.length ws ∧
      Numbers (d.newValue ⟨.list nl, false, false⟩).2 ws ns := by
  constructor
  · exact ⟨nl, bs, Data.newValue_payload_self d _, collected.header, collected.data⟩
  · rw [Numbers, ← numbers]
    apply List.map_congr_left
    intro w mem
    have held : d.payload w ∈ ws.map d.payload := List.mem_map_of_mem mem
    rw [numbers] at held
    obtain ⟨n, -, found⟩ := List.mem_map.mp held
    rw [← found]
    exact Data.newValue_payload d _ found.symm

section

variable {f t : ℤ} {stack : StackState VRef} {below cells : List (Cell VRef)} {d : Data}
  {fv tv : VRef}

/-- Below the largest `int` the call gives the interval. -/
theorem RangeIs.of_lt (intF : IsInt f) (intT : IsInt t) (small : t < intMax)
    (holds : stack.Holds (below ++ cells)) (args : cells.map Prod.snd = [fv, tv])
    (first : d.payload fv = some (.number f)) (second : d.payload tv = some (.number t))
    (name : String) (errors : List AklError) :
    RangeIs (.start name stack cells.length d errors) f t := by
  obtain ⟨ctx, callEq⟩ := aklFnRange_eq holds args first second name errors
  rw [toInt_of_int intF.1 intF.2, toInt_of_int intT.1 intT.2] at callEq
  obtain ⟨d', bs, ws, loopEq, collected, numbers, -⟩ :=
    rangeLoop_collected small (Collected.start d) (Nat.lt_succ_self (t + 1 - f).toNat)
  rw [List.nil_append] at collected
  obtain ⟨result, numbers'⟩ := collected.returned numbers
  refine ⟨(t + 1 - f).toNat + 1, d'.values.length,
    { ctx with data := (d'.newValue ⟨.list d.newList.1, false, false⟩).2 }, ws, ?_, result,
    numbers', ?_⟩
  · rw [callEq, loopEq]
    rfl
  · rw [← range_length, ← List.length_map (fun n : ℤ => some (Payload.number n)), ← numbers,
      List.length_map]

/-- Up to the largest `int` it does not come to an end. -/
theorem not_rangeIs_intMax (intF : IsInt f) (holds : stack.Holds (below ++ cells))
    (args : cells.map Prod.snd = [fv, tv]) (first : d.payload fv = some (.number f))
    (second : d.payload tv = some (.number intMax)) (name : String) (errors : List AklError) :
    ¬ RangeIs (.start name stack cells.length d errors) f intMax := by
  obtain ⟨ctx, callEq⟩ := aklFnRange_eq holds args first second name errors
  rw [toInt_of_int intF.1 intF.2, toInt_of_int (by decide) (by decide)] at callEq
  rintro ⟨rounds, v, ctx', ws, ended, -⟩
  rw [callEq] at ended
  cases loopEq : rangeLoop d.newList.1 intMax rounds f (d.newList.2.quoteList d.newList.1) with
  | error fault =>
      rw [loopEq] at ended
      cases ended
  | ok d' => exact rangeLoop_intMax (Int.le_sub_one_of_lt intF.2) loopEq

/-- For all `int`s `f` and `t` a call with their numbers gives the list of the integers from
`f` to `t` exactly when `t` is not the largest `int`. -/
theorem range_interval_iff (intF : IsInt f) (intT : IsInt t)
    (holds : stack.Holds (below ++ cells)) (args : cells.map Prod.snd = [fv, tv])
    (first : d.payload fv = some (.number f)) (second : d.payload tv = some (.number t))
    (name : String) (errors : List AklError) :
    RangeIs (.start name stack cells.length d errors) f t ↔ t ≠ intMax := by
  constructor
  · rintro isRange rfl
    exact not_rangeIs_intMax intF holds args first second name errors isRange
  · intro notMax
    have small : t < intMax := lt_of_le_of_ne (Int.le_sub_one_of_lt intT.2) notMax
    exact .of_lt intF intT small holds args first second name errors

end

/-- The data with the numbers `f` and `t`. -/
def twoNumbers (f t : ℤ) : Data :=
  { Data.init with values := [⟨.number f, false, false⟩, ⟨.number t, false, false⟩] }

/-- `(range f t)` -/
def rangeOf (f t : ℤ) : CallState :=
  .start "range" (aklStackPush (aklStackPush default 0) 1) 2 (twoNumbers f t) []

theorem rangeOf_holds : (aklStackPush (aklStackPush default 0) 1).Holds ([] ++ [(0, 0), (1, 1)]) :=
  (StackState.Holds.empty.push 0).push 1

theorem range_interval_seven : RangeIs (rangeOf (-4) 7) (-4) 7 ↔ 7 ≠ intMax :=
  range_interval_iff (by decide) (by decide) rangeOf_holds rfl rfl rfl "range" []

/-- From the largest `int` to itself there is one integer, and the loop does not end. -/
theorem range_of_intMax : ¬ RangeIs (rangeOf intMax intMax) intMax intMax :=
  not_rangeIs_intMax (by decide) rangeOf_holds rfl rfl rfl "range" []

end AkLisp
