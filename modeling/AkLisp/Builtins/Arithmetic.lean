import AkLisp.Builtins.Typed
import Mathlib.Algebra.Order.Ring.Rat
import Mathlib.Data.List.Perm.Basic
import Mathlib.Algebra.Field.Rat

/-!
# Sums and products

`+` and `*` pop their arguments off the end of the frame.  `NULL` ends their loops, and it
stands for the end of the frame as well as for an argument that is not a number: what
stands in front of the last such argument does not count.  Numbers are exact.
-/

namespace AkLisp

open Linked

/-- The number of a number value. -/
def ValueRecord.number? (vp : ValueRecord) : Option ℚ :=
  match vp.vaValue with
  | .number n => some n
  | _ => none

/-- `AKL_NUMBER` -/
def aklNumber (n : ℚ) : ValueRecord := ⟨.number n, false⟩

namespace CallState

/-- `akl_frame_pop_number`: `none` for `NULL`. -/
def aklFramePopNumber (values : VRef → ValueRecord) (c : CallState) : Option ℚ × CallState :=
  let (v, c) := c.aklFramePop
  (v.bind fun v => (values v).number?, c)

/-- `akl_frame_shift_number` -/
def aklFrameShiftNumber (values : VRef → ValueRecord) (c : CallState) : Option ℚ × CallState :=
  let (v, c) := c.aklFrameShift
  (v.bind fun v => (values v).number?, c)

/-- The loop `while ((n = akl_frame_pop_number(cx)) != NULL)` of `+` and `*`, at most `fuel`
rounds. -/
def popNumbers (values : VRef → ValueRecord) (op : ℚ → ℚ → ℚ) :
    Nat → ℚ → CallState → ℚ × CallState
  | 0, acc, c => (acc, c)
  | fuel + 1, acc, c =>
      match c.aklFramePopNumber values with
      | (none, c) => (acc, c)
      | (some n, c) => popNumbers values op fuel (op acc n) c

/-- The value of a built-in that pops its numbers off the frame and combines them; every
round but the last one takes an argument. -/
def popAll (values : VRef → ValueRecord) (op : ℚ → ℚ → ℚ) (start : ℚ) (cx : CallState) :
    ValueRecord × CallState :=
  let (result, cx) :=
    cx.popNumbers values op ((aklFrameGetCount cx.cxFrame).toNat + 1) start
  (aklNumber result, cx)

end CallState

/-- `akl_fn_plus` -/
def aklFnPlus (values : VRef → ValueRecord) (cx : CallState) : ValueRecord × CallState :=
  cx.popAll values (fun sum n => sum + n) 0

/-- `akl_fn_mul` -/
def aklFnMul (values : VRef → ValueRecord) (cx : CallState) : ValueRecord × CallState :=
  cx.popAll values (fun prod n => prod * n) 1

/-- The numbers in front of the first value that is not one. -/
def leadingNumbers (values : VRef → ValueRecord) : List VRef → List ℚ
  | [] => []
  | v :: vs =>
      match (values v).number? with
      | none => []
      | some n => n :: leadingNumbers values vs

section

variable {values : VRef → ValueRecord} {args : List VRef} {c : CallState}

namespace CallState.On

theorem popNumber (values : VRef → ValueRecord) {v : VRef} (on : c.On (args ++ [v])) :
    ∃ c', c.aklFramePopNumber values = ((values v).number?, c') ∧ c'.On args ∧
      c.SameButFrame c' := by
  obtain ⟨c', popEq, on', same⟩ := on.pop
  exact ⟨c', by rw [aklFramePopNumber, popEq]; rfl, on', same⟩

theorem popNumber_nil (on : c.On []) : c.aklFramePopNumber values = (none, c) := by
  rw [aklFramePopNumber, on.pop_nil]
  rfl

theorem shiftNumber (values : VRef → ValueRecord) {v : VRef} (on : c.On (v :: args)) :
    ∃ c', c.aklFrameShiftNumber values = ((values v).number?, c') ∧ c'.On args ∧
      c.SameButFrame c' := by
  obtain ⟨c', shiftEq, on', same⟩ := on.shift
  exact ⟨c', by rw [aklFrameShiftNumber, shiftEq]; rfl, on', same⟩

theorem shiftNumber_nil (on : c.On []) : c.aklFrameShiftNumber values = (none, c) := by
  rw [aklFrameShiftNumber, on.shift_nil]
  rfl

/-- The loop combines the numbers behind the last argument that is not one, from the end. -/
theorem popNumbers (on : c.On args) (op : ℚ → ℚ → ℚ) (acc : ℚ) {fuel : Nat}
    (enough : args.length < fuel) :
    (c.popNumbers values op fuel acc).1 = (leadingNumbers values args.reverse).foldl op acc := by
  induction args using List.reverseRecOn generalizing c acc fuel with
  | nil =>
      cases fuel with
      | zero => cases enough
      | succ fuel =>
          rw [CallState.popNumbers, on.popNumber_nil]
          rfl
  | append_singleton args v ih =>
      cases fuel with
      | zero => cases enough
      | succ fuel =>
          obtain ⟨c', popEq, on', -⟩ := on.popNumber values
          rw [CallState.popNumbers, popEq, List.reverse_append, List.reverse_singleton,
            List.singleton_append, leadingNumbers]
          cases (values v).number? with
          | none => rfl
          | some n =>
              rw [List.length_append, List.length_singleton] at enough
              exact ih on' (op acc n) (by omega)

theorem popAll (on : c.On args) (op : ℚ → ℚ → ℚ) (start : ℚ) :
    (c.popAll values op start).1 =
      aklNumber ((leadingNumbers values args.reverse).foldl op start) := by
  have counted : args.length < (aklFrameGetCount c.cxFrame).toNat + 1 := by
    rw [on.count]
    exact Nat.lt_succ_self _
  rw [CallState.popAll, ← on.popNumbers op start counted]

end CallState.On

/-- Of values that are all numbers every one is taken. -/
theorem leadingNumbers_eq_filterMap (numbers : ∀ v ∈ args, ((values v).number?).isSome) :
    leadingNumbers values args = args.filterMap fun v => (values v).number? := by
  induction args with
  | nil => rfl
  | cons v args ih =>
      obtain ⟨n, number⟩ := Option.isSome_iff_exists.mp (numbers v List.mem_cons_self)
      rw [leadingNumbers, List.filterMap_cons, number,
        ih fun w mem => numbers w (List.mem_cons_of_mem v mem)]

theorem mem_leadingNumbers {n : ℚ} (mem : n ∈ leadingNumbers values args) :
    ∃ v ∈ args, (values v).number? = some n := by
  induction args with
  | nil => cases mem
  | cons v args ih =>
      rw [leadingNumbers] at mem
      cases number : (values v).number? with
      | none =>
          rw [number] at mem
          cases mem
      | some k =>
          rw [number] at mem
          rcases List.mem_cons.mp mem with rfl | others
          · exact ⟨v, List.mem_cons_self, number⟩
          · obtain ⟨w, inArgs, found⟩ := ih others
            exact ⟨w, List.mem_cons_of_mem v inArgs, found⟩

/-- A built-in gives the same value for its arguments in every order, and what `total` says
for numbers. -/
structure OrderFree (fn : CallState → ValueRecord × CallState) (total : List ℚ → ℚ)
    (values : VRef → ValueRecord) (args : List VRef) : Prop where
  permuted : ∀ {args' : List VRef} {c c' : CallState}, args'.Perm args → c.On args →
    c'.On args' → (fn c').1 = (fn c).1
  numbers : ∀ {ns : List ℚ} {c : CallState},
    args.map (fun v => (values v).number?) = ns.map some → c.On args →
      (fn c).1 = aklNumber (total ns)

/-- All arguments are numbers, or those that are do not change the result. -/
def Uniform (values : VRef → ValueRecord) (neutral : ℚ) (args : List VRef) : Prop :=
  (∀ v ∈ args, ((values v).number?).isSome) ∨
    ∀ v ∈ args, ∀ n, (values v).number? = some n → n = neutral

section

variable {op : ℚ → ℚ → ℚ} {e : ℚ} [Std.LawfulLeftIdentity op e]

theorem foldl_neutral {ns : List ℚ} (neutral : ∀ n ∈ ns, n = e) : ns.foldl op e = e := by
  induction ns with
  | nil => rfl
  | cons n ns ih =>
      have left : op e e = e := Std.LawfulLeftIdentity.left_id e
      rw [List.foldl_cons, neutral n List.mem_cons_self, left]
      exact ih fun k mem => neutral k (List.mem_cons_of_mem n mem)

/-- With a value that is no number and a number that counts, the result depends on which of
them is the last argument. -/
theorem OrderFree.uniform {total : List ℚ → ℚ} (intArgc : args.length < 2 ^ 31)
    (free : OrderFree (fun c => c.popAll values op e) total values args) :
    Uniform values e args := by
  by_contra mixed
  rw [Uniform, not_or] at mixed
  obtain ⟨notAll, notNeutral⟩ := mixed
  push Not at notAll notNeutral
  obtain ⟨s, sMem, noNumber⟩ := notAll
  obtain ⟨v, vMem, n, number, counts⟩ := notNeutral
  have noNumber := Option.not_isSome_iff_eq_none.mp noNumber
  have different : s ≠ v := by
    rintro rfl
    rw [noNumber] at number
    cases number
  obtain ⟨others, perm⟩ : ∃ others, args.Perm (v :: s :: others) := by
    have sBehind : s ∈ args.erase v := (List.mem_erase_of_ne different).mpr sMem
    exact ⟨(args.erase v).erase s,
      (List.perm_cons_erase vMem).trans ((List.perm_cons_erase sBehind).cons v)⟩
  have numberLast : (others ++ [s, v]).Perm args :=
    List.perm_append_comm.trans ((List.Perm.swap v s others).trans perm.symm)
  have numberFirst : (others ++ [v, s]).Perm args :=
    List.perm_append_comm.trans perm.symm
  obtain ⟨c, -, on⟩ := CallState.On.exists_call .init args intArgc
  obtain ⟨c₁, -, on₁⟩ := CallState.On.exists_call .init (others ++ [s, v])
    (by rw [numberLast.length_eq]; exact intArgc)
  obtain ⟨c₂, -, on₂⟩ := CallState.On.exists_call .init (others ++ [v, s])
    (by rw [numberFirst.length_eq]; exact intArgc)
  have same := (free.permuted numberLast on on₁).trans (free.permuted numberFirst on on₂).symm
  simp only [on₁.popAll, on₂.popAll, List.reverse_append, List.reverse_cons, List.reverse_nil,
    List.nil_append, List.cons_append, leadingNumbers, number, noNumber, List.foldl_cons,
    List.foldl_nil] at same
  have left : op e n = n := Std.LawfulLeftIdentity.left_id n
  rw [left] at same
  cases same
  exact counts rfl

variable [Std.Commutative op] [Std.Associative op]

/-- The numbers of uniform arguments give the same in every order. -/
theorem Uniform.foldl_eq {args' : List VRef} (uniform : Uniform values e args)
    (perm : args'.Perm args) :
    (leadingNumbers values args').foldl op e = (leadingNumbers values args).foldl op e := by
  rcases uniform with numbers | neutral
  · rw [leadingNumbers_eq_filterMap numbers,
      leadingNumbers_eq_filterMap fun v mem => numbers v (perm.mem_iff.mp mem)]
    exact (perm.filterMap _).foldl_op_eq
  · rw [foldl_neutral, foldl_neutral]
    · intro n mem
      obtain ⟨v, inArgs, number⟩ := mem_leadingNumbers mem
      exact neutral v inArgs n number
    · intro n mem
      obtain ⟨v, inArgs, number⟩ := mem_leadingNumbers mem
      exact neutral v (perm.mem_iff.mp inArgs) n number

theorem orderFree_iff {total : List ℚ → ℚ} (totalEq : ∀ ns, total ns = ns.foldl op e)
    (intArgc : args.length < 2 ^ 31) :
    OrderFree (fun c => c.popAll values op e) total values args ↔ Uniform values e args := by
  constructor
  · exact OrderFree.uniform intArgc
  · intro uniform
    constructor
    · intro args' c c' perm on on'
      have reversed : args'.reverse.Perm args.reverse :=
        (List.reverse_perm args').trans (perm.trans (List.reverse_perm args).symm)
      have uniform' : Uniform values e args.reverse := by
        simpa only [Uniform, List.mem_reverse] using uniform
      rw [on.popAll, on'.popAll, uniform'.foldl_eq reversed]
    · intro ns c numbers on
      have allNumbers : ∀ v ∈ args.reverse, ((values v).number?).isSome := by
        intro v mem
        have isNumber : (values v).number? ∈ args.map fun v => (values v).number? :=
          List.mem_map_of_mem (List.mem_reverse.mp mem)
        rw [numbers] at isNumber
        obtain ⟨n, -, number⟩ := List.mem_map.mp isNumber
        rw [← number]
        rfl
      have taken : args.filterMap (fun v => (values v).number?) = ns := by
        have all := congrArg (List.filterMap id) numbers
        rw [List.filterMap_map, List.filterMap_map] at all
        simpa using all
      rw [on.popAll, leadingNumbers_eq_filterMap allNumbers, List.filterMap_reverse, taken,
        totalEq, (List.reverse_perm ns).foldl_op_eq]

end

end

/-- Sum and product do not depend on the order of the arguments, and are those of the
arguments if all of these are numbers, exactly for arguments that are all numbers or whose
numbers do not count: are 0 for a sum, 1 for a product. -/
theorem sum_and_product_iff (values : VRef → ValueRecord) {args : List VRef}
    (intArgc : args.length < 2 ^ 31) :
    (OrderFree (aklFnPlus values) List.sum values args ↔ Uniform values 0 args) ∧
      (OrderFree (aklFnMul values) List.prod values args ↔ Uniform values 1 args) :=
  ⟨orderFree_iff (fun _ => List.sum_eq_foldl) intArgc,
    orderFree_iff (fun _ => List.prod_eq_foldl) intArgc⟩

/-- Three numbers are added and multiplied in any order.  With a symbol in place of one of them
neither holds; a symbol and the number 1 are multiplied in any order. -/
theorem sum_and_product_mixed :
    let values : VRef → ValueRecord := fun v =>
      if v = 0 then ⟨.symbol (symbolOf "a"), false⟩ else aklNumber v
    (OrderFree (aklFnPlus values) List.sum values [3, 1, 2] ∧
        OrderFree (aklFnMul values) List.prod values [3, 1, 2]) ∧
      (¬ OrderFree (aklFnPlus values) List.sum values [0, 1, 2] ∧
        ¬ OrderFree (aklFnMul values) List.prod values [0, 1, 2]) ∧
      OrderFree (aklFnMul values) List.prod values [0, 1] := by
  intro values
  have numbers := @sum_and_product_iff values [3, 1, 2] (by decide)
  have mixed := @sum_and_product_iff values [0, 1, 2] (by decide)
  have neutral := @sum_and_product_iff values [0, 1] (by decide)
  have all : ∀ v ∈ [3, 1, 2], ((values v).number?).isSome := by decide
  have notAll : ¬ ∀ v ∈ [0, 1, 2], ((values v).number?).isSome := by decide
  have two : (values 2).number? = some 2 := rfl
  have one : (values 1).number? = some 1 := rfl
  have none : (values 0).number? = none := rfl
  refine ⟨⟨numbers.1.mpr (Or.inl all), numbers.2.mpr (Or.inl all)⟩, ⟨?_, ?_⟩,
    neutral.2.mpr (Or.inr ?_)⟩
  · intro free
    rcases mixed.1.mp free with same | same
    · exact notAll same
    · exact absurd (same 2 (by simp) 2 two) (by decide)
  · intro free
    rcases mixed.2.mp free with same | same
    · exact notAll same
    · exact absurd (same 2 (by simp) 2 two) (by decide)
  · simp [none, one]

/-- `(+ 1 'a)` is 0, `(+ 'a 1)` is 1. -/
theorem sum_depends_on_order :
    let values : VRef → ValueRecord := fun v =>
      if v = 0 then ⟨.symbol (symbolOf "a"), false⟩ else aklNumber v
    ¬ OrderFree (aklFnPlus values) List.sum values [1, 0] := by
  intro values free
  have uniform : Uniform values 0 [1, 0] := OrderFree.uniform (by decide) free
  rcases uniform with numbers | neutral
  · exact absurd (numbers 0 (by simp)) (by decide)
  · exact absurd (neutral 1 (by simp) 1 rfl) (by decide)

end AkLisp
