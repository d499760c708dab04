import AkLisp.Builtins.Arguments
import AkLisp.Builtins.Compare

/-!
# The comparison built-ins

The six built-ins test the result of one comparison with six relations.  The code
-2 for a wrong number of arguments goes through the same test, and so does the -1
for two values of different types, whichever of them comes first.
-/

namespace AkLisp

open CallState

/-- `get_and_compare_values` -/
def getAndCompareValues (address : Symbol → Int) (fuel : Nat) (ctx : CallState) :
    Except Fault (Int × CallState) :=
  match ctx.aklGetArgs 2 with
  | (some [a1, a2], ctx) => do
      let r ← aklCompareValues address ctx.data fuel (some a1) (some a2)
      return (r, ctx)
  | (_, ctx) => return (-2, ctx)

/-- A built-in that answers whether the result of the comparison passes a test. -/
def compareFn (test : Int → Bool) (address : Symbol → Int) (fuel : Nat) (ctx : CallState) :
    Except Fault (VRef × CallState) := do
  let (r, ctx) ← getAndCompareValues address fuel ctx
  return (if test r then Data.aklTrue else Data.aklNil, ctx)

/-- The six comparison built-ins. -/
inductive CompareFn where
  | gt
  | gteq
  | lt
  | lteq
  | neq
  | eq
  deriving DecidableEq, Repr

/-- `akl_fn_gt`, `(> a b)` -/
def aklFnGt := compareFn (· > 0)

/-- `akl_fn_gteq`, `(>= a b)` -/
def aklFnGteq := compareFn (· ≥ 0)

/-- `akl_fn_lt`, `(< a b)` -/
def aklFnLt := compareFn (· < 0)

/-- `akl_fn_lteq`, `(<= a b)` -/
def aklFnLteq := compareFn (· ≤ 0)

/-- `akl_fn_neq`, `(!= a b)` -/
def aklFnNeq := compareFn (· ≠ 0)

/-- `akl_fn_eq`, `(= a b)` -/
def aklFnEq := compareFn (· = 0)

/-- The built-in itself. -/
def CompareFn.run : CompareFn → (Symbol → Int) → Nat → CallState →
    Except Fault (VRef × CallState)
  | .gt => aklFnGt
  | .gteq => aklFnGteq
  | .lt => aklFnLt
  | .lteq => aklFnLteq
  | .neq => aklFnNeq
  | .eq => aklFnEq

/-- The relation that the built-in tests. -/
def CompareFn.test : CompareFn → Int → Bool
  | .gt => (· > 0)
  | .gteq => (· ≥ 0)
  | .lt => (· < 0)
  | .lteq => (· ≤ 0)
  | .neq => (· ≠ 0)
  | .eq => (· = 0)

theorem CompareFn.run_eq (fn : CompareFn) : fn.run = compareFn fn.test := by
  cases fn <;> rfl

section

variable {address : Symbol → Int} {fuel : Nat} {ctx : CallState}

/-- With two arguments the built-in tests their comparison. -/
theorem compareFn_two (test : Int → Bool) {a1 a2 : VRef} {r : Int} (on : ctx.On [a1, a2])
    (compared : aklCompareValues address ctx.data fuel (some a1) (some a2) = .ok r) :
    ∃ ctx', compareFn test address fuel ctx =
        .ok (if test r then Data.aklTrue else Data.aklNil, ctx') ∧ ctx.SameButFrame ctx' := by
  obtain ⟨ctx', argsEq, -, same⟩ := on.aklGetArgs
  refine ⟨ctx', ?_, same⟩
  have argsEq' : ctx.aklGetArgs 2 = (some [a1, a2], ctx') := argsEq
  rw [← same.data] at compared
  simp only [compareFn, getAndCompareValues, argsEq', compared]
  rfl

/-- With another number of arguments it tests the error code. -/
theorem compareFn_wrong {test : Int → Bool} {args : List VRef} (on : ctx.On args)
    (wrong : args.length ≠ 2) : compareFn test address fuel ctx =
      .ok (if test (-2) then Data.aklTrue else Data.aklNil,
        ctx.aklRaiseError .error (countMessage ctx.cxFuncName 2 args.length)) := by
  simp only [compareFn, getAndCompareValues, on.aklGetArgs_wrong wrong]
  rfl

end

/-- The built-in raises an error and answers `NIL`. -/
def Refuses (result : Except Fault (VRef × CallState)) (ctx : CallState) : Prop :=
  ∃ message ctx', result = .ok (Data.aklNil, ctx') ∧ ctx'.errors = ctx.errors ++ [⟨.error, message⟩]

theorem compareFn_refuses {test : Int → Bool} {address : Symbol → Int} {fuel : Nat}
    {ctx : CallState} {args : List VRef} (on : ctx.On args) (wrong : args.length ≠ 2) :
    Refuses (compareFn test address fuel ctx) ctx ↔ test (-2) = false := by
  rw [compareFn_wrong on wrong]
  constructor
  · rintro ⟨message, ctx', resultEq, -⟩
    cases decided : test (-2) with
    | false => rfl
    | true =>
        rw [decided] at resultEq
        cases resultEq
  · intro refused
    rw [refused]
    exact ⟨_, _, rfl, rfl⟩

/-- With a wrong number of arguments `=`, `>` and `>=` raise an error and answer
`NIL`; the other three do not. -/
theorem compare_wrong_arguments {ctx : CallState} {args : List VRef} (on : ctx.On args)
    (wrong : args.length ≠ 2) (address : Symbol → Int) (fuel : Nat) (fn : CompareFn) :
    Refuses (fn.run address fuel ctx) ctx ↔ fn = .eq ∨ fn = .gt ∨ fn = .gteq := by
  rw [CompareFn.run_eq, compareFn_refuses on wrong]
  cases fn <;> simp [CompareFn.test]

/-- `(=)` on an empty stack. -/
theorem compare_wrong_arguments_none :
    Refuses (CompareFn.eq.run (fun _ => 0) 1 (start "=" default 0 default []))
      (start "=" default 0 default []) :=
  (compare_wrong_arguments (On.call (show StackState.Holds default ([] ++ []) from
    StackState.Holds.empty) (by decide) "=" default []) (by decide) (fun _ => 0) 1 .eq).mpr
    (Or.inl rfl)

/-- `(<)` answers `T`. -/
theorem less_without_arguments :
    (start "<" default 0 default []).On [] ∧
      ¬ Refuses (CompareFn.lt.run (fun _ => 0) 1 (start "<" default 0 default []))
        (start "<" default 0 default []) := by
  constructor
  · exact On.call (show StackState.Holds default ([] ++ []) from StackState.Holds.empty)
      (by decide) "<" default []
  · rintro ⟨message, ctx', resultEq, -⟩
    cases resultEq

/-- The built-in answers `T`. -/
def Affirms (result : Except Fault (VRef × CallState)) : Prop :=
  ∃ ctx', result = .ok (Data.aklTrue, ctx')

theorem CompareFn.affirms_iff {address : Symbol → Int} {fuel : Nat} {ctx : CallState}
    {a1 a2 : VRef} {r : Int} (on : ctx.On [a1, a2])
    (compared : aklCompareValues address ctx.data fuel (some a1) (some a2) = .ok r)
    (fn : CompareFn) : Affirms (fn.run address fuel ctx) ↔ fn.test r = true := by
  obtain ⟨ctx', answerEq, -⟩ := compareFn_two fn.test on compared
  rw [CompareFn.run_eq, answerEq]
  constructor
  · rintro ⟨ctx'', resultEq⟩
    cases decided : fn.test r with
    | true => rfl
    | false =>
        rw [decided] at resultEq
        cases resultEq
  · intro decided
    rw [decided]
    exact ⟨ctx', rfl⟩

/-- What an order should say about three values. -/
structure ComparesInOrder (address : Symbol → Int) (d : Data) (fuel : Nat) (va vb vc : VRef) :
    Prop where
  self : aklCompareValues address d fuel (some va) (some va) = .ok 0
  swap : ∃ r s, aklCompareValues address d fuel (some va) (some vb) = .ok r ∧
    aklCompareValues address d fuel (some vb) (some va) = .ok s ∧ r.sign = -s.sign
  /-- `(< a b)` holds when `(> b a)` does -/
  less : ∀ ctx ctx', ctx.data = d → ctx'.data = d → ctx.On [va, vb] → ctx'.On [vb, va] →
    (Affirms (aklFnLt address fuel ctx) ↔ Affirms (aklFnGt address fuel ctx'))
  trans : ∀ r s, aklCompareValues address d fuel (some va) (some vb) = .ok r →
    aklCompareValues address d fuel (some vb) (some vc) = .ok s → r ≤ 0 → s ≤ 0 →
    ∃ t, aklCompareValues address d fuel (some va) (some vc) = .ok t ∧ t ≤ 0
  /-- numbers are ordered by size -/
  number : ∀ p q, d.payload va = some (.number p) → d.payload vb = some (.number q) →
    ∃ r, aklCompareValues address d fuel (some va) (some vb) = .ok r ∧
      (r < 0 ↔ p < q) ∧ (r = 0 ↔ p = q)

/-- Comparison is an order on three scalars exactly when the first two have one type
and, if they are numbers, are equal or differ in their integer parts. -/
theorem compare_in_order {address : Symbol → Int} {d : Data} {va vb vc : VRef} {a b c : Scalar}
    (atA : d.payload va = some a.payload) (atB : d.payload vb = some b.payload)
    (atC : d.payload vc = some c.payload) (longA : a.InLong) (longB : b.InLong) (fuel : Nat) :
    ComparesInOrder address d (fuel + 1) va vb vc ↔ a.vaType = b.vaType ∧
      ∀ p q, a = .number p → b = .number q → p = q ∨ toLong p ≠ toLong q := by
  have ab := aklCompareValues_scalars address atA atB fuel
  have ba := aklCompareValues_scalars address atB atA fuel
  have bc := aklCompareValues_scalars address atB atC fuel
  have ac := aklCompareValues_scalars address atA atC fuel
  constructor
  · intro inOrder
    constructor
    · -- values of different types give -1 both ways round
      by_contra mixed
      obtain ⟨r, s, first, second, opposite⟩ := inOrder.swap
      rw [ab, compareScalars_mixed mixed] at first
      rw [ba, compareScalars_mixed (Ne.symm mixed)] at second
      cases first
      cases second
      exact absurd opposite (by decide)
    · rintro p q rfl rfl
      by_cases same : toLong p = toLong q
      · obtain ⟨r, compared, -, zero⟩ := inOrder.number p q atA atB
        rw [ab] at compared
        cases compared
        exact Or.inl (zero.mp (compareNumbers_eq_zero.mpr same))
      · exact Or.inr same
  · rintro ⟨same, apart⟩
    have opposite := compareScalars_sign address same
    constructor
    · rw [aklCompareValues_scalars address atA atA, compareScalars_self]
    · exact ⟨_, _, ab, ba, opposite⟩
    · intro ctx ctx' dataEq dataEq' on on'
      subst dataEq
      rw [← dataEq'] at ba
      have less := CompareFn.affirms_iff on ab .lt
      have greater := CompareFn.affirms_iff on' ba .gt
      apply less.trans (Iff.trans _ greater.symm)
      simp only [CompareFn.test, decide_eq_true_eq, gt_iff_lt]
      rw [← Int.sign_eq_neg_one_iff_neg, ← Int.sign_eq_one_iff_pos, opposite]
      omega
    · intro r s first second
      rw [ab] at first
      rw [bc] at second
      cases first
      cases second
      intro le le'
      exact ⟨_, ac, compareScalars_trans same le le'⟩
    · intro p q numberA numberB
      cases Scalar.eq_number (Option.some.inj (atA.symm.trans numberA))
      cases Scalar.eq_number (Option.some.inj (atB.symm.trans numberB))
      refine ⟨_, ab, ?_, ?_⟩
      · apply compareNumbers_neg.trans
        exact toLong_lt_iff longA.1 longA.2 longB.1 longB.2 (apart p q rfl rfl)
      · apply compareNumbers_eq_zero.trans
        constructor
        · exact (apart p q rfl rfl).resolve_right ∘ not_not_intro
        · exact congrArg toLong

/-- The numbers 1 and 5/2 and the string of no characters. -/
def threeValues : Data :=
  { Data.init with
    values := [⟨.number 1, false, false⟩, ⟨.number (5 / 2), false, false⟩,
               ⟨.string [], false, false⟩] }

theorem compare_in_order_numbers : ComparesInOrder (fun _ => 0) threeValues 1 0 1 2 :=
  (compare_in_order (a := .number 1) (b := .number (5 / 2)) (c := .string []) rfl rfl rfl
    (by norm_num [Scalar.InLong]) (by norm_num [Scalar.InLong]) 0).mpr ⟨rfl, by
      rintro p q first second
      cases first
      cases second
      exact Or.inr (by decide +kernel)⟩

/-- A number and a string are each less than the other. -/
theorem compare_mixed_types : ¬ ComparesInOrder (fun _ => 0) threeValues 1 0 2 1 := by
  intro inOrder
  obtain ⟨r, s, first, second, opposite⟩ := inOrder.swap
  cases first
  cases second
  exact absurd opposite (by decide)

end AkLisp
