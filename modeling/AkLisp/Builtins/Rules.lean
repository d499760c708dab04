import AkLisp.Builtins.Doubles
import AkLisp.Builtins.Mapping
import AkLisp.Builtins.Relations

/-!
# Applications of built-ins

A comparison answers with one of the static values and `length` makes a new number.  The
arguments of given types of a built-in with callbacks are those for which
`akl_get_args_strict` returns 0 anywhere else, and their values are what it stores.
`foldl` keeps an invariant of the value so far and the elements that are left when every
call of its function does.
-/

namespace AkLisp

open Linked Evaluation ArgType

theorem toLong_of_int {i : ℤ} (low : -2 ^ 63 ≤ i) (high : i < 2 ^ 63) : toLong (i : ℚ) = i := by
  have below : (i : ℚ) < 2 ^ 63 := by exact_mod_cast high
  rw [toLong_eq (by exact_mod_cast low) below]
  split
  · exact Int.ceil_intCast i
  · exact Int.floor_intCast i

/-- A comparison of two integers that are `long`s. -/
theorem total_compare {Γ : Program} {f : FRef} {address : Symbol → Int} {fuel : Nat}
    (fn : CompareFn) {d : Data} {v w : VRef} {i j : ℤ} {Q : VRef → Data → Prop}
    (callee : Γ f = some (.cfun (CProg.ofLocal (fn.run address (fuel + 1)))))
    (first : d.IsNumber v i) (second : d.IsNumber w j) (longI : IsLong i) (longJ : IsLong j)
    (holds : Q (if fn.test (compareNumbers i j) then Data.aklTrue else Data.aklNil) d) :
    Total (Γ.apply f [v, w]) d Q := by
  apply total_local callee (by simp)
  intro cx dataEq on
  have compared : aklCompareValues address cx.data (fuel + 1) (some v) (some w) =
      .ok (compareNumbers i j) := by
    rw [aklCompareValues_scalars (s := .number i) (t := .number j) address
      (by rw [dataEq]; exact first) (by rw [dataEq]; exact second)]
    simp only [compareScalars, toLong_of_int longI.1 longI.2, toLong_of_int longJ.1 longJ.2]
  rcases compareFn_two fn.test on compared with ⟨cx', resultEq, same⟩
  have dataEq' : cx'.data = d := same.data.trans dataEq
  refine ⟨_, cx', by rw [CompareFn.run_eq]; exact resultEq, ?_, ?_⟩
  · rw [dataEq']
  · rw [dataEq']
    exact holds

/-- The number of the elements of a list. -/
theorem total_length {Γ : Program} {f : FRef} {d : Data} {v : VRef} {l : LRef} {list : AklList}
    {Q : VRef → Data → Prop} (callee : Γ f = some (.cfun (CProg.ofLocal aklFnLength)))
    (held : d.payload v = some (.list l)) (found : d.lists[l]? = some list)
    (holds : Q d.values.length (d.newValue ⟨.number list.liCount.toNat, false, false⟩).2) :
    Total (Γ.apply f [v]) d Q := by
  apply total_local callee (by simp)
  intro cx dataEq on
  rcases on.aklGetArgs with ⟨cx₁, argsEq, -, same⟩
  have argsEq' : cx.aklGetArgs 1 = (some [v], cx₁) := argsEq
  have data₁ : cx₁.data = d := same.data.trans dataEq
  subst data₁
  have result : aklFnLength cx = .ok (cx₁.newValue (.number list.liCount.toNat)) := by
    simp only [aklFnLength, argsEq', held, found]
    rfl
  exact ⟨_, _, result, Data.le_newValue _ _, holds⟩

/-! ### Arguments of given types -/

theorem Payload.vaValue_injective : Function.Injective Payload.vaValue := by
  intro p q same
  cases p <;> cases q <;> cases same <;> rfl

/-- A value that is not nil is told by its record. -/
theorem Data.payload_iff_vaValue {d : Data} {v : VRef} {p : Payload} (notNil : p ≠ .nil) :
    d.payload v = some p ↔ (d.valueRecord v).vaValue = p.vaValue := by
  refine ⟨Data.valueRecord_vaValue, fun held => ?_⟩
  rw [Data.valueRecord] at held
  rw [Data.payload]
  cases valueEq : d.values[v]? with
  | none =>
      rw [valueEq] at held
      exact absurd (Payload.vaValue_injective (show Payload.nil.vaValue = _ from held)).symm notNil
  | some value =>
      rw [valueEq] at held
      exact congrArg some (Payload.vaValue_injective held)

namespace ArgType

/-- The type as `akl_get_args_strict` gets it. -/
def expected : ArgType → ExpectedType
  | .any => .vtAny
  | .number => .vt .vtNumber
  | .list => .vt .vtList
  | .function => .vt .vtFunction

/-- What it stores through the pointer of its caller. -/
def stored : (t : ArgType) → t.Value → Stored
  | .any, v => .value v
  | .number, n => .number n
  | .list, l => .list (some l)
  | .function, fn => .function (some fn)

/-- What it stores for several arguments. -/
def storedAll : (types : List ArgType) → Values types → List Stored
  | [], _ => []
  | t :: types, (value, values) => t.stored value :: storedAll types values

theorem expected_stores (t : ArgType) : t.expected.Stores := by
  cases t <;> simp [expected, ExpectedType.Stores]

variable {d : Data} {v : VRef}

theorem get_eq_some_iff_gives {t : ArgType} {value : t.Value} :
    t.get d v = some value ↔ t.expected.Gives d.valueRecord v (t.stored value) := by
  cases t with
  | any =>
      constructor
      · intro got
        cases got
        exact .any v
      · intro gives
        cases gives
        rfl
  | number =>
      have found : ArgType.number.get d v = some value ↔
          d.payload v = some (.number value) := by
        rw [get]
        split <;> simp_all
      rw [found, Data.payload_iff_vaValue (by simp)]
      exact ⟨fun held => .number held, fun gives => by cases gives; assumption⟩
  | list =>
      have found : ArgType.list.get d v = some value ↔ d.payload v = some (.list value) := by
        rw [get]
        split <;> simp_all
      rw [found, Data.payload_iff_vaValue (by simp)]
      exact ⟨fun held => .list held, fun gives => by cases gives; assumption⟩
  | function =>
      have found : ArgType.function.get d v = some value ↔
          d.payload v = some (.function value) := by
        rw [get]
        split <;> simp_all
      rw [found, Data.payload_iff_vaValue (by simp)]
      exact ⟨fun held => .function held, fun gives => by cases gives; assumption⟩

/-- What a type gives is a value of the type. -/
theorem exists_stored_of_gives {t : ArgType} {s : Stored}
    (gives : t.expected.Gives d.valueRecord v s) : ∃ value, s = t.stored value := by
  cases t <;> cases gives <;> exact ⟨_, rfl⟩

end ArgType

theorem typedAs_iff_give {types : List ArgType} {d : Data} {vs : List VRef}
    {values : ArgType.Values types} :
    TypedAs d types vs values ↔
      ExpectedType.Give d.valueRecord (types.map expected) vs (storedAll types values) := by
  induction types generalizing vs with
  | nil =>
      cases vs with
      | nil => exact ⟨fun _ => .nil, fun _ => trivial⟩
      | cons v vs => exact ⟨fun typed => typed.elim, fun gives => by cases gives⟩
  | cons t types ih =>
      rcases values with ⟨value, values⟩
      cases vs with
      | nil => exact ⟨fun typed => typed.elim, fun gives => by cases gives⟩
      | cons v vs =>
          constructor
          · rintro ⟨got, typed⟩
            exact .cons (get_eq_some_iff_gives.mp got) (ih.mp typed)
          · intro gives
            cases gives with
            | cons first others => exact ⟨get_eq_some_iff_gives.mpr first, ih.mpr others⟩

/-- What some types give are values of these types. -/
theorem exists_typedAs_of_give {types : List ArgType} {d : Data} {vs : List VRef}
    {stored : List Stored}
    (gives : ExpectedType.Give d.valueRecord (types.map expected) vs stored) :
    ∃ values, stored = storedAll types values ∧ TypedAs d types vs values := by
  have values : ∃ values, stored = storedAll types values := by
    induction types generalizing vs stored with
    | nil =>
        cases gives
        exact ⟨(), rfl⟩
    | cons t types ih =>
        cases gives with
        | cons first others =>
            rcases exists_stored_of_gives first with ⟨value, rfl⟩
            rcases ih others with ⟨values, rfl⟩
            exact ⟨(value, values), rfl⟩
  rcases values with ⟨values, rfl⟩
  exact ⟨values, rfl, typedAs_iff_give.mpr gives⟩

/-- A type gives one value only. -/
theorem TypedAs.unique {types : List ArgType} {d : Data} {vs : List VRef}
    {values values' : ArgType.Values types} (typed : TypedAs d types vs values)
    (typed' : TypedAs d types vs values') : values = values' := by
  induction types generalizing vs with
  | nil => rfl
  | cons t types ih =>
      cases vs with
      | nil => exact typed.elim
      | cons v vs =>
          rcases typed with ⟨got, typed⟩
          rcases typed' with ⟨got', typed'⟩
          exact Prod.ext (Option.some.inj (got.symm.trans got')) (ih typed typed')

theorem ExpectedType.Give.accept {values : VRef → ValueRecord} {types : List ExpectedType}
    {vs : List VRef} {stored : List Stored} (gives : Give values types vs stored) :
    Accept values types vs := by
  induction gives with
  | nil => exact .nil
  | cons first _ ih =>
      refine .cons ?_ ih
      cases first <;> simp [Accepts, VaValue.vaType, *]

/-- Arguments of given types are those for which `akl_get_args_strict` returns 0, and their
values are what it stores then. -/
theorem CallState.aklGetArgsStrict_typedAs {types : List ArgType} (some_ : types ≠ [])
    {cx : CallState} {below cells : List (Cell VRef)}
    (covers : Covers cx.stack cx.cxFrame below cells []) (values : ArgType.Values types) :
    TypedAs cx.data types (cells.map Prod.snd) values ↔
      let fetch := cx.aklGetArgsStrict cx.data.valueRecord types.length (types.map expected)
      fetch.code = 0 ∧ fetch.stored = storedAll types values := by
  have strict : Fetch.Strict cx.data.valueRecord (types.map expected) (cells.map Prod.snd) below cx
      (cx.aklGetArgsStrict cx.data.valueRecord (types.map expected).length
        (types.map expected)) :=
    CallState.aklGetArgsStrict_strict (by simpa using some_) (by simp [expected_stores]) covers
  rw [List.length_map] at strict
  constructor
  · intro typed
    have zero := strict.zero_iff.mpr (typedAs_iff_give.mp typed).accept
    rcases exists_typedAs_of_give (strict.stores zero) with ⟨values', storedEq, typed'⟩
    exact ⟨zero, by rw [storedEq, typed.unique typed']⟩
  · rintro ⟨zero, storedEq⟩
    have gives := strict.stores zero
    rw [storedEq] at gives
    exact typedAs_iff_give.mpr gives

/-! ### Functions that take a function -/

section

variable {Γ : Program} {f g : FRef} {l : LRef} {as : List Addr} {xs vs own : List VRef}
  {d d' : Data} {Q : VRef → Data → Prop}

theorem total_getArgsStrictLoop {types : List ArgType} {values : ArgType.Values types}
    {k : Option (ArgType.Values types) → CProg} (typed : TypedAs d types vs values)
    {argCount argNoopt : Nat} (countEq : argCount = argNoopt + vs.length)
    (inside : Total (Γ.cprog (k (some values)) [] own) d Q) :
    Total (Γ.cprog (getArgsStrictLoop argCount types argNoopt k) vs own) d Q := by
  induction types generalizing vs argNoopt with
  | nil =>
      cases vs with
      | cons v vs => cases typed
      | nil =>
          rw [getArgsStrictLoop, if_neg (fun different => different countEq)]
          exact inside
  | cons t types ih =>
      cases vs with
      | nil => cases typed
      | cons v vs =>
          rcases values with ⟨value, values⟩
          rcases typed with ⟨got, typed⟩
          have countEq' : argCount = argNoopt + 1 + vs.length := by
            rw [countEq, List.length_cons]
            omega
          rw [getArgsStrictLoop]
          apply total_shift
          apply total_read
          simp only [got]
          exact ih typed countEq' inside

/-- With arguments of the right types and number a C function goes on with their values. -/
theorem total_getArgsStrict {types : List ArgType} (some_ : types ≠ [])
    {values : ArgType.Values types} {k : Option (ArgType.Values types) → CProg}
    (typed : TypedAs d types vs values)
    (inside : Total (Γ.cprog (k (some values)) [] own) d Q) :
    Total (Γ.cprog (aklGetArgsStrict vs.length types k) vs own) d Q := by
  rw [aklGetArgsStrict, if_neg some_]
  exact total_getArgsStrictLoop typed (Nat.zero_add _).symm inside

/-- Calls of a function, each with the value of the call in front of it and an element of a
list that the calls do not modify. -/
def Program.FoldsTo (Γ : Program) (g : FRef) (l : LRef) (xs : List VRef) (v : VRef) (d : Data)
    (u : VRef) (d' : Data) : Prop :=
  ∃ calls, Folds (Γ.apply g) (KeepsList l) v xs d calls u d'

/-- The calls keep an invariant about the elements that are left. -/
theorem total_foldsTo {I : List VRef → VRef → Data → Prop}
    (keeps : ∀ x xs a d, I (x :: xs) a d →
      Total (Γ.apply g [a, x]) d fun w d' => KeepsList l d d' ∧ I xs w d')
    (xs : List VRef) (v : VRef) (d : Data) (start : I xs v d) :
    Total (Γ.FoldsTo g l xs v) d (I []) := by
  have ends : ∀ a d, Γ.FoldsTo g l [] a d a d := fun a d => ⟨[], .nil⟩
  have goesOn : ∀ x xs a d b d₁ c d₂, Γ.apply g [a, x] d b d₁ ∧ KeepsList l d d₁ →
      Γ.FoldsTo g l xs b d₁ c d₂ → Γ.FoldsTo g l (x :: xs) a d c d₂ := by
    rintro x xs a d b d₁ c d₂ ⟨call, kept⟩ ⟨calls, rest⟩
    exact ⟨_, .cons call kept rest⟩
  apply Total.fold ends goesOn _ xs v d start
  intro x xs a d here
  rcases keeps x xs a d here with ⟨w, d', call, later, kept, inv⟩
  exact ⟨w, d', ⟨call, kept⟩, later, inv⟩

/-- The loop of `foldl` makes these calls. -/
theorem Folds.eval {rounds : Nat} {it : Option Addr} {v u : VRef}
    {calls : List (List VRef × VRef)}
    (folds : Folds (Γ.apply g) (KeepsList l) v xs d calls u d') (ahead : Ahead d l as it xs)
    (enough : xs.length < rounds) : Γ.cprog (foldlLoop g rounds (some v) it) [] [] d u d' := by
  induction folds generalizing rounds it with
  | nil =>
      rcases Nat.exists_eq_add_of_lt enough with ⟨rounds, rfl⟩
      apply Eval.read
      rw [ahead.next_nil]
      exact .ret
  | @cons v x w u xs calls d d₁ d' call kept rest ih =>
      cases rounds with
      | zero => cases enough
      | succ rounds =>
          rcases ahead.next_cons with ⟨it', nextEq, ahead'⟩
          have others := ih (ahead'.imp fun zs => kept as zs) (Nat.lt_of_succ_lt_succ enough)
          have called : Γ.cprog (CProg.callBound g 2 fun v => foldlLoop g rounds v it') []
              ([] ++ [v, x]) d u d' := .callback call (.stackPop others)
          apply Eval.read
          rw [nextEq]
          exact .push (.push called)

/-- `foldl` keeps an invariant. -/
theorem total_foldl {rounds : Nat} {v lv fv : VRef}
    (callee : Γ f = some (.cfun (aklFnFoldl rounds))) (list : d.payload lv = some (.list l))
    (function : d.payload fv = some (.function g)) (iterates : Iterates d l as xs)
    (enough : xs.length < rounds) {I : List VRef → VRef → Data → Prop} (start : I xs v d)
    (keeps : ∀ x xs a d, I (x :: xs) a d →
      Total (Γ.apply g [a, x]) d fun w d' => KeepsList l d d' ∧ I xs w d')
    (holds : ∀ w d', d ≤ d' → I [] w d' → Q w d') : Total (Γ.apply f [v, lv, fv]) d Q := by
  have typed : TypedAs d [.any, .list, .function] [v, lv, fv] (v, l, g, ()) := by
    simp [TypedAs, ArgType.get, list, function]
  apply total_applyCfun callee (by simp)
  apply total_getArgsStrict (by simp) typed
  apply total_read
  apply ((total_foldsTo keeps xs v d start).imp holds).via
  rintro w d' ⟨calls, folds⟩
  exact folds.eval iterates.ahead enough

end

end AkLisp
