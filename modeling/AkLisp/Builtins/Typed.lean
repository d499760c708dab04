import AkLisp.Builtins.Arguments
import Mathlib.Algebra.Group.Nat.Defs

/-!
# Arguments of expected types

`akl_get_args_strict` takes the arguments off the frame one after the other, compares
their types with those that the C function expects and stores their payloads through
the pointers of its caller.  Here values have every type there is, and what a pointer to
one points to is given by a map of value records.
-/

namespace AkLisp

open Linked

/-- `enum AKL_VALUE_TYPE` -/
inductive AklValueType where
  | vtNil
  | vtTrue
  | vtSymbol
  | vtVariable
  | vtNumber
  | vtString
  | vtList
  | vtFunction
  | vtUserdata
  deriving DecidableEq, Repr

/-- `akl_type_name` -/
def aklTypeName : AklValueType → String
  | .vtNil => "nil"
  | .vtTrue => "true"
  | .vtSymbol => "symbol"
  | .vtVariable => "variable"
  | .vtNumber => "number"
  | .vtString => "string"
  | .vtList => "list"
  | .vtFunction => "function"
  | .vtUserdata => "userdata"

/-- Pointer to a `struct akl_variable`. -/
abbrev VariableRef := Nat

/-- Pointer to a `struct akl_userdata`. -/
abbrev UserdataRef := Nat

/-- `va_value` with the member that `va_type` names. -/
inductive VaValue where
  | nil
  | true
  | symbol (symbol : Symbol)
  | ofVariable (ref : VariableRef)
  | number (number : ℚ)
  | string (string : List Chr)
  | list (list : LRef)
  | function (func : FRef)
  | userdata (udata : UserdataRef)
  deriving DecidableEq

/-- `va_type` -/
def VaValue.vaType : VaValue → AklValueType
  | .nil => .vtNil
  | .true => .vtTrue
  | .symbol _ => .vtSymbol
  | .ofVariable _ => .vtVariable
  | .number _ => .vtNumber
  | .string _ => .vtString
  | .list _ => .vtList
  | .function _ => .vtFunction
  | .userdata _ => .vtUserdata

/-- The fields of a `struct akl_value` that the check of its type reads. -/
structure ValueRecord where
  vaValue : VaValue
  isNil : Bool
  deriving DecidableEq

/-- An expected type: an `enum AKL_VALUE_TYPE` or an `enum AKL_VALUE_TYPE_EXT`. -/
inductive ExpectedType where
  | vt (type : AklValueType)
  | vtAny
  | vtOpt
  | vtRest
  deriving DecidableEq, Repr

/-- What is stored through a pointer of the caller: `none` for `NULL`. -/
inductive Stored where
  | value (val : VRef)
  | symbol (sym : Option Symbol)
  | function (func : Option FRef)
  | list (list : Option LRef)
  | userdata (udata : Option UserdataRef)
  | number (num : ℚ)
  | string (str : Option (List Chr))
  | flag (b : Bool)
  deriving DecidableEq

namespace ExpectedType

/-- The test of the loop: only types behind `AKL_VT_TRUE` are compared. -/
def mismatch (t : ExpectedType) (vp : ValueRecord) : Bool :=
  match t with
  | .vt .vtNil => false
  | .vt .vtTrue => false
  | .vt type => type ≠ vp.vaValue.vaType
  | .vtAny => false
  | .vtOpt => false
  | .vtRest => false

/-- What the error calls the expected type. -/
def typeName : ExpectedType → String
  | .vt type => aklTypeName type
  | _ => ""

/-- The `switch` of the loop: what it stores for an argument, if it fetches a pointer. -/
def store (t : ExpectedType) (v : VRef) (vp : ValueRecord) : Option Stored :=
  match t with
  | .vtAny => some (.value v)
  | .vtOpt => none
  | .vtRest => none
  | .vt .vtSymbol =>
      some (.symbol (match vp.vaValue with | .symbol sym => some sym | _ => none))
  | .vt .vtFunction =>
      some (.function (match vp.vaValue with | .function func => some func | _ => none))
  | .vt .vtList =>
      some (.list (match vp.vaValue with | .list list => some list | _ => none))
  | .vt .vtUserdata =>
      some (.userdata (match vp.vaValue with | .userdata udata => some udata | _ => none))
  | .vt .vtNumber =>
      some (.number (match vp.vaValue with | .number num => num | _ => 0))
  | .vt .vtString =>
      some (.string (match vp.vaValue with | .string str => some str | _ => none))
  | .vt .vtNil => some (.flag vp.isNil)
  | .vt .vtTrue => some (.flag !vp.isNil)
  | .vt .vtVariable => none

end ExpectedType

/-- How a call of `akl_get_args_strict` ends: its return value, what it has stored, one
pointer after the other, and the context. -/
structure Fetch where
  code : Int
  stored : List Stored
  state : CallState

namespace CallState

/-- The loop of `akl_get_args_strict` for a frame that covered `argCount` arguments, over
the types it still has to read.  The number of the argument is always reported as 1. -/
def getArgsStrictLoop (values : VRef → ValueRecord) (argCount : Nat) :
    List ExpectedType → Nat → Bool → CallState → Fetch
  | [], argNoopt, _, c =>
      if argCount ≠ argNoopt then
        -- `argc` has been counted down to -1
        ⟨-1, [], c.aklRaiseError .error
          (c.cxFuncName ++ ": Expected -1 argument, but got " ++ toString argNoopt)⟩
      else ⟨0, [], c⟩
  | t :: types, argNoopt, argOpt, c =>
      match c.aklFrameShift with
      | (none, c) =>
          ⟨-1, [], c.aklRaiseError .error
            "Bug in the interpreter (NULL in stack) for the 1. argument"⟩
      | (some v, c) =>
          if t.mismatch (values v) then
            -- behind the marker a mismatch is not reported, but returned all the same
            ⟨-1, [], if argOpt then c else c.aklRaiseError .error (c.cxFuncName ++
              ": Expected " ++ t.typeName ++ " but got " ++
                aklTypeName (values v).vaValue.vaType)⟩
          else
            let next := match t with
              | .vtOpt => getArgsStrictLoop values argCount types argNoopt true c
              | _ => getArgsStrictLoop values argCount types (argNoopt + 1) argOpt c
            { next with stored := (t.store v (values v)).toList ++ next.stored }

/-- `akl_get_args_strict`, which reads `argc` of the types that follow it. -/
def aklGetArgsStrict (values : VRef → ValueRecord) (c : CallState) (argc : Nat)
    (types : List ExpectedType) : Fetch :=
  if argc = 0 then ⟨-1, [], c⟩
  else c.getArgsStrictLoop values (aklFrameGetCount c.cxFrame).toNat (types.take argc) 0 false

/-- Fetching arguments does not touch the data. -/
theorem getArgsStrictLoop_data (values : VRef → ValueRecord) (argCount : Nat)
    (types : List ExpectedType) (argNoopt : Nat) (argOpt : Bool) (c : CallState) :
    (c.getArgsStrictLoop values argCount types argNoopt argOpt).state.data = c.data := by
  induction types generalizing c argNoopt argOpt with
  | nil =>
      rw [getArgsStrictLoop]
      split <;> rfl
  | cons t types ih =>
      have shifted : c.aklFrameShift.2.data = c.data := rfl
      rw [getArgsStrictLoop]
      cases shiftEq : c.aklFrameShift with
      | mk v c' =>
          rw [shiftEq] at shifted
          cases v with
          | none => exact shifted
          | some v =>
              simp only
              split
              · split <;> exact shifted
              · split <;> exact (ih ..).trans shifted

theorem aklGetArgsStrict_data (values : VRef → ValueRecord) (c : CallState) (argc : Nat)
    (types : List ExpectedType) : (c.aklGetArgsStrict values argc types).state.data = c.data := by
  rw [aklGetArgsStrict]
  split
  · rfl
  · exact getArgsStrictLoop_data ..

end CallState

namespace ExpectedType

/-- An argument of any type is accepted for `AKL_VT_ANY`, `AKL_VT_NIL` and `AKL_VT_TRUE`,
for another type only one of this type. -/
def Accepts (t : ExpectedType) (vp : ValueRecord) : Prop :=
  t = .vtAny ∨ t = .vt .vtNil ∨ t = .vt .vtTrue ∨ t = .vt vp.vaValue.vaType

/-- The types for which the caller passes a pointer. -/
def Stores (t : ExpectedType) : Prop :=
  t ≠ .vtOpt ∧ t ≠ .vtRest ∧ t ≠ .vt .vtVariable

/-- What the caller gets for an accepted argument: its payload, for the two truth values
whether it is nil. -/
inductive Gives (values : VRef → ValueRecord) : ExpectedType → VRef → Stored → Prop
  | any (v : VRef) : Gives values .vtAny v (.value v)
  | nil (v : VRef) : Gives values (.vt .vtNil) v (.flag (values v).isNil)
  | true (v : VRef) : Gives values (.vt .vtTrue) v (.flag !(values v).isNil)
  | symbol {v : VRef} {sym : Symbol} (held : (values v).vaValue = .symbol sym) :
      Gives values (.vt .vtSymbol) v (.symbol (some sym))
  | number {v : VRef} {num : ℚ} (held : (values v).vaValue = .number num) :
      Gives values (.vt .vtNumber) v (.number num)
  | string {v : VRef} {str : List Chr} (held : (values v).vaValue = .string str) :
      Gives values (.vt .vtString) v (.string (some str))
  | list {v : VRef} {list : LRef} (held : (values v).vaValue = .list list) :
      Gives values (.vt .vtList) v (.list (some list))
  | function {v : VRef} {func : FRef} (held : (values v).vaValue = .function func) :
      Gives values (.vt .vtFunction) v (.function (some func))
  | userdata {v : VRef} {udata : UserdataRef} (held : (values v).vaValue = .userdata udata) :
      Gives values (.vt .vtUserdata) v (.userdata (some udata))

/-- The types accept the arguments, one each. -/
def Accept (values : VRef → ValueRecord) (types : List ExpectedType) (args : List VRef) : Prop :=
  List.Forall₂ (fun t v => t.Accepts (values v)) types args

/-- What the caller gets for several arguments. -/
inductive Give (values : VRef → ValueRecord) :
    List ExpectedType → List VRef → List Stored → Prop
  | nil : Give values [] [] []
  | cons {t : ExpectedType} {types : List ExpectedType} {v : VRef} {args : List VRef}
      {s : Stored} {stored : List Stored} (first : t.Gives values v s)
      (others : Give values types args stored) : Give values (t :: types) (v :: args) (s :: stored)

theorem mismatch_eq_false_iff {t : ExpectedType} {vp : ValueRecord} (pointer : t.Stores) :
    t.mismatch vp = false ↔ t.Accepts vp := by
  obtain ⟨notOpt, notRest, -⟩ := pointer
  cases t with
  | vt type => cases type <;> simp [mismatch, Accepts]
  | vtAny => simp [mismatch, Accepts]
  | vtOpt => exact absurd rfl notOpt
  | vtRest => exact absurd rfl notRest

/-- For an argument that it accepts a type stores the payload. -/
theorem Accepts.gives {values : VRef → ValueRecord} {t : ExpectedType} {v : VRef}
    (accepts : t.Accepts (values v)) (pointer : t.Stores) :
    ∃ s, t.store v (values v) = some s ∧ t.Gives values v s := by
  rcases accepts with rfl | rfl | rfl | rfl
  · exact ⟨_, rfl, .any v⟩
  · exact ⟨_, rfl, .nil v⟩
  · exact ⟨_, rfl, .true v⟩
  · cases held : (values v).vaValue with
    | nil => exact ⟨_, rfl, .nil v⟩
    | true => exact ⟨_, rfl, .true v⟩
    | symbol sym =>
        refine ⟨.symbol (some sym), ?_, .symbol held⟩
        simp only [VaValue.vaType, store, held]
    | ofVariable ref =>
        obtain ⟨-, -, notVariable⟩ := pointer
        rw [held] at notVariable
        exact absurd rfl notVariable
    | number num =>
        refine ⟨.number num, ?_, .number held⟩
        simp only [VaValue.vaType, store, held]
    | string str =>
        refine ⟨.string (some str), ?_, .string held⟩
        simp only [VaValue.vaType, store, held]
    | list list =>
        refine ⟨.list (some list), ?_, .list held⟩
        simp only [VaValue.vaType, store, held]
    | function func =>
        refine ⟨.function (some func), ?_, .function held⟩
        simp only [VaValue.vaType, store, held]
    | userdata udata =>
        refine ⟨.userdata (some udata), ?_, .userdata held⟩
        simp only [VaValue.vaType, store, held]

end ExpectedType

open ExpectedType

/-- What is expected of a call of `akl_get_args_strict` from the context `c` with these
types, when the frame covers `args` above the entries `below` of the stack. -/
structure Fetch.Strict (values : VRef → ValueRecord) (types : List ExpectedType)
    (args : List VRef) (below : List (Cell VRef)) (c : CallState) (r : Fetch) : Prop where
  zero_iff : r.code = 0 ↔ Accept values types args
  stores : r.code = 0 → Give values types args r.stored
  consumes : r.code = 0 → Covers r.state.stack r.state.cxFrame below [] []
  silent : r.code = 0 → r.state.errors = c.errors
  reports : r.code ≠ 0 → r.code = -1 ∧ ∃ message, r.state.errors = c.errors ++ [⟨.error, message⟩]

namespace Fetch.Strict

variable {values : VRef → ValueRecord} {types : List ExpectedType} {args : List VRef}
  {below : List (Cell VRef)} {c : CallState}

/-- An error is raised for arguments that are not accepted. -/
theorem refused {message : String} {c' : CallState} (stored : List Stored)
    (errors : c'.errors = c.errors) (not : ¬ Accept values types args) :
    Strict values types args below c
      ⟨-1, stored, c'.aklRaiseError .error message⟩ where
  zero_iff := by
    constructor
    · intro zero
      cases zero
    · intro accepted
      exact absurd accepted not
  stores zero := by cases zero
  consumes zero := by cases zero
  silent zero := by cases zero
  reports _ := ⟨rfl, message, by rw [CallState.aklRaiseError, errors]⟩

/-- One more argument in front that is accepted. -/
theorem next {t : ExpectedType} {v : VRef} {c' : CallState} {r : Fetch} {s : Stored}
    (rest : Strict values types args below c' r) (errors : c'.errors = c.errors)
    (accepts : t.Accepts (values v)) (gives : t.Gives values v s) :
    Strict values (t :: types) (v :: args) below c { r with stored := s :: r.stored } where
  zero_iff := by
    rw [rest.zero_iff, Accept, Accept, List.forall₂_cons]
    exact (and_iff_right accepts).symm
  stores zero := .cons gives (rest.stores zero)
  consumes := rest.consumes
  silent zero := (rest.silent zero).trans errors
  reports failed := by
    rw [← errors]
    exact rest.reports failed

end Fetch.Strict

namespace CallState

variable {values : VRef → ValueRecord} {types : List ExpectedType} {c : CallState}
  {below cells : List (Cell VRef)} {argCount argNoopt : Nat}

/-- Shifting an argument off a frame whose place on the stack is known. -/
theorem shift_covers {cell : Cell VRef}
    (covers : Covers c.stack c.cxFrame below (cell :: cells) []) :
    ∃ c', c.aklFrameShift = (some cell.2, c') ∧ Covers c'.stack c'.cxFrame below cells [] ∧
      c.SameButFrame c' := by
  obtain ⟨stack, cxFrame, shiftEq, covers'⟩ := covers.shift
  refine ⟨{ c with stack, cxFrame }, ?_, covers', rfl, rfl, rfl⟩
  simp only [aklFrameShift, shiftEq]

theorem shift_covers_nil (covers : Covers c.stack c.cxFrame below [] []) :
    c.aklFrameShift = (none, c) := by
  simp only [aklFrameShift, covers.shift_nil]

/-- The loop does what is expected, from any argument on. -/
theorem getArgsStrictLoop_strict (pointers : ∀ t ∈ types, t.Stores)
    (covers : Covers c.stack c.cxFrame below cells [])
    (countEq : argCount = argNoopt + cells.length) :
    Fetch.Strict values types (cells.map Prod.snd) below c
      (c.getArgsStrictLoop values argCount types argNoopt false) := by
  induction types generalizing c cells argNoopt with
  | nil =>
      rw [getArgsStrictLoop]
      cases cells with
      | nil =>
          have noError : ¬ argCount ≠ argNoopt := fun different => different countEq
          rw [if_neg noError]
          constructor
          · exact iff_of_true rfl .nil
          · exact fun _ => .nil
          · exact fun _ => covers
          · exact fun _ => rfl
          · exact fun failed => absurd rfl failed
      | cons cell cells =>
          -- too many arguments are noticed behind the loop
          have tooMany : argCount ≠ argNoopt := by
            rw [countEq, List.length_cons]
            omega
          rw [if_pos tooMany]
          apply Fetch.Strict.refused [] rfl
          intro accepted
          cases accepted
  | cons t types ih =>
      rw [getArgsStrictLoop]
      cases cells with
      | nil =>
          rw [shift_covers_nil covers]
          apply Fetch.Strict.refused [] rfl
          intro accepted
          cases accepted
      | cons cell cells =>
          obtain ⟨c', shiftEq, covers', same⟩ := shift_covers covers
          have pointer := pointers t List.mem_cons_self
          rw [shiftEq]
          simp only
          cases mismatch : t.mismatch (values cell.2) with
          | true =>
              apply Fetch.Strict.refused [] same.errors
              intro accepted
              rw [List.map_cons, Accept, List.forall₂_cons,
                ← mismatch_eq_false_iff pointer] at accepted
              rw [accepted.1] at mismatch
              cases mismatch
          | false =>
              have accepts := (mismatch_eq_false_iff pointer).mp mismatch
              obtain ⟨s, storeEq, gives⟩ := accepts.gives pointer
              have countEq' : argCount = argNoopt + 1 + cells.length := by
                rw [countEq, List.length_cons]
                omega
              have rest :=
                ih (fun u mem => pointers u (List.mem_cons_of_mem t mem)) covers' countEq'
              have notOpt := pointer.1
              rw [storeEq]
              cases t with
              | vtOpt => exact absurd rfl notOpt
              | vt type => exact rest.next same.errors accepts gives
              | vtAny => exact rest.next same.errors accepts gives
              | vtRest => exact rest.next same.errors accepts gives

/-- So does `akl_get_args_strict` from the first argument on. -/
theorem aklGetArgsStrict_strict (some_ : types ≠ []) (pointers : ∀ t ∈ types, t.Stores)
    (covers : Covers c.stack c.cxFrame below cells []) :
    Fetch.Strict values types (cells.map Prod.snd) below c
      (c.aklGetArgsStrict values types.length types) := by
  have notZero : types.length ≠ 0 := fun zero => some_ (List.length_eq_zero_iff.mp zero)
  rw [aklGetArgsStrict, if_neg notZero, List.take_length]
  apply getArgsStrictLoop_strict pointers covers
  rw [aklFrameGetCount, covers.on.count_toNat, Nat.zero_add]

end CallState

/-- Fetching arguments of expected types succeeds exactly on the calls that match: as
many arguments as types, and each of a type that is accepted.  Then every pointer gets
the payload of its argument and all arguments are consumed, otherwise an error is raised. -/
theorem get_args_strict_iff (values : VRef → ValueRecord) {types : List ExpectedType}
    (some_ : types ≠ []) (pointers : ∀ t ∈ types, t.Stores) {stack : StackState VRef}
    {below cells : List (Cell VRef)} (holds : stack.Holds (below ++ cells))
    (intArgc : cells.length < 2 ^ 31) (name : String) (d : Data) (errors : List AklError) :
    Fetch.Strict values types (cells.map Prod.snd) below
      (CallState.start name stack cells.length d errors)
      ((CallState.start name stack cells.length d errors).aklGetArgsStrict values
        types.length types) :=
  CallState.aklGetArgsStrict_strict some_ pointers (holds.aklInitFrame intArgc)

/-- A number and a truth value, asked for in this order, above one more entry of the stack. -/
theorem get_args_strict_number_nil :
    Fetch.Strict (fun v => if v = 8 then ⟨.number 3, false⟩ else ⟨.nil, true⟩)
      [.vt .vtNumber, .vt .vtNil] [8, 0] [(0, 7)]
      (CallState.start "f" (aklStackPush (aklStackPush (aklStackPush default 7) 8) 0) 2 .init [])
      ((CallState.start "f" (aklStackPush (aklStackPush (aklStackPush default 7) 8) 0) 2 .init
        []).aklGetArgsStrict (fun v => if v = 8 then ⟨.number 3, false⟩ else ⟨.nil, true⟩) 2
          [.vt .vtNumber, .vt .vtNil]) :=
  have holds : (aklStackPush (aklStackPush (aklStackPush default 7) 8) 0).Holds
      ([(0, 7)] ++ [(1, 8), (2, 0)]) := ((StackState.Holds.empty.push 7).push 8).push 0
  get_args_strict_iff _ (List.cons_ne_nil _ _) (by simp [Stores]) holds (by decide) "f" .init []

/-! ## The optional marker -/

namespace CallState

variable {values : VRef → ValueRecord} {types : List ExpectedType} {c : CallState}
  {below cells : List (Cell VRef)} {argCount argNoopt : Nat} {argOpt : Bool}

/-- The loop returns 0 or -1; with 0 it has shifted an argument for every type and has
counted those that are not the marker. -/
theorem getArgsStrictLoop_code (covers : Covers c.stack c.cxFrame below cells []) :
    (c.getArgsStrictLoop values argCount types argNoopt argOpt).code = -1 ∨
      types.length ≤ cells.length ∧
        argCount = argNoopt + types.countP fun t => t ≠ .vtOpt := by
  induction types generalizing c cells argNoopt argOpt with
  | nil =>
      rw [getArgsStrictLoop]
      by_cases countEq : argCount = argNoopt
      · exact .inr ⟨Nat.zero_le _, by rw [countEq, List.countP_nil, Nat.add_zero]⟩
      · exact .inl (by rw [if_pos countEq])
  | cons t types ih =>
      rw [getArgsStrictLoop]
      cases cells with
      | nil =>
          rw [shift_covers_nil covers]
          exact .inl rfl
      | cons cell cells =>
          obtain ⟨c', shiftEq, covers', same⟩ := shift_covers covers
          rw [shiftEq]
          simp only
          cases t.mismatch (values cell.2) with
          | true => exact .inl rfl
          | false =>
              by_cases marker : t = .vtOpt
              · subst marker
                rcases ih covers' with failed | ⟨long, counted⟩
                · exact .inl failed
                · refine .inr ⟨Nat.succ_le_succ long, ?_⟩
                  rw [counted, List.countP_cons_of_neg (by simp)]
              · have counts : argNoopt + (t :: types).countP (fun t => t ≠ .vtOpt) =
                    argNoopt + 1 + types.countP fun t => t ≠ .vtOpt := by
                  rw [List.countP_cons_of_pos (by simpa using marker)]
                  omega
                rw [counts, List.length_cons, List.length_cons, Nat.succ_le_succ_iff]
                cases t with
                | vtOpt => exact absurd rfl marker
                | vt type => exact ih covers'
                | vtAny => exact ih covers'
                | vtRest => exact ih covers'

/-- With the marker among the types it reads `akl_get_args_strict` fails on every frame:
the marker takes an argument and does not count it. -/
theorem aklGetArgsStrict_opt (covers : Covers c.stack c.cxFrame below cells []) {argc : Nat}
    (marker : .vtOpt ∈ types.take argc) : (c.aklGetArgsStrict values argc types).code = -1 := by
  rw [aklGetArgsStrict]
  by_cases zero : argc = 0
  · rw [if_pos zero]
  · rw [if_neg zero]
    rcases getArgsStrictLoop_code covers with failed | ⟨long, counted⟩
    · exact failed
    · -- fewer types are counted than there are arguments
      have fewer : (types.take argc).countP (fun t => t ≠ .vtOpt) < (types.take argc).length := by
        refine Nat.lt_of_le_of_ne List.countP_le_length fun all => ?_
        have ordinary := List.countP_eq_length.mp all .vtOpt marker
        simp at ordinary
      rw [aklFrameGetCount, covers.on.count_toNat, Nat.zero_add] at counted
      omega

end CallState

/-- `akl_features`: the names with their bits. -/
def aklFeatures : List (String × BitVec 64) :=
  [("use-colors", 0x0001), ("interactive", 0x0004), ("use-gc", 0x0002), ("debug-instr", 0x0008),
    ("debug-stack", 0x0010)]

/-- `akl_set_feature_to` on `ai_config` -/
def aklSetFeatureTo (aiConfig : BitVec 64) (feature : String) (isOn : Bool) : Bool × BitVec 64 :=
  if feature = "" then (false, aiConfig)
  else
    match aklFeatures.find? fun af => af.1 = feature with
    | some (_, bit) => (true, if isOn then aiConfig ||| bit else aiConfig &&& ~~~bit)
    | none => (false, aiConfig)

/-- `akl_set_feature`: behind `no-` the feature is unset. -/
def aklSetFeature (aiConfig : BitVec 64) (feature : String) : Bool × BitVec 64 :=
  if feature.toList.take 3 = ['n', 'o', '-'] then
    aklSetFeatureTo aiConfig (String.ofList (feature.toList.drop 3)) false
  else aklSetFeatureTo aiConfig feature true

/-- How `akl-cfg!` ends. -/
structure Configured where
  value : VRef
  /-- `show_features` was called. -/
  shown : Bool
  aiConfig : BitVec 64
  state : CallState

/-- `akl_fn_akl_cfg`; `none` when it reads its variable `sym` without a value in it. -/
def aklFnAklCfg (values : VRef → ValueRecord) (aiConfig : BitVec 64) (cx : CallState) :
    Option Configured :=
  let fetch := cx.aklGetArgsStrict values 1 [.vtOpt, .vt .vtSymbol]
  if fetch.code = -1 then some ⟨Data.aklNil, true, aiConfig, fetch.state⟩
  else
    match fetch.stored with
    | [.symbol (some sym)] =>
        let sname := sym.text
        let (isSet, aiConfig) := aklSetFeature aiConfig sname
        if isSet then some ⟨Data.aklTrue, false, aiConfig, fetch.state⟩
        else if sname = "help" then some ⟨Data.aklNil, true, aiConfig, fetch.state⟩
        else some ⟨Data.aklNil, false, aiConfig,
          fetch.state.aklRaiseError .warning ("Cannot set feature '" ++ sname ++ "'")⟩
    | _ => none

/-- Arguments that end with the optional one, and arguments without it, are fetched; in the
first case the optional one is stored like the others. -/
structure OptionalWorks (values : VRef → ValueRecord) (mandatory : List ExpectedType)
    (last : ExpectedType) (args : List VRef) (r : Fetch) : Prop where
  present : Accept values (mandatory ++ [last]) args →
    r.code = 0 ∧ Give values (mandatory ++ [last]) args r.stored
  missing : Accept values mandatory args → r.code = 0

/-- What `argc` says about the mandatory types, the marker and the last type: `akl-cfg!`
does not count the marker. -/
def optionalArgc (counted : Bool) (mandatory : List ExpectedType) : Nat :=
  mandatory.length + if counted then 2 else 1

/-- Optional parameters never work: with the marker before the last type every call is
refused, whether `argc` counts the marker or not.  So `akl-cfg!` shows the features and
sets none, with or without an argument. -/
theorem optional_works_iff (values : VRef → ValueRecord) (mandatory : List ExpectedType)
    (last : ExpectedType) (counted : Bool) {stack : StackState VRef}
    {below cells : List (Cell VRef)} (holds : stack.Holds (below ++ cells))
    (intArgc : cells.length < 2 ^ 31) (name : String) (d : Data) (errors : List AklError) :
    ((CallState.start name stack cells.length d errors).aklGetArgsStrict values
      (optionalArgc counted mandatory) (mandatory ++ [.vtOpt, last])).code = -1 ∧
    (OptionalWorks values mandatory last (cells.map Prod.snd)
      ((CallState.start name stack cells.length d errors).aklGetArgsStrict values
        (optionalArgc counted mandatory) (mandatory ++ [.vtOpt, last])) ↔
      ¬ Accept values (mandatory ++ [last]) (cells.map Prod.snd) ∧
        ¬ Accept values mandatory (cells.map Prod.snd)) ∧
    ∀ aiConfig, ∃ c', aklFnAklCfg values aiConfig
      (CallState.start name stack cells.length d errors) =
        some ⟨Data.aklNil, true, aiConfig, c'⟩ := by
  have covers := holds.aklInitFrame intArgc
  have marker : .vtOpt ∈ (mandatory ++ [.vtOpt, last]).take (optionalArgc counted mandatory) := by
    rw [optionalArgc, List.take_length_add_append]
    cases counted <;> simp
  have failed : ((CallState.start name stack cells.length d errors).aklGetArgsStrict values
      (optionalArgc counted mandatory) (mandatory ++ [.vtOpt, last])).code = -1 :=
    CallState.aklGetArgsStrict_opt covers marker
  refine ⟨failed, ?_, ?_⟩
  · constructor
    · rintro ⟨present, missing⟩
      constructor
      · intro accepted
        rw [(present accepted).1] at failed
        cases failed
      · intro accepted
        rw [missing accepted] at failed
        cases failed
    · rintro ⟨notPresent, notMissing⟩
      exact ⟨fun accepted => absurd accepted notPresent, fun accepted => absurd accepted notMissing⟩
  · intro aiConfig
    have refused : ((CallState.start name stack cells.length d errors).aklGetArgsStrict values
        1 [.vtOpt, .vt .vtSymbol]).code = -1 :=
      CallState.aklGetArgsStrict_opt covers (by simp)
    exact ⟨_, by rw [aklFnAklCfg, if_pos refused]⟩

/-- Of a number and an optional string, with the string. -/
theorem optional_string_refused :
    let values : VRef → ValueRecord := fun v =>
      if v = 8 then ⟨.number 3, false⟩ else ⟨.string [], false⟩
    let c := CallState.start "f" (aklStackPush (aklStackPush default 8) 9) 2 .init []
    (c.aklGetArgsStrict values 2 [.vt .vtNumber, .vtOpt, .vt .vtString]).code = -1 ∧
    (OptionalWorks values [.vt .vtNumber] (.vt .vtString) [8, 9]
        (c.aklGetArgsStrict values 2 [.vt .vtNumber, .vtOpt, .vt .vtString]) ↔
      ¬ Accept values [.vt .vtNumber, .vt .vtString] [8, 9] ∧
        ¬ Accept values [.vt .vtNumber] [8, 9]) ∧
    ∀ aiConfig, ∃ c', aklFnAklCfg values aiConfig c = some ⟨Data.aklNil, true, aiConfig, c'⟩ :=
  have holds : (aklStackPush (aklStackPush default 8) 9).Holds ([] ++ [(0, 8), (1, 9)]) :=
    (StackState.Holds.empty.push 8).push 9
  optional_works_iff _ [.vt .vtNumber] (.vt .vtString) false holds (by decide) "f" .init []

/-- With a symbol as its only argument, as in `(akl-cfg! 'use-gc)`. -/
theorem optional_symbol_refused :
    ¬ OptionalWorks (fun _ => ⟨.symbol (symbolOf "use-gc"), false⟩) [] (.vt .vtSymbol) [8]
      ((CallState.start "akl-cfg!" (aklStackPush default 8) 1 .init []).aklGetArgsStrict
        (fun _ => ⟨.symbol (symbolOf "use-gc"), false⟩) 1 [.vtOpt, .vt .vtSymbol]) := by
  intro works
  have accepted : Accept (fun _ => ⟨.symbol (symbolOf "use-gc"), false⟩) [.vt .vtSymbol] [8] :=
    .cons (.inr (.inr (.inr rfl))) .nil
  exact absurd (works.present accepted).1 (by decide)

end AkLisp
