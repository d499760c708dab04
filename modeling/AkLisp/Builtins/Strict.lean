import AkLisp.Machine.Callbacks

/-!
# Arguments of given types

`akl_get_args_strict` takes the arguments of a C function off its frame and checks their
types.  A built-in with callbacks asks for a list of types and goes on with values of these.
The function itself, for all types there are, stands with the built-ins that call nothing;
its messages and what it stores are the same here.
-/

namespace AkLisp

open Linked Machine

/-- The types that are asked for: `AKL_VT_ANY`, `AKL_VT_NUMBER`, `AKL_VT_LIST`,
`AKL_VT_FUNCTION`. -/
inductive ArgType where
  | any
  | number
  | list
  | function
  deriving DecidableEq

namespace ArgType

/-- What an argument of the type is stored in. -/
abbrev Value : ArgType → Type
  | .any => VRef
  | .number => ℚ
  | .list => LRef
  | .function => FRef

/-- `akl_type_name` of the type; every value is of the type any. -/
def typeName : ArgType → String
  | .any => ""
  | .number => "number"
  | .list => "list"
  | .function => "function"

/-- The argument as a value of the type, if it has this type. -/
def get (d : Data) (vp : VRef) : (t : ArgType) → Option t.Value
  | .any => some vp
  | .number =>
      match d.payload vp with
      | some (.number n) => some n
      | _ => none
  | .list =>
      match d.payload vp with
      | some (.list l) => some l
      | _ => none
  | .function =>
      match d.payload vp with
      | some (.function f) => some f
      | _ => none

/-- Values of some types. -/
abbrev Values : List ArgType → Type
  | [] => Unit
  | t :: types => t.Value × Values types

end ArgType

/-- `akl_type_name` of a value. -/
def Payload.typeName : Payload → String
  | .nil => "nil"
  | .true => "true"
  | .symbol _ => "symbol"
  | .number _ => "number"
  | .string _ => "string"
  | .list _ => "list"
  | .function _ => "function"

/-- The loop of `akl_get_args_strict` for a frame of `argCount` arguments, `argNoopt` of
which were taken; `none` for the error code -1.  The number of the argument is always
reported as 1. -/
def getArgsStrictLoop (argCount : Nat) :
    (types : List ArgType) → Nat → (Option (ArgType.Values types) → CProg) → CProg
  | [], argNoopt, k =>
      if argCount ≠ argNoopt then
        -- the loop has counted argc down to -1
        .raise .error (fun name =>
          name ++ ": Expected -1 argument, but got " ++ toString argNoopt) (k none)
      else k (some ())
  | t :: types, argNoopt, k =>
      .shift fun
        | none => .raise .error (fun _ =>
            "Bug in the interpreter (NULL in stack) for the 1. argument") (k none)
        | some vp => .read fun d =>
            match t.get d vp with
            | none => .raise .error (fun name => name ++ ": Expected " ++ t.typeName ++
                " but got " ++ ((d.payload vp).map Payload.typeName).getD "") (k none)
            | some value => getArgsStrictLoop argCount types (argNoopt + 1) fun
                | none => k none
                | some values => k (some (value, values))

/-- `akl_get_args_strict` at the start of a C function, where the frame covers `argc`
arguments. -/
def aklGetArgsStrict (argc : Nat) (types : List ArgType)
    (k : Option (ArgType.Values types) → CProg) : CProg :=
  if types = [] then k none else getArgsStrictLoop argc types 0 k

/-- The arguments have the types and these values. -/
def TypedAs (d : Data) : (types : List ArgType) → List VRef → ArgType.Values types → Prop
  | [], [], _ => True
  | t :: types, v :: vs, (value, values) => t.get d v = some value ∧ TypedAs d types vs values
  | _, _, _ => False

namespace Machine

variable {m : Machine} {funs : List AklFunction} {d : Data} {cells left : List (Cell VRef)}
  {cx : Context} {rest : List Activation}

theorem At.own_getArgsStrictLoop (fn : FRef) {argCount argNoopt : Nat} {types : List ArgType}
    {values : ArgType.Values types} {k : Option (ArgType.Values types) → CProg}
    (at_ : m.At funs d (cells ++ left)
      (.cfun cx (getArgsStrictLoop argCount types argNoopt k) :: rest))
    (on : FrameOn cx.cxFrame left) (typed : TypedAs d types (left.map Prod.snd) values)
    (countEq : argCount = argNoopt + left.length) :
    ∃ m' cx', Trace fn rest m [] m' ∧ FrameOn cx'.cxFrame ([] : List (Cell VRef)) ∧
      m'.At funs d cells (.cfun cx' (k (some values)) :: rest) := by
  induction types generalizing m left cx argNoopt with
  | nil =>
      cases left with
      | cons c left => cases typed
      | nil =>
          have noError : ¬ argCount ≠ argNoopt := fun different => different countEq
          rw [getArgsStrictLoop, if_neg noError, List.append_nil] at at_
          exact ⟨m, cx, .done, on, at_⟩
  | cons t types ih =>
      cases left with
      | nil => cases typed
      | cons c left =>
          obtain ⟨value, values⟩ := values
          obtain ⟨got, typed⟩ := typed
          obtain ⟨m₁, cx₁, shifted, on₁, at₁⟩ := at_.own_shift fn on
          obtain ⟨m₂, read, at₂⟩ := at₁.own_read fn
          rw [got] at at₂
          have countEq₁ : argCount = argNoopt + 1 + left.length := by
            rw [countEq, List.length_cons]
            omega
          obtain ⟨m', cx', others, on', at'⟩ := ih at₂ on₁ typed countEq₁
          exact ⟨m', cx', (shifted.trans read).trans others, on', at'⟩

/-- With arguments of the right types and number the C function goes on with their
values, and nothing is left in its frame. -/
theorem At.own_aklGetArgsStrict (fn : FRef) {types : List ArgType} (some_ : types ≠ [])
    {values : ArgType.Values types} {k : Option (ArgType.Values types) → CProg}
    (at_ : m.At funs d (cells ++ left) (.cfun cx (aklGetArgsStrict left.length types k) :: rest))
    (on : FrameOn cx.cxFrame left) (typed : TypedAs d types (left.map Prod.snd) values) :
    ∃ m' cx', Trace fn rest m [] m' ∧ FrameOn cx'.cxFrame ([] : List (Cell VRef)) ∧
      m'.At funs d cells (.cfun cx' (k (some values)) :: rest) := by
  rw [aklGetArgsStrict, if_neg some_] at at_
  exact at_.own_getArgsStrictLoop fn on typed (Nat.zero_add _).symm

end Machine

end AkLisp
