import AkLisp.List.CallProtocol
import AkLisp.State.Code

/-!
# Values with their string buffers

A string value points to a buffer, and two values may point to one.  A buffer that is
freed cannot be read any more.  Some buffers are borrowed: `describe` makes a string of
the description of a variable, which is a literal of the C code or belongs to the
variable, and the words of the command line are strings, too.  The store has values of
all types; symbols, variables and functions are outside of it.
-/

namespace AkLisp

open Linked

/-- Pointer to the characters of a string. -/
abbrev BufRef := Nat

/-- What goes wrong when a store is used. -/
inductive StoreFault where
  /-- a pointer to nothing is dereferenced -/
  | wild
  /-- a buffer that was freed is read -/
  | dangling
  /-- a buffer that is borrowed is freed: `free` aborts, or its owner loses it -/
  | notOwned
  /-- an `assert` fails -/
  | assertion
  /-- the bound on the recursion given to the model is too small -/
  | outOfFuel
  deriving DecidableEq, Repr

/-- `va_type` together with `va_value`.  A variable is a symbol; of user data the
identifier of its type and the private pointer are kept. -/
inductive Member where
  | nil
  | true
  | symbol (symbol : Symbol)
  | ofVariable (symbol : Symbol)
  | number (number : ℚ)
  | string (string : BufRef)
  | list (list : LRef)
  | function (func : FRef)
  | userdata (udId udPrivate : Nat)
  deriving DecidableEq

/-- `struct akl_value` -/
structure StoreValue where
  member : Member
  isQuoted : Bool
  isNil : Bool
  deriving DecidableEq

/-- The values, the buffers of strings, the entries of lists and their headers; `none` is
a buffer that was freed, and the buffers `borrowed` belong to no value. -/
structure ValueStore where
  values : List StoreValue
  strings : List (Option (List Chr))
  borrowed : List BufRef
  entries : Mem VRef
  lists : List AklList

namespace ValueStore

/-- Only the two static values exist. -/
def init : ValueStore := ⟨[⟨.nil, false, true⟩, ⟨.true, false, false⟩], [], [], default, []⟩

/-- What a pointer to a value points to. -/
def member (st : ValueStore) (v : VRef) : Option Member := st.values[v]?.map StoreValue.member

/-- The characters of a buffer. -/
def read (st : ValueStore) (b : BufRef) : Except StoreFault (List Chr) :=
  match st.strings[b]? with
  | some (some text) => return text
  | some none => throw .dangling
  | none => throw .wild

/-- The characters of a string value. -/
def text (st : ValueStore) (v : VRef) : Option (List Chr) :=
  match st.member v with
  | some (.string b) => st.strings[b]?.join
  | _ => none

/-- `akl_new_value` with its type and its member filled in. -/
def newValue (st : ValueStore) (member : Member) : VRef × ValueStore :=
  (st.values.length, { st with values := st.values ++ [⟨member, false, false⟩] })

/-- `akl_new_list` -/
def newList (st : ValueStore) : LRef × ValueStore :=
  (st.lists.length, { st with lists := st.lists ++ [aklInitList] })

/-- A header of a list that is there. -/
def list (st : ValueStore) (l : LRef) : AklList := st.lists.getD l aklInitList

/-- `akl_list_append`; `akl_list_append_value` also sets a flag for the garbage
collector. -/
def listAppend (st : ValueStore) (l : LRef) (v : Option VRef) : ValueStore :=
  let (_, entries, list) := aklListAppend st.entries (st.list l) v
  { st with entries, lists := st.lists.set l list }

/-- `akl_list_insert_head`, `akl_list_insert_head_value` -/
def listInsertHead (st : ValueStore) (l : LRef) (v : Option VRef) : ValueStore :=
  let (_, entries, list) := aklListInsertHead st.entries (st.list l) v
  { st with entries, lists := st.lists.set l list }

/-- `va_value.string` of `v` becomes a new buffer with the characters of two buffers, and
`akl_free` gets the buffer `old`. -/
def replaceString (st : ValueStore) (v : VRef) (first second old : BufRef) :
    Except StoreFault ValueStore := do
  let front ← st.read first
  let behind ← st.read second
  if old ∈ st.borrowed then throw .notOwned
  let ns := st.strings.length
  return { st with
    strings := (st.strings ++ [some (front ++ behind)]).set old none
    values := st.values.modify v fun value => { value with member := .string ns } }

end ValueStore

/-- A C function during its call, with the parts of the interpreter it works on. -/
structure StoreCall where
  cxFrame : AklList
  stack : StackState VRef
  store : ValueStore
  errors : List AklError

namespace StoreCall

/-- `akl_frame_shift` -/
def aklFrameShift (ctx : StoreCall) : Option VRef × StoreCall :=
  let (v, stack, cxFrame) := AkLisp.aklFrameShift ctx.stack ctx.cxFrame
  (v, { ctx with stack, cxFrame })

/-- `akl_raise_error` with an error; `errors` is the log of its calls. -/
def aklRaiseError (ctx : StoreCall) (message : String) : StoreCall :=
  { ctx with errors := ctx.errors ++ [⟨.error, message⟩] }

/-- The frame covers entries with these values. -/
def On (ctx : StoreCall) (args : List VRef) : Prop :=
  ∃ below cells above, Covers ctx.stack ctx.cxFrame below cells above ∧ cells.map Prod.snd = args

/-- The two states differ in the stack and the frame only. -/
structure SameButFrame (ctx ctx' : StoreCall) : Prop where
  store : ctx'.store = ctx.store
  errors : ctx'.errors = ctx.errors

theorem On.shift {ctx : StoreCall} {v : VRef} {args : List VRef} (on : ctx.On (v :: args)) :
    ∃ ctx', ctx.aklFrameShift = (some v, ctx') ∧ ctx'.On args ∧ ctx.SameButFrame ctx' := by
  obtain ⟨below, cells, above, covers, valuesEq⟩ := on
  cases cells with
  | nil => cases valuesEq
  | cons cell cells =>
      cases valuesEq
      obtain ⟨stack, cxFrame, shiftEq, covers'⟩ := covers.shift
      refine ⟨{ ctx with stack, cxFrame }, ?_, ⟨below, cells, above, covers', rfl⟩, rfl, rfl⟩
      simp only [aklFrameShift, shiftEq]

/-- Two arguments, one after the other. -/
theorem On.shift_two {ctx : StoreCall} {x v : VRef} (on : ctx.On [x, v]) :
    ∃ ctx₁ ctx₂, ctx.aklFrameShift = (some x, ctx₁) ∧ ctx₁.aklFrameShift = (some v, ctx₂) ∧
      ctx.SameButFrame ctx₂ := by
  obtain ⟨ctx₁, shifted, on₁, same₁⟩ := on.shift
  obtain ⟨ctx₂, shifted', -, same₂⟩ := on₁.shift
  exact ⟨ctx₁, ctx₂, shifted, shifted', same₂.store.trans same₁.store,
    same₂.errors.trans same₁.errors⟩

end StoreCall

end AkLisp
