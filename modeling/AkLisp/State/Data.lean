import AkLisp.Lexer.Token
import AkLisp.List.Basic

/-!
# Values, lists and global variables

Values, list headers and function descriptors are referred to by address, as in
the source, so that two references to one value stay distinguishable from two
equal values.  Symbols exist once per name up to case.  Lexical information
and the memory management are left out.
-/

namespace AkLisp

open Linked

/-- Pointer to a `struct akl_value`. -/
abbrev VRef := Nat

/-- Pointer to a `struct akl_list` that is a Lisp list. -/
abbrev LRef := Nat

/-- Pointer to a `struct akl_function`. -/
abbrev FRef := Nat

/-- A symbol.  The symbol tree compares names with `strcasecmp` and holds one
symbol per class of names, which its lower-case name stands for. -/
structure Symbol where
  sbName : List Chr
  folded : sbName.map tolower = sbName
  deriving DecidableEq

/-- `akl_get_or_create_symbol`. -/
def aklGetOrCreateSymbol (name : List Chr) : Symbol :=
  ⟨name.map tolower, by simp [Function.comp_def]⟩

/-- The symbol named by an ASCII string. -/
def symbolOf (name : String) : Symbol :=
  aklGetOrCreateSymbol (name.toList.map code)

/-- `va_type` together with `va_value`. -/
inductive Payload where
  | nil
  | true
  | symbol (symbol : Symbol)
  | number (number : ℚ)
  | string (string : List Chr)
  | list (list : LRef)
  | function (func : FRef)
  deriving DecidableEq

/-- `struct akl_value`. -/
structure AklValue where
  payload : Payload
  isQuoted : Bool
  isNil : Bool
  deriving DecidableEq

/-- `NIL_VALUE`. -/
def nilValue : AklValue := ⟨.nil, false, true⟩

/-- `TRUE_VALUE`. -/
def trueValue : AklValue := ⟨.true, false, false⟩

/-- The objects of an interpreter that are not code: values, the entries of
Lisp lists, their headers, and the global variables. -/
structure Data where
  values : List AklValue
  entries : Mem VRef
  lists : List AklList
  globals : Symbol → Option VRef

namespace Data

/-- Before any initialisation only the two static values exist. -/
def init : Data := ⟨[nilValue, trueValue], default, [], fun _ => none⟩

instance : Inhabited Data := ⟨init⟩

/-- `AKL_NIL`. -/
def aklNil : VRef := 0

/-- `AKL_TRUE`. -/
def aklTrue : VRef := 1

/-- `akl_new_value` with its fields filled in. -/
def newValue (d : Data) (value : AklValue) : VRef × Data :=
  (d.values.length, { d with values := d.values ++ [value] })

/-- `akl_new_list`. -/
def newList (d : Data) : LRef × Data :=
  (d.lists.length, { d with lists := d.lists ++ [aklInitList] })

/-- `akl_new_nil_value`. -/
def newNilValue (d : Data) : VRef × Data := d.newValue nilValue

/-- `akl_new_function_value`. -/
def newFunctionValue (d : Data) (f : FRef) : VRef × Data :=
  d.newValue ⟨.function f, false, false⟩

/-- `akl_new_sym_value`. -/
def newSymValue (d : Data) (sym : Symbol) : VRef × Data :=
  d.newValue ⟨.symbol sym, false, false⟩

/-- Change a list header. -/
def modifyList (d : Data) (l : LRef) (f : AklList → AklList) : Data :=
  { d with lists := d.lists.modify l f }

/-- `akl_list_append_value`. -/
def listAppendValue (d : Data) (l : LRef) (v : VRef) : Data :=
  let (_, entries, list) := aklListAppend d.entries (d.lists.getD l aklInitList) (some v)
  { d with entries, lists := d.lists.set l list }

/-- `akl_set_global_var` without the documentation string. -/
def aklSetGlobalVar (d : Data) (sym : Symbol) (v : VRef) : Data :=
  { d with globals := Function.update d.globals sym (some v) }

/-- The payload a reference points to. -/
def payload (d : Data) (v : VRef) : Option Payload := d.values[v]?.map AklValue.payload

/-- `AKL_IS_NIL` on a value pointer. -/
def isNil (d : Data) (v : Option VRef) : Bool :=
  match v with
  | none => true
  | some v => (d.values[v]?.map AklValue.isNil).getD false

/-- `akl_var_is_function` and `akl_var_to_function`. -/
def function? (d : Data) (v : VRef) : Option FRef :=
  match d.payload v with
  | some (.function f) => some f
  | _ => none

@[simp] theorem newValue_fst (d : Data) (value : AklValue) :
    (d.newValue value).1 = d.values.length := rfl

@[simp] theorem newValue_globals (d : Data) (value : AklValue) :
    (d.newValue value).2.globals = d.globals := rfl

@[simp] theorem newValue_values (d : Data) (value : AklValue) :
    (d.newValue value).2.values = d.values ++ [value] := rfl

theorem newValue_payload_self (d : Data) (value : AklValue) :
    (d.newValue value).2.payload d.values.length = some value.payload := by
  simp [payload]

/-- Allocation does not change the values that exist. -/
theorem newValue_payload (d : Data) (value : AklValue) {v : VRef} {p : Payload}
    (found : d.payload v = some p) : (d.newValue value).2.payload v = some p := by
  have bound : v < d.values.length := by
    by_contra outside
    simp [payload, List.getElem?_eq_none (Nat.le_of_not_lt outside)] at found
  simpa [payload, List.getElem?_append_left bound] using found

end Data

end AkLisp
