import AkLisp.State.SymbolTrees

/-!
# Declaring the library

`akl_declare_functions` makes a function for every entry of a table, up to the first one
without a name or a C function, and stores it under its name.  `akl_init_library` does so
for the tables of the interpreter.
-/

namespace AkLisp

open Ordered

/-- `enum AKL_FUNCTION_TYPE` -/
inductive AklFunctionType where
  | cfun
  | special
  | noeval
  | user
  | lambda
  deriving DecidableEq

/-- `struct akl_fun_decl`; the C functions are pointers of any kind. -/
structure AklFunDecl (φ : Type) where
  fdType : AklFunctionType
  fdFun : Option φ
  fdName : Option Name
  fdDesc : Option (List Chr)

/-- `struct akl_function` of a C function; the type is not set by `akl_new_function`. -/
structure NativeFunction (φ : Type) where
  fnType : Option AklFunctionType
  fnBody : Option φ
  deriving DecidableEq

/-- What the declaration of functions works on. -/
structure LibraryState (φ : Type) where
  funs : List (NativeFunction φ)
  data : Data
  tables : Tables rbImpl

namespace LibraryState

variable {φ : Type}

/-- After `akl_init_state`. -/
def init : LibraryState φ := ⟨[], Data.init, Tables.init rbImpl⟩

/-- `akl_add_global_function` with `akl_new_function` and `akl_new_function_value` -/
def aklAddGlobalFunction (st : LibraryState φ) (name : Name) (desc : Option (List Chr)) :
    FRef × LibraryState φ :=
  let f := st.funs.length
  let (vf, data) := st.data.newFunctionValue f
  let (_, tables) := st.tables.aklSetGlobalVariable name true desc true vf
  (f, ⟨st.funs ++ [⟨none, none⟩], data, tables⟩)

/-- Set the type and the C function of a function. -/
def setFunction (st : LibraryState φ) (f : FRef) (fnType : AklFunctionType) (fn : φ) :
    LibraryState φ :=
  { st with funs := st.funs.set f ⟨some fnType, some fn⟩ }

/-- `akl_add_global_cfun` -/
def aklAddGlobalCfun (st : LibraryState φ) (fn : φ) (name : Name) (desc : Option (List Chr)) :
    LibraryState φ :=
  let (f, st) := st.aklAddGlobalFunction name desc
  st.setFunction f .cfun fn

/-- `akl_add_global_sfun` -/
def aklAddGlobalSfun (st : LibraryState φ) (fn : φ) (name : Name) (desc : Option (List Chr)) :
    LibraryState φ :=
  let (f, st) := st.aklAddGlobalFunction name desc
  st.setFunction f .special fn

/-- `akl_declare_functions`.  Nothing tells the end of a table but an entry without a C
function or without a name. -/
def aklDeclareFunctions : List (AklFunDecl φ) → LibraryState φ → Option (LibraryState φ)
  | [], _ => none
  | decl :: funs, st =>
      match decl.fdFun, decl.fdName with
      | some fn, some name =>
          match decl.fdType with
          | .cfun => aklDeclareFunctions funs (st.aklAddGlobalCfun fn name decl.fdDesc)
          | .special => aklDeclareFunctions funs (st.aklAddGlobalSfun fn name decl.fdDesc)
          | _ => aklDeclareFunctions funs st
      | _, _ => some st

/-- The function that the variable of this name holds. -/
def functionNamed (st : LibraryState φ) (name : Name) : Option (NativeFunction φ) := do
  let v ← st.tables.valueOf (st.tables.aklGetGlobalVariable name)
  let value ← st.data.values[v]?
  match value.payload with
  | .function f => st.funs[f]?
  | _ => none

end LibraryState

/-- The C functions of the library. -/
inductive LibFun where
  | inc | dec | plus | minus | mul | ddiv | idiv | mod | neq | eq | gt | lt | gteq | lteq | not
  | and | or | iszero | isnil | isnumber | isstring | islist | issymbol | tonumber | toint
  | tostr | list | length | lsIndex | lsHead | lsTail | lsLast | lsAppend | lsInsert | split
  | range | progn | aklCfg | describe | map | mapIndex | foldl | times | timesIndex | exit
  | dumpStack | clearStack | disassemble | hello | writeTimes | about | dumpVars | printSymbolPtr
  | print | display | write | readNumber | readString | load | getdatetime | gettime
  | special (form : SForm)
  deriving DecidableEq

instance : DecidablePred IsStringChar := fun ch =>
  inferInstanceAs (Decidable (ch ≠ 0 ∧ -128 ≤ ch ∧ ch < 128))

/-- A name of the source. -/
def literalName (text : String) : Option Name :=
  if chars : ∀ ch ∈ text.toList.map code, IsStringChar ch then some ⟨_, chars⟩ else none

/-- `AKL_FUN` -/
def aklFun (cfun : LibFun) (name desc : String) : AklFunDecl LibFun :=
  ⟨.cfun, some cfun, literalName name, some (desc.toList.map code)⟩

/-- `AKL_SFUN` -/
def aklSfun (scfun : LibFun) (name desc : String) : AklFunDecl LibFun :=
  ⟨.special, some scfun, literalName name, some (desc.toList.map code)⟩

/-- `AKL_END_FUNS` -/
def aklEndFuns : AklFunDecl LibFun := ⟨.cfun, none, none, none⟩

/-- `akl_basic_funs` -/
def aklBasicFuns : List (AklFunDecl LibFun) := [
  aklFun .inc "++" "Increment a number by one",
  aklFun .dec "--" "Decrement a number by one",
  aklFun .plus "+" "Arithmetic addition",
  aklFun .minus "-" "Arithmetic substraction",
  aklFun .mul "*" "Arithmetic product",
  aklFun .ddiv "/" "Arithmetic division",
  aklFun .idiv "div" "Integer division",
  aklFun .mod "mod" "Integeral modulus",
  aklFun .mod "%" "Integeral modulus",
  aklFun .neq "!=" "Compare to values for inequality",
  aklFun .eq "=" "Compare to values for equality",
  aklFun .gt ">" "Greater compare function",
  aklFun .lt "<" "Lesser than",
  aklFun .gteq ">=" "Greater than or equal",
  aklFun .lteq "<=" "Less or equal than",
  aklFun .not "not" "Logical not",
  aklFun .and "and" "Logical and",
  aklFun .or "or" "Logical or",
  aklFun .iszero "zero?" "Gives true if the parameter is zero, nil otherwise",
  aklFun .isnil "nil?" "Gives true if the parameter is nil",
  aklFun .isnumber "number?" "Gives true if the parameter is a number",
  aklFun .isstring "string?" "Gives true if the parameter is a string",
  aklFun .islist "list?" "Gives true if the parameter is a list",
  aklFun .issymbol "symbol?" "Gives true if the parameter is a symbol",
  aklFun .tonumber "number" "Converts values to a floating point number",
  aklFun .toint "int" "Converts values to an integer number",
  aklFun .tostr "string" "Converts values to a string",
  aklFun .list "list" "Create a list from the given arguments",
  aklFun .length "length" "Get the length of a string or the element count for a list",
  aklFun .lsIndex "index" "Index a list or a string",
  aklFun .lsHead "head" "Get the first element of a list or the first character of a string",
  aklFun .lsHead "first" "Get the first element of a list or the first character of a string",
  aklFun .lsHead "car" "Get the first element of a list or the first character of a string",
  aklFun .lsTail "cdr"
    "Get the remaining elements or characters of a list or string (everything after head)",
  aklFun .lsTail "tail"
    "Get the remaining elements or characters of a list or string (everything after head)",
  aklFun .lsLast "last" "Get the last element of a list or the last character of a string",
  aklFun .lsAppend "append!" "Add an element to the end of a list or string",
  aklFun .lsInsert "insert!" "Insert an element to the start of the list or a string",
  aklFun .split "split" "Split a string by a delimiter (default is space) into a list",
  aklFun .range "range" "Make a list of numbers from a range",
  aklFun .progn "$" "Evaulate all elements and give back the last (primitive sequence)",
  aklFun .aklCfg "akl-cfg!" "Set/unset interpreter features",
  aklFun .describe "describe" "Get a global atom help string",
  aklFun .map "map" "Call a function on list elements",
  aklFun .mapIndex "map-index"
    "Call a function on list with the elements' index (from 0) and the elements themselves",
  aklFun .foldl "foldl" "Fold a list from left",
  aklFun .foldl "fold" "Fold a list from left",
  aklFun .times "times" "Call a function n times",
  aklFun .timesIndex "times-index"
    "Call a function n times (also passing the index to the function)",
  aklFun .exit "exit!" "Exit",
  aklEndFuns]

/-- `akl_debug_funs` -/
def aklDebugFuns : List (AklFunDecl LibFun) := [
  aklFun .dumpStack "dump-stack" "Dump the stack contents",
  aklFun .clearStack "clear-stack" "Clear the current stack",
  aklFun .disassemble "disassemble" "Disassemble a given function",
  aklFun .hello "hello" "Hello function",
  aklFun .writeTimes "write-times" "Write a string out n times",
  aklFun .about "about" "Informations about the interpreter",
  aklFun .dumpVars "dump-vars" "Display all global variables (with symbol pointers",
  aklFun .printSymbolPtr "print-symbol-ptr" "Display the symbol's internal pointer",
  aklEndFuns]

/-- `akl_io_funs` -/
def aklIoFuns : List (AklFunDecl LibFun) := [
  aklFun .print "print" "Print a value in Lisp form",
  aklFun .display "display" "Display a value without formatting (with newline)",
  aklFun .write "write" "Display a value without formatting (without newline)",
  aklFun .readNumber "read-number" "Read a number from the standard input",
  aklFun .readString "read-string" "Read a string from the standard input",
  aklFun .readString "getline" "Read a string from the standard input",
  aklEndFuns]

/-- `akl_sys_funs` -/
def aklSysFuns : List (AklFunDecl LibFun) := [
  aklFun .getdatetime "get-date-time" <|
    "Get the current date and time in a list with the elements: '(year month[0-11] " ++
      "day[1-31] day-of-the-week[:monday, :thuesday, ...] hour[0-23] min[0-59] sec[0-60])",
  aklFun .gettime "get-time"
    "Current time in a list, in the order of: '(hour[0-23] min[0-59] sec[0-60])",
  aklEndFuns]

/-- `akl_module_funs` -/
def aklModuleFuns : List (AklFunDecl LibFun) := [
  aklFun .load "load" "Load a file or module",
  aklEndFuns]

/-- `akl_spec_forms` -/
def aklSpecForms : List (AklFunDecl LibFun) := [
  aklSfun (.special .sif) "if" "Conditional expression",
  aklSfun (.special .lambda) "lambda" "Define a lambda function",
  aklSfun (.special .lambda) "->" "Define a lambda function",
  aklSfun (.special .when) "when" "Conditionally evaluate an expression",
  aklSfun (.special .swhile) "while" "Conditional loop expression",
  aklSfun (.special .defun) "defun!" "Define a new function",
  aklSfun (.special .set) "set!" "Define a new global variable",
  aklEndFuns]

/-- An entry of a table that is declared. -/
structure Declaration (φ : Type) where
  fdType : AklFunctionType
  fn : φ
  name : Name

/-- The function that is made for an entry. -/
def Declaration.function {φ : Type} (d : Declaration φ) : NativeFunction φ :=
  ⟨some d.fdType, some d.fn⟩

/-- The entries up to the end of a table that functions are made for. -/
def declared {φ : Type} : List (AklFunDecl φ) → List (Declaration φ)
  | [] => []
  | decl :: funs =>
      match decl.fdFun, decl.fdName with
      | some fn, some name =>
          match decl.fdType with
          | .cfun => ⟨.cfun, fn, name⟩ :: declared funs
          | .special => ⟨.special, fn, name⟩ :: declared funs
          | _ => declared funs
      | _, _ => []

/-- `akl_init_library`; the flags are `AKL_LIB_BASIC`, `AKL_LIB_SYSTEM` and
`AKL_LIB_FILE`. -/
def aklInitLibrary (st : LibraryState LibFun) (flags : Nat) : Option (LibraryState LibFun) := do
  let st ← (if flags &&& 0x001 ≠ 0 then LibraryState.aklDeclareFunctions aklBasicFuns st
    else some st)
  let st ← LibraryState.aklDeclareFunctions aklDebugFuns st
  let st ← (if flags &&& 0x200 ≠ 0 then LibraryState.aklDeclareFunctions aklIoFuns st
    else some st)
  let st ← (if flags &&& 0x020 ≠ 0 then
      (LibraryState.aklDeclareFunctions aklModuleFuns st).bind
        (LibraryState.aklDeclareFunctions aklSysFuns)
    else some st)
  LibraryState.aklDeclareFunctions aklSpecForms st

/-- The functions that the library declares. -/
def libraryDecls (flags : Nat) : List (Declaration LibFun) :=
  (if flags &&& 0x001 ≠ 0 then declared aklBasicFuns else []) ++ declared aklDebugFuns ++
    (if flags &&& 0x200 ≠ 0 then declared aklIoFuns else []) ++
    (if flags &&& 0x020 ≠ 0 then declared aklModuleFuns ++ declared aklSysFuns else []) ++
    declared aklSpecForms

/-! ### Declarations one after the other -/

/-- The value stored last was stored by a call. -/
theorem lastStored_mem {x : Symbol} {v : VRef} {calls : List Call}
    (last : lastStored x calls = some v) : ∃ call ∈ calls, call.op.stored = some v := by
  induction calls with
  | nil => cases last
  | cons call calls ih =>
      rw [lastStored] at last
      split at last
      · cases stored : call.op.stored with
        | some w =>
            rw [stored, Option.some_or] at last
            exact ⟨call, List.mem_cons_self, stored.trans last⟩
        | none =>
            rw [stored, Option.none_or] at last
            obtain ⟨earlier, mem, eq⟩ := ih last
            exact ⟨earlier, List.mem_cons_of_mem call mem, eq⟩
      · obtain ⟨earlier, mem, eq⟩ := ih last
        exact ⟨earlier, List.mem_cons_of_mem call mem, eq⟩

namespace LibraryState

variable {φ : Type} {st : LibraryState φ} {calls : List Call}

/-- The tables are those of a run, and what is stored and what function values refer to
was allocated. -/
structure Inv (st : LibraryState φ) (calls : List Call) : Prop where
  run : Run rbImpl calls st.tables
  stored : ∀ call ∈ calls, ∀ v, call.op.stored = some v → v < st.data.values.length
  allocated : ∀ value ∈ st.data.values, ∀ f, value.payload = .function f → f < st.funs.length

theorem inv_init : (init : LibraryState φ).Inv [] where
  run := .init
  stored call mem := by cases mem
  allocated value mem f payload := by
    simp only [init, Data.init, List.mem_cons, List.not_mem_nil, or_false] at mem
    rcases mem with rfl | rfl
    · cases payload
    · cases payload

/-- One declaration. -/
def declare (st : LibraryState φ) (d : Declaration φ) (desc : Option (List Chr)) :
    LibraryState φ :=
  let (f, st) := st.aklAddGlobalFunction d.name desc
  st.setFunction f d.fdType d.fn

/-- What a name leads to after some declarations: to the last of them for this name, or
else to what it led to before. -/
structure Declares (st st' : LibraryState φ) (ds : List (Declaration φ)) : Prop where
  inv : ∃ calls, st'.Inv calls
  named : ∀ n : Name, st'.functionNamed n =
    ((ds.reverse.find? fun d => d.name.symbol = n.symbol).map Declaration.function).or
      (st.functionNamed n)
  others : ∀ n : Name, (∀ d ∈ ds, d.name.symbol ≠ n.symbol) →
    st'.tables.valueOf (st'.tables.aklGetGlobalVariable n) =
      st.tables.valueOf (st.tables.aklGetGlobalVariable n)

theorem Inv.declares_nil (inv : st.Inv calls) : Declares st st [] :=
  ⟨⟨calls, inv⟩, fun _ => rfl, fun _ _ => rfl⟩

theorem Declares.trans {st₁ st₂ : LibraryState φ} {ds es : List (Declaration φ)}
    (first : Declares st st₁ ds) (second : Declares st₁ st₂ es) : Declares st st₂ (ds ++ es) where
  inv := second.inv
  named n := by
    rw [second.named, first.named, List.reverse_append, List.find?_append, Option.map_or,
      Option.or_assoc]
  others n apart := by
    rw [second.others n fun d mem => apart d (List.mem_append_right ds mem),
      first.others n fun d mem => apart d (List.mem_append_left es mem)]

theorem Inv.declare (inv : st.Inv calls) (d : Declaration φ) (desc : Option (List Chr)) :
    Declares st (st.declare d desc) [d] := by
  obtain ⟨op, opEq⟩ : ∃ op, op = TableOp.setGlobalVariable d.name true desc true
    st.data.values.length := ⟨_, rfl⟩
  have tablesEq : (st.declare d desc).tables = (st.tables.step op).2 := by
    rw [opEq]
    rfl
  have valuesEq : (st.declare d desc).data.values =
      st.data.values ++ [⟨.function st.funs.length, false, false⟩] := rfl
  have funsEq : (st.declare d desc).funs = st.funs ++ [d.function] := by
    simp [LibraryState.declare, setFunction, aklAddGlobalFunction, Declaration.function]
  have run' : Run rbImpl (⟨op, d.name.symbol, (st.tables.step op).1⟩ :: calls)
      (st.declare d desc).tables := by
    rw [tablesEq]
    have stepped := inv.run.step op (by rw [opEq]; trivial)
    rwa [show st.tables.keyOf op = d.name.symbol by rw [opEq]; rfl] at stepped
  have inv' : (st.declare d desc).Inv (⟨op, d.name.symbol, (st.tables.step op).1⟩ :: calls) := by
    refine ⟨run', ?_, ?_⟩
    · intro call mem v stored
      rw [valuesEq, List.length_append, List.length_singleton]
      rcases List.mem_cons.mp mem with rfl | mem
      · rw [opEq] at stored
        cases stored
        exact Nat.lt_succ_self _
      · exact Nat.lt_succ_of_lt (inv.stored call mem v stored)
    · intro value mem f payload
      rw [funsEq, List.length_append, List.length_singleton]
      rw [valuesEq] at mem
      rcases List.mem_append.mp mem with mem | mem
      · exact Nat.lt_succ_of_lt (inv.allocated value mem f payload)
      · rw [List.mem_singleton.mp mem] at payload
        cases payload
        exact Nat.lt_succ_self _
  have lookup : ∀ n : Name, (st.declare d desc).tables.valueOf
      ((st.declare d desc).tables.aklGetGlobalVariable n) =
      if d.name.symbol = n.symbol then some st.data.values.length
      else st.tables.valueOf (st.tables.aklGetGlobalVariable n) := by
    intro n
    rw [(Tables.lookup_of_run run' n).1, (Tables.lookup_of_run inv.run n).1, lastStored, opEq]
    rfl
  refine ⟨⟨_, inv'⟩, ?_, ?_⟩
  · intro n
    rw [functionNamed, lookup]
    by_cases same : d.name.symbol = n.symbol
    · simp [same, valuesEq, funsEq]
    · -- what the name led to was allocated before
      simp only [same, if_false, List.reverse_singleton, List.find?_singleton, decide_false,
        Option.map_none, Option.none_or, functionNamed, Bool.false_eq_true]
      cases value : st.tables.valueOf (st.tables.aklGetGlobalVariable n) with
      | none => rfl
      | some v =>
          rw [(Tables.lookup_of_run inv.run n).1] at value
          obtain ⟨call, mem, stored⟩ := lastStored_mem value
          have bound := inv.stored call mem v stored
          have atV := List.getElem?_eq_getElem bound
          simp only [Option.bind_eq_bind, Option.bind_some, valuesEq,
            List.getElem?_append_left bound, atV, funsEq]
          cases payload : st.data.values[v].payload with
          | function f =>
              have allocated := inv.allocated _ (List.getElem_mem bound) f payload
              exact List.getElem?_append_left allocated
          | _ => rfl
  · intro n apart
    rw [lookup, if_neg (apart d List.mem_cons_self)]

/-- A table up to its end. -/
theorem Inv.aklDeclareFunctions {decls : List (AklFunDecl φ)} (inv : st.Inv calls)
    (ends : ∃ decl ∈ decls, decl.fdFun = none ∨ decl.fdName = none) :
    ∃ st', aklDeclareFunctions decls st = some st' ∧ Declares st st' (declared decls) := by
  induction decls generalizing st calls with
  | nil =>
      obtain ⟨decl, mem, -⟩ := ends
      cases mem
  | cons decl decls ih =>
      rw [LibraryState.aklDeclareFunctions, declared]
      cases fdFun : decl.fdFun with
      | none => exact ⟨st, rfl, inv.declares_nil⟩
      | some fn =>
          cases fdName : decl.fdName with
          | none => exact ⟨st, rfl, inv.declares_nil⟩
          | some name =>
              have rest : ∃ decl ∈ decls, decl.fdFun = none ∨ decl.fdName = none := by
                obtain ⟨last, mem, empty⟩ := ends
                rcases List.mem_cons.mp mem with rfl | mem
                · rw [fdFun, fdName] at empty
                  rcases empty with absent | absent <;> cases absent
                · exact ⟨last, mem, empty⟩
              have declareOne : ∀ fdType, ∃ st', AkLisp.LibraryState.aklDeclareFunctions decls
                  (st.declare ⟨fdType, fn, name⟩ decl.fdDesc) = some st' ∧
                  Declares st st' (⟨fdType, fn, name⟩ :: declared decls) := by
                intro fdType
                have first := inv.declare ⟨fdType, fn, name⟩ decl.fdDesc
                obtain ⟨calls', inv'⟩ := first.inv
                obtain ⟨st', ran, others⟩ := ih inv' rest
                exact ⟨st', ran, first.trans others⟩
              cases decl.fdType with
              | cfun => exact declareOne .cfun
              | special => exact declareOne .special
              | noeval => exact ih inv rest
              | user => exact ih inv rest
              | lambda => exact ih inv rest

/-- The declarations of a table: afterwards every name leads, without regard to case, to the
C function of the last entry that is declared under it, and the variables of other names
have kept their values. -/
theorem declare_functions {decls : List (AklFunDecl φ)} (inv : st.Inv calls)
    (ends : ∃ decl ∈ decls, decl.fdFun = none ∨ decl.fdName = none) :
    ∃ st', LibraryState.aklDeclareFunctions decls st = some st' ∧ (∃ calls', st'.Inv calls') ∧
      ∀ n : Name,
        (∀ before d after, declared decls = before ++ d :: after → d.name.symbol = n.symbol →
          (∀ e ∈ after, e.name.symbol ≠ n.symbol) → st'.functionNamed n = some d.function) ∧
        ((∀ d ∈ declared decls, d.name.symbol ≠ n.symbol) →
          st'.functionNamed n = st.functionNamed n ∧
            st'.tables.valueOf (st'.tables.aklGetGlobalVariable n) =
              st.tables.valueOf (st.tables.aklGetGlobalVariable n)) := by
  obtain ⟨st', ran, declares⟩ := inv.aklDeclareFunctions ends
  refine ⟨st', ran, declares.inv, fun n => ⟨?_, ?_⟩⟩
  · intro before d after parts same last
    have found : (declared decls).reverse.find? (fun d => d.name.symbol = n.symbol) = some d := by
      rw [parts, List.reverse_append, List.reverse_cons, List.append_assoc, List.find?_append,
        List.find?_eq_none.mpr (by simpa using last)]
      simp [same]
    rw [declares.named, found]
    rfl
  · intro apart
    refine ⟨?_, declares.others n apart⟩
    rw [declares.named, List.find?_eq_none.mpr (by simpa using apart)]
    rfl

theorem declare_functions_init :
    ∃ st' : LibraryState LibFun, LibraryState.aklDeclareFunctions aklSpecForms init = some st' ∧
      ∃ calls', st'.Inv calls' := by
  obtain ⟨st', ran, inv, -⟩ := declare_functions inv_init
    (show ∃ decl ∈ aklSpecForms, decl.fdFun = none ∨ decl.fdName = none from
      ⟨aklEndFuns, by simp [aklSpecForms], Or.inl rfl⟩)
  exact ⟨st', ran, inv⟩

end LibraryState

/-! ### The library -/

/-- All tables of the library end. -/
theorem library_ends : ∀ decls ∈ [aklBasicFuns, aklDebugFuns, aklIoFuns, aklSysFuns,
    aklModuleFuns, aklSpecForms], ∃ decl ∈ decls, decl.fdFun = none ∨ decl.fdName = none := by
  intro decls mem
  refine ⟨aklEndFuns, ?_, Or.inl rfl⟩
  simp only [List.mem_cons, List.not_mem_nil, or_false] at mem
  rcases mem with rfl | rfl | rfl | rfl | rfl | rfl <;>
    simp [aklBasicFuns, aklDebugFuns, aklIoFuns, aklSysFuns, aklModuleFuns, aklSpecForms]

/-- No two functions of the library have one name. -/
theorem libraryDecls_nodup :
    ((libraryDecls 0x3ff).map fun d => d.name.symbol.sbName).Nodup := by
  decide +kernel

theorem libraryDecls_sublist (flags : Nat) : (libraryDecls flags).Sublist (libraryDecls 0x3ff) := by
  have part : ∀ (c : Prop) [Decidable c] (ds : List (Declaration LibFun)),
      (if c then ds else []).Sublist ds := by
    intro c inst ds
    split
    · exact List.Sublist.refl ds
    · exact List.nil_sublist ds
  exact ((((part _ _).append (List.Sublist.refl _)).append (part _ _)).append (part _ _)).append
    (List.Sublist.refl _)

/-- A table that is declared if a flag is set. -/
theorem LibraryState.Inv.declareIf {st : LibraryState LibFun} {calls : List Call}
    (inv : st.Inv calls) (c : Prop) [Decidable c] {f : Option (LibraryState LibFun)}
    {ds : List (Declaration LibFun)} (declares : ∃ st', f = some st' ∧ Declares st st' ds) :
    ∃ st', (if c then f else some st) = some st' ∧ Declares st st' (if c then ds else []) := by
  obtain ⟨st', ran, declares⟩ := declares
  by_cases set : c
  · exact ⟨st', by rw [if_pos set, ran], by rwa [if_pos set]⟩
  · exact ⟨st, by rw [if_neg set], by rw [if_neg set]; exact inv.declares_nil⟩

/-- `akl_init_library` declares the functions of the tables that the flags ask for. -/
theorem aklInitLibrary_declares {st : LibraryState LibFun} {calls : List Call}
    (inv : st.Inv calls) (flags : Nat) :
    ∃ st', aklInitLibrary st flags = some st' ∧
      LibraryState.Declares st st' (libraryDecls flags) := by
  have ends := library_ends
  simp only [List.mem_cons, List.not_mem_nil, or_false, forall_eq_or_imp, forall_eq] at ends
  obtain ⟨basicEnds, debugEnds, ioEnds, sysEnds, moduleEnds, specEnds⟩ := ends
  obtain ⟨st₁, ran₁, declares₁⟩ :=
    inv.declareIf (flags &&& 0x001 ≠ 0) (inv.aklDeclareFunctions basicEnds)
  obtain ⟨calls₁, inv₁⟩ := declares₁.inv
  obtain ⟨st₂, ran₂, declares₂⟩ := inv₁.aklDeclareFunctions debugEnds
  obtain ⟨calls₂, inv₂⟩ := declares₂.inv
  obtain ⟨st₃, ran₃, declares₃⟩ :=
    inv₂.declareIf (flags &&& 0x200 ≠ 0) (inv₂.aklDeclareFunctions ioEnds)
  obtain ⟨calls₃, inv₃⟩ := declares₃.inv
  obtain ⟨stM, ranM, declaresM⟩ := inv₃.aklDeclareFunctions moduleEnds
  obtain ⟨callsM, invM⟩ := declaresM.inv
  obtain ⟨stS, ranS, declaresS⟩ := invM.aklDeclareFunctions sysEnds
  have system : (LibraryState.aklDeclareFunctions aklModuleFuns st₃).bind
      (LibraryState.aklDeclareFunctions aklSysFuns) = some stS := by
    rw [ranM]
    exact ranS
  obtain ⟨st₄, ran₄, declares₄⟩ :=
    inv₃.declareIf (flags &&& 0x020 ≠ 0) ⟨stS, system, declaresM.trans declaresS⟩
  obtain ⟨calls₄, inv₄⟩ := declares₄.inv
  obtain ⟨st₅, ran₅, declares₅⟩ := inv₄.aklDeclareFunctions specEnds
  refine ⟨st₅, ?_, (((declares₁.trans declares₂).trans declares₃).trans declares₄).trans
    declares₅⟩
  rw [aklInitLibrary, ran₁, Option.bind_eq_bind, Option.bind_some, ran₂, Option.bind_some, ran₃,
    Option.bind_some, ran₄, Option.bind_some, ran₅]

/-- After `akl_init_library` on a new state every function of the library is found under its
own name in any case, and no other name is defined. -/
theorem init_library (flags : Nat) :
    ∃ st, aklInitLibrary LibraryState.init flags = some st ∧
      (∀ d ∈ libraryDecls flags, ∀ n : Name, n.symbol = d.name.symbol →
        st.functionNamed n = some d.function) ∧
      ∀ n : Name, (∀ d ∈ libraryDecls flags, n.symbol ≠ d.name.symbol) →
        st.tables.aklGetGlobalVariable n = none := by
  obtain ⟨st, ran, declares⟩ := aklInitLibrary_declares LibraryState.inv_init flags
  refine ⟨st, ran, ?_, ?_⟩
  · intro d mem n same
    have nodup : ((libraryDecls flags).map fun d => d.name.symbol.sbName).Nodup :=
      libraryDecls_nodup.sublist ((libraryDecls_sublist flags).map _)
    have found : (libraryDecls flags).reverse.find? (fun d => d.name.symbol = n.symbol) =
        some d := by
      obtain ⟨before, after, parts⟩ := List.append_of_mem mem
      rw [parts, List.map_append, List.nodup_append, List.map_cons, List.nodup_cons] at nodup
      have last : ∀ e ∈ after, e.name.symbol ≠ n.symbol := by
        intro e memE equal
        apply nodup.2.1.1
        rw [← same, ← equal]
        exact List.mem_map.mpr ⟨e, memE, rfl⟩
      rw [parts, List.reverse_append, List.reverse_cons, List.append_assoc, List.find?_append,
        List.find?_eq_none.mpr (by simpa using last)]
      simp [same]
    rw [declares.named, found]
    rfl
  · intro n apart
    obtain ⟨calls, inv⟩ := declares.inv
    have empty := declares.others n fun d mem equal => apart d mem equal.symm
    have lookup := Tables.lookup_of_run inv.run n
    rw [lookup.2, ← lookup.1, empty]
    exact (Tables.lookup_of_run .init n).1

end AkLisp
