import AkLisp.Builtins.Compare
import AkLisp.Lexer.Sound
import AkLisp.Ordered.Set

/-!
# The symbol tree and the tree of global variables

Both trees compare names with `strcasecmp`.  A new symbol is inserted under the name of
its caller, loses the name and gets it back from whoever creates it; a variable is
allocated before it is known whether there is one.  The search tree is a parameter; the
names are strings that nobody overwrites.
-/

namespace AkLisp

open Ordered

/-- A C string. -/
structure Name where
  text : List Chr
  chars : ∀ ch ∈ text, IsStringChar ch

/-- The name without regard to case. -/
def Name.folded (name : Name) : List Chr := name.text.map tolower

/-- `strcasecmp` -/
def strcasecmp (a b : List Chr) : Int := strcmp (a.map tolower) (b.map tolower)

/-- Pointer to a `struct akl_symbol`. -/
abbrev SymRef := Nat

/-- Pointer to a `struct akl_variable`. -/
abbrev VarRef := Nat

/-- `struct akl_symbol` without its tree entry; `sbName` may be `NULL`. -/
structure AklSymbol where
  sbName : Option Name
  sbIsCdef : Bool

/-- `struct akl_variable` without its tree entry. -/
structure AklVariable where
  vrSymbol : SymRef
  vrValue : Option VRef
  vrDesc : Option (List Chr)
  vrIsCdesc : Bool

/-- The symbols and variables that were allocated, and the two trees. -/
structure Tables (impl : SetImpl Nat) where
  syms : List AklSymbol
  vars : List AklVariable
  aiSymbols : impl.Tree
  aiGlobalVars : impl.Tree

/-- `akl_rb_cmp_sym` on the names of two symbols; without a name it gives 1. -/
def aklRbCmpSym (f s : Option Name) : Int :=
  match f, s with
  | some f, some s => strcasecmp f.text s.text
  | _, _ => 1

namespace Tables

variable {impl : SetImpl Nat}

/-- Both trees are empty. -/
def init (impl : SetImpl Nat) : Tables impl := ⟨[], [], impl.empty, impl.empty⟩

/-- `sb_name` of a symbol. -/
def symName (st : Tables impl) (sym : SymRef) : Option Name :=
  st.syms[sym]?.bind AklSymbol.sbName

/-- `vr_symbol->sb_name` of a variable; `akl_rb_cmp_var` compares these. -/
def varName (st : Tables impl) (var : VarRef) : Option Name :=
  st.vars[var]?.bind fun v => st.symName v.vrSymbol

/-- Write a symbol. -/
def setSym (st : Tables impl) (sym : SymRef) (value : AklSymbol) : Tables impl :=
  { st with syms := st.syms.set sym value }

/-- `akl_get_symbol` -/
def aklGetSymbol (st : Tables impl) (name : Name) : Option SymRef :=
  impl.find (fun s => aklRbCmpSym (some name) (st.symName s)) st.aiSymbols

/-- `get_or_create_symbol` -/
def getOrCreateSymbol (st : Tables impl) (name : Name) : SymRef × Tables impl :=
  match st.aklGetSymbol name with
  | some sym => (sym, st)
  | none =>
      let sym := st.syms.length
      -- the insertion needs the name, which is then taken away again
      let st : Tables impl := { st with syms := st.syms ++ [⟨some name, true⟩] }
      let (_, aiSymbols) :=
        impl.insert (fun s => aklRbCmpSym (st.symName sym) (st.symName s)) sym st.aiSymbols
      (sym, setSym { st with aiSymbols } sym ⟨none, true⟩)

/-- What the two creators do behind `get_or_create_symbol`: a symbol without a name is
new and gets its name and the mark of a constant name. -/
def nameNewSymbol (st : Tables impl) (name : Name) (isCdef : Bool) : SymRef × Tables impl :=
  let (sym, st) := st.getOrCreateSymbol name
  match st.symName sym with
  | some _ => (sym, st)
  | none => (sym, st.setSym sym ⟨some name, isCdef⟩)

/-- `akl_new_symbol` -/
def aklNewSymbol (st : Tables impl) (name : Name) (isCname : Bool) : SymRef × Tables impl :=
  st.nameNewSymbol name isCname

/-- `akl_get_or_create_symbol`, which gives a new symbol a copy of the name. -/
def aklGetOrCreateSymbol (st : Tables impl) (name : Name) : SymRef × Tables impl :=
  st.nameNewSymbol name false

/-- `akl_new_var` -/
def aklNewVar (st : Tables impl) (sym : SymRef) : VarRef × Tables impl :=
  (st.vars.length, { st with vars := st.vars ++ [⟨sym, none, none, false⟩] })

/-- The writes at the end of `set_global`. -/
def writeVariable (st : Tables impl) (desc : Option (List Chr)) (isCdesc : Bool) (v : VRef)
    (var : VarRef) : Tables impl :=
  { st with vars := st.vars.modify var fun w =>
    { w with vrValue := some v, vrDesc := desc, vrIsCdesc := isCdesc } }

/-- `set_global` -/
def setGlobal (st : Tables impl) (desc : Option (List Chr)) (isCdesc : Bool) (v : VRef)
    (var : VarRef) : VarRef × Tables impl :=
  let compare := fun w => aklRbCmpSym (st.varName var) (st.varName w)
  match impl.find compare st.aiGlobalVars with
  | some ovar => (ovar, st.writeVariable desc isCdesc v ovar)
  | none =>
      let (_, aiGlobalVars) := impl.insert compare var st.aiGlobalVars
      (var, writeVariable { st with aiGlobalVars } desc isCdesc v var)

/-- `akl_set_global_var` -/
def aklSetGlobalVar (st : Tables impl) (sym : SymRef) (desc : Option (List Chr)) (isCdesc : Bool)
    (v : VRef) : VarRef × Tables impl :=
  let (var, st) := st.aklNewVar sym
  st.setGlobal desc isCdesc v var

/-- `akl_set_global_variable` with `akl_new_variable` -/
def aklSetGlobalVariable (st : Tables impl) (name : Name) (isCname : Bool)
    (desc : Option (List Chr)) (isCdesc : Bool) (v : VRef) : VarRef × Tables impl :=
  let (sym, st) := st.aklNewSymbol name isCname
  st.aklSetGlobalVar sym desc isCdesc v

/-- `akl_get_global_var` for a symbol of that name. -/
def findVariable (st : Tables impl) (name : Option Name) : Option VarRef :=
  impl.find (fun w => aklRbCmpSym name (st.varName w)) st.aiGlobalVars

/-- `akl_get_global_var` -/
def aklGetGlobalVar (st : Tables impl) (sym : SymRef) : Option VarRef :=
  st.findVariable (st.symName sym)

/-- `akl_get_global_variable`, by a symbol of its own on the C stack. -/
def aklGetGlobalVariable (st : Tables impl) (name : Name) : Option VarRef :=
  st.findVariable (some name)

/-- The value of a variable that was looked up. -/
def valueOf (st : Tables impl) (var : Option VarRef) : Option VRef :=
  (var.bind (st.vars[·]?)).bind AklVariable.vrValue

end Tables

/-- A call of one of the functions on the two trees. -/
inductive TableOp where
  | getSymbol (name : Name)
  | newSymbol (name : Name) (isCname : Bool)
  | getOrCreateSymbol (name : Name)
  | setGlobalVar (sym : SymRef) (desc : Option (List Chr)) (isCdesc : Bool) (v : VRef)
  | setGlobalVariable (name : Name) (isCname : Bool) (desc : Option (List Chr)) (isCdesc : Bool)
      (v : VRef)
  | getGlobalVar (sym : SymRef)
  | getGlobalVariable (name : Name)

/-- What a call returns. -/
inductive Answer where
  | symbol (sym : Option SymRef)
  | variable (var : Option VarRef)

/-- One call. -/
def Tables.step {impl : SetImpl Nat} (st : Tables impl) : TableOp → Answer × Tables impl
  | .getSymbol name => (.symbol (st.aklGetSymbol name), st)
  | .newSymbol name isCname =>
      let (sym, st) := st.aklNewSymbol name isCname
      (.symbol (some sym), st)
  | .getOrCreateSymbol name =>
      let (sym, st) := st.aklGetOrCreateSymbol name
      (.symbol (some sym), st)
  | .setGlobalVar sym desc isCdesc v =>
      let (var, st) := st.aklSetGlobalVar sym desc isCdesc v
      (.variable (some var), st)
  | .setGlobalVariable name isCname desc isCdesc v =>
      let (var, st) := st.aklSetGlobalVariable name isCname desc isCdesc v
      (.variable (some var), st)
  | .getGlobalVar sym => (.variable (st.aklGetGlobalVar sym), st)
  | .getGlobalVariable name => (.variable (st.aklGetGlobalVariable name), st)

/-! ### Names -/

theorem strcmp_isOrder : IsOrder strcmp := ⟨strcmp_sign, strcmp_trans⟩

theorem unsignedChar_inj {c d : Chr} (legal : IsStringChar c) (legal' : IsStringChar d)
    (equal : unsignedChar c = unsignedChar d) : c = d := by
  unfold IsStringChar at legal legal'
  unfold unsignedChar at equal
  grind

theorem unsignedChar_ne_zero {c : Chr} (legal : IsStringChar c) : unsignedChar c ≠ 0 := by
  unfold IsStringChar at legal
  unfold unsignedChar
  grind

/-- Only equal strings compare to 0. -/
theorem strcmp_eq_zero {a b : List Chr} (charsA : ∀ ch ∈ a, IsStringChar ch)
    (charsB : ∀ ch ∈ b, IsStringChar ch) : strcmp a b = 0 ↔ a = b := by
  constructor
  · intro zero
    induction a generalizing b with
    | nil =>
        cases b with
        | nil => rfl
        | cons d b =>
            have nonzero := unsignedChar_ne_zero (charsB d List.mem_cons_self)
            rw [strcmp, List.headD_cons] at zero
            omega
    | cons c a ih =>
        have legal := charsA c List.mem_cons_self
        have nonzero := unsignedChar_ne_zero legal
        cases b with
        | nil =>
            rw [strcmp, if_neg (fun both => nonzero both.1), List.headD_nil] at zero
            exact absurd (Int.sub_eq_zero.mp zero) nonzero
        | cons d b =>
            have equal : c = d := by
              apply unsignedChar_inj legal (charsB d List.mem_cons_self)
              by_contra different
              rw [strcmp, if_neg (fun both => different both.1), List.headD_cons] at zero
              exact different (Int.sub_eq_zero.mp zero)
            subst equal
            rw [strcmp, List.headD_cons, if_pos ⟨rfl, nonzero⟩, List.tail_cons] at zero
            rw [ih (fun ch mem => charsA ch (List.mem_cons_of_mem c mem))
              (fun ch mem => charsB ch (List.mem_cons_of_mem c mem)) zero]
  · rintro rfl
    exact strcmp_self a

theorem Name.folded_chars (name : Name) : ∀ ch ∈ name.folded, IsStringChar ch := by
  intro ch mem
  obtain ⟨c, memC, rfl⟩ := List.mem_map.mp mem
  have legal := name.chars c memC
  unfold tolower
  split
  · next upper =>
      have := isupper_iff.mp upper
      unfold IsStringChar at legal ⊢
      grind
  · exact legal

theorem strcmp_folded {a b : Name} : strcmp a.folded b.folded = 0 ↔ a.folded = b.folded :=
  strcmp_eq_zero a.folded_chars b.folded_chars

namespace Tables

variable {impl : SetImpl Nat} {st st' : Tables impl}

/-! ### The two trees agree -/

/-- The name of a symbol without regard to case. -/
def symKey (st : Tables impl) (sym : SymRef) : List Chr :=
  ((st.symName sym).map Name.folded).getD []

/-- The name of a variable without regard to case. -/
def varKey (st : Tables impl) (var : VarRef) : List Chr :=
  ((st.varName var).map Name.folded).getD []

/-- All symbols are in their tree, have names and stand in the order of these; the
variables belong to symbols of the tree, stand in the order of these and have values. -/
structure Inv (st : Tables impl) : Prop where
  inTree : ∀ s < st.syms.length, s ∈ impl.elems st.aiSymbols
  named : ∀ s ∈ impl.elems st.aiSymbols, ∃ n, st.symName s = some n
  symSorted : Sorted strcmp st.symKey (impl.elems st.aiSymbols)
  linked : ∀ w ∈ impl.elems st.aiGlobalVars, ∃ var, st.vars[w]? = some var ∧
    var.vrSymbol ∈ impl.elems st.aiSymbols ∧ var.vrValue.isSome
  varSorted : Sorted strcmp st.varKey (impl.elems st.aiGlobalVars)

theorem inv_init (lawful : impl.Lawful) : (init impl).Inv where
  inTree s bound := by
    rw [init, List.length_nil] at bound
    cases bound
  named s mem := by
    rw [init, lawful.elems_empty] at mem
    cases mem
  symSorted := by
    rw [init, lawful.elems_empty]
    exact List.Pairwise.nil
  linked w mem := by
    rw [init, lawful.elems_empty] at mem
    cases mem
  varSorted := by
    rw [init, lawful.elems_empty]
    exact List.Pairwise.nil

theorem symKey_of_name {s : SymRef} {n : Name} (name : st.symName s = some n) :
    st.symKey s = n.folded := by
  rw [symKey, name]
  rfl

theorem varKey_of_name {w : VarRef} {n : Name} (name : st.varName w = some n) :
    st.varKey w = n.folded := by
  rw [varKey, name]
  rfl

/-- With names the comparison is that of the keys. -/
theorem aklRbCmpSym_names (a b : Name) :
    aklRbCmpSym (some a) (some b) = strcmp a.folded b.folded := rfl

theorem symName_lt {s : SymRef} {n : Name} (name : st.symName s = some n) : s < st.syms.length := by
  by_contra outside
  rw [symName, List.getElem?_eq_none (Nat.le_of_not_lt outside)] at name
  cases name

namespace Inv

/-- A variable of the tree has the name of its symbol. -/
theorem varName (inv : st.Inv) {w : VarRef} (mem : w ∈ impl.elems st.aiGlobalVars) :
    ∃ n, st.varName w = some n := by
  obtain ⟨var, found, inTree, -⟩ := inv.linked w mem
  obtain ⟨n, name⟩ := inv.named _ inTree
  exact ⟨n, by rw [Tables.varName, found, Option.bind_some, name]⟩

/-- The symbol found is the one with the name, up to case. -/
theorem aklGetSymbol_iff (inv : st.Inv) (lawful : impl.Lawful) {name : Name} {s : SymRef} :
    st.aklGetSymbol name = some s ↔
      s ∈ impl.elems st.aiSymbols ∧ st.symKey s = name.folded := by
  have agrees : ∀ x ∈ impl.elems st.aiSymbols,
      aklRbCmpSym (some name) (st.symName x) = strcmp name.folded (st.symKey x) := by
    intro x mem
    obtain ⟨n, nameEq⟩ := inv.named x mem
    rw [symKey_of_name nameEq, nameEq, aklRbCmpSym_names]
  apply (lawful.find_iff strcmp_isOrder inv.symSorted agrees).trans
  constructor
  · rintro ⟨mem, zero⟩
    obtain ⟨n, nameEq⟩ := inv.named s mem
    rw [symKey_of_name nameEq] at zero ⊢
    exact ⟨mem, (strcmp_folded.mp zero).symm⟩
  · rintro ⟨mem, equal⟩
    rw [equal]
    exact ⟨mem, strcmp_self _⟩

theorem findVariable_iff (inv : st.Inv) (lawful : impl.Lawful) {name : Name} {w : VarRef} :
    st.findVariable (some name) = some w ↔
      w ∈ impl.elems st.aiGlobalVars ∧ st.varKey w = name.folded := by
  have agrees : ∀ x ∈ impl.elems st.aiGlobalVars,
      aklRbCmpSym (some name) (st.varName x) = strcmp name.folded (st.varKey x) := by
    intro x mem
    obtain ⟨n, nameEq⟩ := inv.varName mem
    rw [varKey_of_name nameEq, nameEq, aklRbCmpSym_names]
  apply (lawful.find_iff strcmp_isOrder inv.varSorted agrees).trans
  constructor
  · rintro ⟨mem, zero⟩
    obtain ⟨n, nameEq⟩ := inv.varName mem
    rw [varKey_of_name nameEq] at zero ⊢
    exact ⟨mem, (strcmp_folded.mp zero).symm⟩
  · rintro ⟨mem, equal⟩
    rw [equal]
    exact ⟨mem, strcmp_self _⟩

end Inv

/-- Symbols were added at most. -/
structure Grows (st st' : Tables impl) : Prop where
  syms : ∀ s ∈ impl.elems st.aiSymbols,
    s ∈ impl.elems st'.aiSymbols ∧ st'.symName s = st.symName s
  vars : st'.vars = st.vars
  tree : st'.aiGlobalVars = st.aiGlobalVars

/-- The state in which a symbol is inserted. -/
def withSymbol (st : Tables impl) (name : Name) (isCdef : Bool) : Tables impl :=
  { st with syms := st.syms ++ [⟨some name, isCdef⟩] }

theorem withSymbol_old (name : Name) (isCdef : Bool) {s : SymRef} {n : Name}
    (nameEq : st.symName s = some n) : (st.withSymbol name isCdef).symName s = some n := by
  have bound := symName_lt nameEq
  rw [symName, withSymbol, List.getElem?_append_left bound]
  exact nameEq

theorem withSymbol_new (st : Tables impl) (name : Name) (isCdef : Bool) :
    (st.withSymbol name isCdef).symName st.syms.length = some name := by
  simp [symName, withSymbol]

/-- The comparison of the new symbol with the others when it is inserted. -/
def compareNew (st : Tables impl) (name : Name) (s : SymRef) : Int :=
  aklRbCmpSym ((st.withSymbol name true).symName st.syms.length)
    ((st.withSymbol name true).symName s)

/-- The state in which there is a new symbol. -/
def created (st : Tables impl) (name : Name) (isCdef : Bool) : Tables impl :=
  { st.withSymbol name isCdef with
    aiSymbols := (impl.insert (st.compareNew name) st.syms.length st.aiSymbols).2 }

/-- The two creators of a symbol that does not exist yet. -/
theorem nameNewSymbol_new {name : Name} (absent : st.aklGetSymbol name = none) (isCdef : Bool) :
    st.nameNewSymbol name isCdef = (st.syms.length, st.created name isCdef) := by
  have compareEq : st.compareNew name = fun s => aklRbCmpSym (some name)
      ((st.syms ++ [⟨some name, true⟩])[s]?.bind AklSymbol.sbName) := by
    funext s
    simp [compareNew, symName, withSymbol]
  simp [nameNewSymbol, getOrCreateSymbol, absent, setSym, symName, created, withSymbol, compareEq]

/-- Variables keep their names when symbols keep theirs. -/
theorem Grows.varName (grows : st.Grows st') (inv : st.Inv) {w : VarRef}
    (mem : w ∈ impl.elems st.aiGlobalVars) : st'.varName w = st.varName w := by
  obtain ⟨var, found, inTree, -⟩ := inv.linked w mem
  rw [Tables.varName, Tables.varName, grows.vars, found, Option.bind_some, Option.bind_some,
    (grows.syms _ inTree).2]

namespace Inv

/-- The variables of a state that has more symbols. -/
theorem grow (inv : st.Inv) (grows : st.Grows st')
    (allIn : ∀ s < st'.syms.length, s ∈ impl.elems st'.aiSymbols)
    (named : ∀ s ∈ impl.elems st'.aiSymbols, ∃ n, st'.symName s = some n)
    (symSorted : Sorted strcmp st'.symKey (impl.elems st'.aiSymbols)) : st'.Inv where
  inTree := allIn
  named := named
  symSorted := symSorted
  linked w mem := by
    rw [grows.tree] at mem
    obtain ⟨var, found, inTree, stored⟩ := inv.linked w mem
    rw [grows.vars]
    exact ⟨var, found, (grows.syms _ inTree).1, stored⟩
  varSorted := by
    rw [grows.tree]
    apply inv.varSorted.congr
    intro w mem
    rw [varKey, varKey, grows.varName inv mem]

/-- A creator gives a symbol of the tree with the name, up to case. -/
theorem nameNewSymbol (inv : st.Inv) (lawful : impl.Lawful) (name : Name) (isCdef : Bool) :
    ∃ sym st', st.nameNewSymbol name isCdef = (sym, st') ∧ st'.Inv ∧
      sym ∈ impl.elems st'.aiSymbols ∧ st'.symKey sym = name.folded ∧ st.Grows st' := by
  cases found : st.aklGetSymbol name with
  | some sym =>
      obtain ⟨mem, keyEq⟩ := (inv.aklGetSymbol_iff lawful).mp found
      obtain ⟨n, nameEq⟩ := inv.named sym mem
      refine ⟨sym, st, ?_, inv, mem, keyEq, ⟨fun s mem => ⟨mem, rfl⟩, rfl, rfl⟩⟩
      simp [Tables.nameNewSymbol, getOrCreateSymbol, found, nameEq]
  | none =>
      have old : ∀ s ∈ impl.elems st.aiSymbols, ∀ c,
          (st.withSymbol name c).symName s = st.symName s := by
        intro s mem c
        obtain ⟨n, nameEq⟩ := inv.named s mem
        rw [nameEq, withSymbol_old name c nameEq]
      have oldKey : ∀ s ∈ impl.elems st.aiSymbols,
          (st.withSymbol name isCdef).symKey s = st.symKey s := by
        intro s mem
        rw [symKey, symKey, old s mem]
      have newKey : (st.withSymbol name isCdef).symKey st.syms.length = name.folded :=
        symKey_of_name (withSymbol_new st name isCdef)
      have agrees : ∀ s ∈ impl.elems st.aiSymbols,
          st.compareNew name s = strcmp ((st.withSymbol name isCdef).symKey st.syms.length)
            ((st.withSymbol name isCdef).symKey s) := by
        intro s mem
        obtain ⟨n, nameEq⟩ := inv.named s mem
        rw [compareNew, withSymbol_new, old s mem, nameEq, newKey, oldKey s mem,
          symKey_of_name nameEq,
          aklRbCmpSym_names]
      have different : ∀ s ∈ impl.elems st.aiSymbols,
          strcmp ((st.withSymbol name isCdef).symKey st.syms.length)
            ((st.withSymbol name isCdef).symKey s) ≠ 0 := by
        intro s mem zero
        obtain ⟨n, nameEq⟩ := inv.named s mem
        rw [newKey, oldKey s mem, symKey_of_name nameEq] at zero
        have present := (inv.aklGetSymbol_iff lawful).mpr
          ⟨mem, (symKey_of_name nameEq).trans (strcmp_folded.mp zero).symm⟩
        rw [found] at present
        cases present
      obtain ⟨sorted, mem_iff⟩ := lawful.insert_new_sorted strcmp_isOrder
        (inv.symSorted.congr oldKey) agrees different
      refine ⟨_, _, nameNewSymbol_new found isCdef, ?_⟩
      have grows : st.Grows (st.created name isCdef) :=
        ⟨fun s mem => ⟨(mem_iff s).mpr (Or.inr mem), old s mem isCdef⟩, rfl, rfl⟩
      refine ⟨inv.grow grows ?_ ?_ sorted, (mem_iff _).mpr (Or.inl rfl), newKey, grows⟩
      · intro s bound
        rw [created, withSymbol, List.length_append, List.length_singleton] at bound
        rcases Nat.lt_succ_iff_lt_or_eq.mp bound with old | rfl
        · exact (grows.syms s (inv.inTree s old)).1
        · exact (mem_iff _).mpr (Or.inl rfl)
      intro s mem
      rcases (mem_iff s).mp mem with rfl | mem
      · exact ⟨name, withSymbol_new st name isCdef⟩
      · obtain ⟨n, nameEq⟩ := inv.named s mem
        exact ⟨n, (old s mem isCdef).trans nameEq⟩

end Inv

theorem writeVariable_varName (desc : Option (List Chr)) (isCdesc : Bool) (v : VRef)
    (var w : VarRef) : (st.writeVariable desc isCdesc v var).varName w = st.varName w := by
  simp only [varName, writeVariable, List.getElem?_modify]
  split
  · cases st.vars[w]? <;> rfl
  · cases st.vars[w]? <;> rfl

/-- The variable that is written, and the others. -/
theorem writeVariable_vars (desc : Option (List Chr)) (isCdesc : Bool) (v : VRef)
    (w u : VarRef) : (st.writeVariable desc isCdesc v w).vars[u]? =
      if w = u then
        st.vars[u]?.map fun var =>
          { var with vrValue := some v, vrDesc := desc, vrIsCdesc := isCdesc }
      else st.vars[u]? := by
  simp only [writeVariable, List.getElem?_modify]
  by_cases same : w = u
  · simp [same]
  · simp [same]

/-- A value was stored under a symbol, in the variable `w`. -/
structure Stored (st st' : Tables impl) (sym : SymRef) (v : VRef) (w : VarRef) : Prop where
  inv : st'.Inv
  syms : st'.syms = st.syms
  tree : st'.aiSymbols = st.aiSymbols
  mem_iff : ∀ u, u ∈ impl.elems st'.aiGlobalVars ↔ u = w ∨ u ∈ impl.elems st.aiGlobalVars
  key : st'.varKey w = st.symKey sym
  value : (st'.vars[w]?).bind AklVariable.vrValue = some v
  others : ∀ u ∈ impl.elems st.aiGlobalVars, u ≠ w → st'.vars[u]? = st.vars[u]?
  keys : ∀ u ∈ impl.elems st.aiGlobalVars, st'.varKey u = st.varKey u

/-- The state in which a new variable is in the tree. -/
def withVariable (st : Tables impl) (name : Option Name) (sym : SymRef) : Tables impl :=
  { (st.aklNewVar sym).2 with
    aiGlobalVars := (impl.insert (fun w => aklRbCmpSym name ((st.aklNewVar sym).2.varName w))
      st.vars.length st.aiGlobalVars).2 }

/-- `akl_set_global_var` finds the variable with the name or inserts the new one. -/
theorem aklSetGlobalVar_eq {sym : SymRef} {name : Option Name}
    (newName : (st.aklNewVar sym).2.varName st.vars.length = name) (desc : Option (List Chr))
    (isCdesc : Bool) (v : VRef) :
    st.aklSetGlobalVar sym desc isCdesc v =
      match (st.aklNewVar sym).2.findVariable name with
      | some w => (w, (st.aklNewVar sym).2.writeVariable desc isCdesc v w)
      | none => (st.vars.length,
          (st.withVariable name sym).writeVariable desc isCdesc v st.vars.length) := by
  rw [← newName]
  rfl

namespace Inv

/-- A variable is allocated; the tree does not know it yet. -/
theorem aklNewVar (inv : st.Inv) (sym : SymRef) :
    (st.aklNewVar sym).2.Inv ∧
      (∀ w ∈ impl.elems st.aiGlobalVars, (st.aklNewVar sym).2.vars[w]? = st.vars[w]?) ∧
      (∀ w ∈ impl.elems st.aiGlobalVars, (st.aklNewVar sym).2.varName w = st.varName w) ∧
      (st.aklNewVar sym).2.varName st.vars.length = st.symName sym := by
  have old : ∀ w ∈ impl.elems st.aiGlobalVars, (st.aklNewVar sym).2.vars[w]? = st.vars[w]? := by
    intro w mem
    obtain ⟨var, found, -⟩ := inv.linked w mem
    exact List.getElem?_append_left (List.getElem?_eq_some_iff.mp found).1
  have oldName : ∀ w ∈ impl.elems st.aiGlobalVars,
      (st.aklNewVar sym).2.varName w = st.varName w := by
    intro w mem
    rw [Tables.varName, old w mem]
    rfl
  refine ⟨⟨inv.inTree, inv.named, inv.symSorted, ?_, ?_⟩, old, oldName, ?_⟩
  · intro w mem
    rw [old w mem]
    exact inv.linked w mem
  · apply inv.varSorted.congr
    intro w mem
    rw [varKey, varKey, oldName w mem]
  · simp only [Tables.varName, Tables.aklNewVar, List.getElem?_concat_length, Option.bind_some]
    rfl

/-- What is written to a variable completes it. -/
theorem writeVariable {w : VarRef}
    (varSorted : Sorted strcmp st.varKey (impl.elems st.aiGlobalVars))
    (inTree : ∀ s < st.syms.length, s ∈ impl.elems st.aiSymbols)
    (named : ∀ s ∈ impl.elems st.aiSymbols, ∃ n, st.symName s = some n)
    (symSorted : Sorted strcmp st.symKey (impl.elems st.aiSymbols))
    (linked : ∀ u ∈ impl.elems st.aiGlobalVars, ∃ var, st.vars[u]? = some var ∧
      var.vrSymbol ∈ impl.elems st.aiSymbols ∧ (u ≠ w → var.vrValue.isSome))
    (desc : Option (List Chr)) (isCdesc : Bool) (v : VRef) :
    (st.writeVariable desc isCdesc v w).Inv where
  inTree := inTree
  named := named
  symSorted := symSorted
  linked u mem := by
    obtain ⟨var, found, inTree, stored⟩ := linked u mem
    rw [writeVariable_vars, found]
    by_cases same : w = u
    · rw [if_pos same]
      exact ⟨_, rfl, inTree, rfl⟩
    · rw [if_neg same]
      exact ⟨var, rfl, inTree, stored (Ne.symm same)⟩
  varSorted := by
    apply varSorted.congr
    intro u mem
    rw [varKey, varKey, writeVariable_varName]

/-- Storing under a symbol of the tree writes its variable, which is made if there is
none. -/
theorem aklSetGlobalVar (inv : st.Inv) (lawful : impl.Lawful) {sym : SymRef}
    (mem : sym ∈ impl.elems st.aiSymbols) (desc : Option (List Chr)) (isCdesc : Bool) (v : VRef) :
    ∃ w st', st.aklSetGlobalVar sym desc isCdesc v = (w, st') ∧ Stored st st' sym v w := by
  obtain ⟨n, symName⟩ := inv.named sym mem
  obtain ⟨inv₁, old, oldName, newName⟩ := inv.aklNewVar sym
  rw [symName] at newName
  rw [aklSetGlobalVar_eq newName]
  cases found : (st.aklNewVar sym).2.findVariable (some n) with
  | some w =>
      obtain ⟨memW, keyW⟩ := (inv₁.findVariable_iff lawful).mp found
      obtain ⟨var, atW, -, -⟩ := inv₁.linked w memW
      refine ⟨w, _, rfl, ?_, rfl, rfl, ?_, ?_, ?_, ?_, ?_⟩
      · apply writeVariable inv₁.varSorted inv₁.inTree inv₁.named inv₁.symSorted
        intro u memU
        obtain ⟨var, found, inTree, stored⟩ := inv₁.linked u memU
        exact ⟨var, found, inTree, fun _ => stored⟩
      · intro u
        constructor
        · exact Or.inr
        · rintro (rfl | memU)
          · exact memW
          · exact memU
      · rw [varKey, writeVariable_varName, symKey_of_name symName, ← keyW, varKey]
      · rw [writeVariable_vars, if_pos rfl, atW]
        rfl
      · intro u memU different
        rw [writeVariable_vars, if_neg (Ne.symm different), old u memU]
      · intro u memU
        rw [varKey, writeVariable_varName, oldName u memU, varKey]
  | none =>
      have newKey : (st.withVariable (some n) sym).varKey st.vars.length = n.folded :=
        varKey_of_name newName
      have oldKey : ∀ u ∈ impl.elems st.aiGlobalVars,
          (st.withVariable (some n) sym).varKey u = st.varKey u := by
        intro u memU
        have nameU : (st.withVariable (some n) sym).varName u = st.varName u := oldName u memU
        rw [varKey, varKey, nameU]
      have agrees : ∀ u ∈ impl.elems st.aiGlobalVars,
          aklRbCmpSym (some n) ((st.aklNewVar sym).2.varName u) =
            strcmp ((st.withVariable (some n) sym).varKey st.vars.length)
              ((st.withVariable (some n) sym).varKey u) := by
        intro u memU
        obtain ⟨m, nameU⟩ := inv.varName memU
        rw [oldName u memU, nameU, newKey, oldKey u memU, varKey_of_name nameU, aklRbCmpSym_names]
      have different : ∀ u ∈ impl.elems st.aiGlobalVars,
          strcmp ((st.withVariable (some n) sym).varKey st.vars.length)
            ((st.withVariable (some n) sym).varKey u) ≠ 0 := by
        intro u memU zero
        obtain ⟨m, nameU⟩ := inv.varName memU
        have nameU₁ := (oldName u memU).trans nameU
        rw [newKey, oldKey u memU, varKey_of_name nameU] at zero
        have present := (inv₁.findVariable_iff lawful).mpr
          ⟨memU, (varKey_of_name nameU₁).trans (strcmp_folded.mp zero).symm⟩
        rw [found] at present
        cases present
      obtain ⟨sorted, mem_iff⟩ := lawful.insert_new_sorted strcmp_isOrder
        (inv.varSorted.congr oldKey) agrees different
      have atNew : (st.withVariable (some n) sym).vars[st.vars.length]? =
          some ⟨sym, none, none, false⟩ := List.getElem?_concat_length
      refine ⟨st.vars.length, _, rfl, ?_, rfl, rfl, mem_iff, ?_, ?_, ?_, ?_⟩
      · apply writeVariable sorted inv.inTree inv.named inv.symSorted
        intro u memU
        rcases (mem_iff u).mp memU with rfl | memU
        · exact ⟨_, atNew, mem, fun ne => absurd rfl ne⟩
        · obtain ⟨var, foundU, inTree, stored⟩ := inv₁.linked u memU
          exact ⟨var, foundU, inTree, fun _ => stored⟩
      · rw [varKey, writeVariable_varName, symKey_of_name symName, ← newKey, varKey]
      · rw [writeVariable_vars, if_pos rfl, atNew]
        rfl
      · intro u memU ne
        rw [writeVariable_vars, if_neg (Ne.symm ne)]
        exact old u memU
      · intro u memU
        rw [varKey, writeVariable_varName, ← oldKey u memU, varKey]

end Inv

end Tables

end AkLisp
