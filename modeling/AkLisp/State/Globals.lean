import AkLisp.State.Tables

/-!
# Symbols and globals as one map

Runs of the functions on the two trees.  A run from the empty trees keeps one symbol and
one variable for a name up to case, and what the variables hold is the map of global
variables that the data of the interpreter are described by.
-/

namespace AkLisp

open Ordered

/-- The symbol that stands for a name up to case. -/
def symbolNamed (name : Option Name) : Symbol :=
  aklGetOrCreateSymbol ((name.map Name.text).getD [])

/-- The symbol that stands for a name up to case. -/
def Name.symbol (name : Name) : Symbol := symbolNamed (some name)

/-- The value that a call stores. -/
def TableOp.stored : TableOp → Option VRef
  | .setGlobalVar _ _ _ v => some v
  | .setGlobalVariable _ _ _ _ v => some v
  | _ => none

namespace Tables

variable {impl : SetImpl Nat} {st st' : Tables impl}

/-- The name that a call is about, up to case. -/
def keyOf (st : Tables impl) : TableOp → Symbol
  | .getSymbol name => name.symbol
  | .newSymbol name _ => name.symbol
  | .getOrCreateSymbol name => name.symbol
  | .setGlobalVar sym _ _ _ => symbolNamed (st.symName sym)
  | .setGlobalVariable name _ _ _ _ => name.symbol
  | .getGlobalVar sym => symbolNamed (st.symName sym)
  | .getGlobalVariable name => name.symbol

/-- A symbol that is passed was allocated. -/
def Valid (st : Tables impl) : TableOp → Prop
  | .setGlobalVar sym _ _ _ => sym < st.syms.length
  | .getGlobalVar sym => sym < st.syms.length
  | _ => True

end Tables

/-- A call of a run, with the name it is about and its answer. -/
structure Call where
  op : TableOp
  key : Symbol
  answer : Answer

/-- A run from the empty trees; the latest call comes first. -/
inductive Run (impl : SetImpl Nat) : List Call → Tables impl → Prop where
  | init : Run impl [] (Tables.init impl)
  | step {calls : List Call} {st : Tables impl} (run : Run impl calls st) (op : TableOp)
      (valid : st.Valid op) :
      Run impl (⟨op, st.keyOf op, (st.step op).1⟩ :: calls) (st.step op).2

/-- The value that was stored last under a name. -/
def lastStored (x : Symbol) : List Call → Option VRef
  | [] => none
  | call :: calls =>
      if call.key = x then call.op.stored.or (lastStored x calls) else lastStored x calls

/-! ### Names and keys -/

theorem symbolNamed_sbName (name : Option Name) :
    (symbolNamed name).sbName = (name.map Name.folded).getD [] := by
  cases name <;> rfl

theorem Name.symbol_sbName (name : Name) : name.symbol.sbName = name.folded := rfl

theorem Symbol.eq_iff {x y : Symbol} : x = y ↔ x.sbName = y.sbName := by
  rw [Symbol.mk.injEq]

namespace Tables

variable {impl : SetImpl Nat} {st st' : Tables impl}

/-- The symbol that a variable belongs to, up to case. -/
def varSymbol (st : Tables impl) (w : VarRef) : Symbol := symbolNamed (st.varName w)

theorem varSymbol_sbName (st : Tables impl) (w : VarRef) :
    (st.varSymbol w).sbName = st.varKey w := symbolNamed_sbName _

/-- What a call does to the trees: it stores under one name, if at all. -/
structure Advance (st st' : Tables impl) (key : List Chr) (stored : Option VRef) : Prop where
  inv : st'.Inv
  syms : ∀ s ∈ impl.elems st.aiSymbols,
    s ∈ impl.elems st'.aiSymbols ∧ st'.symKey s = st.symKey s
  vars : ∀ w ∈ impl.elems st.aiGlobalVars,
    w ∈ impl.elems st'.aiGlobalVars ∧ st'.varKey w = st.varKey w
  others : ∀ w ∈ impl.elems st.aiGlobalVars, stored = none ∨ st.varKey w ≠ key →
    st'.vars[w]? = st.vars[w]?
  new : ∀ w ∈ impl.elems st'.aiGlobalVars,
    w ∈ impl.elems st.aiGlobalVars ∨ stored.isSome ∧ st'.varKey w = key
  value : ∀ v, stored = some v → ∃ w ∈ impl.elems st'.aiGlobalVars,
    st'.varKey w = key ∧ (st'.vars[w]?).bind AklVariable.vrValue = some v

namespace Advance

/-- A lookup changes nothing. -/
theorem refl (inv : st.Inv) (key : List Chr) : Advance st st key none where
  inv := inv
  syms s mem := ⟨mem, rfl⟩
  vars w mem := ⟨mem, rfl⟩
  others w mem _ := rfl
  new w mem := Or.inl mem
  value v stored := by cases stored

/-- A creator adds a symbol at most. -/
theorem of_grows (inv : st.Inv) (inv' : st'.Inv) (grows : st.Grows st') (key : List Chr) :
    Advance st st' key none where
  inv := inv'
  syms s mem := by
    obtain ⟨mem', name⟩ := grows.syms s mem
    exact ⟨mem', by rw [symKey, symKey, name]⟩
  vars w mem := by
    constructor
    · rw [grows.tree]
      exact mem
    · rw [varKey, varKey, grows.varName inv mem]
  others w mem _ := by rw [grows.vars]
  new w mem := by
    rw [grows.tree] at mem
    exact Or.inl mem
  value v stored := by cases stored

/-- Storing under a symbol. -/
theorem of_stored {sym : SymRef} {v : VRef} {w : VarRef} (stored : Stored st st' sym v w) :
    Advance st st' (st.symKey sym) (some v) where
  inv := stored.inv
  syms s mem := by
    constructor
    · rw [stored.tree]
      exact mem
    · rw [symKey, symName, stored.syms, symKey, symName]
  vars u mem := ⟨(stored.mem_iff u).mpr (Or.inr mem), stored.keys u mem⟩
  others u mem apart := by
    apply stored.others u mem
    rintro rfl
    rcases apart with absent | different
    · cases absent
    · exact different ((stored.keys u mem).symm.trans stored.key)
  new u mem := by
    rcases (stored.mem_iff u).mp mem with rfl | old
    · exact Or.inr ⟨rfl, stored.key⟩
    · exact Or.inl old
  value v' same := by
    cases same
    exact ⟨w, (stored.mem_iff w).mpr (Or.inl rfl), stored.key, stored.value⟩

/-- A creator and then a call. -/
theorem trans {st₁ : Tables impl} {key : List Chr} {stored : Option VRef}
    (first : Advance st st₁ key none) (second : Advance st₁ st' key stored) :
    Advance st st' key stored where
  inv := second.inv
  syms s mem := by
    obtain ⟨mem₁, key₁⟩ := first.syms s mem
    obtain ⟨mem₂, key₂⟩ := second.syms s mem₁
    exact ⟨mem₂, key₂.trans key₁⟩
  vars w mem := by
    obtain ⟨mem₁, key₁⟩ := first.vars w mem
    obtain ⟨mem₂, key₂⟩ := second.vars w mem₁
    exact ⟨mem₂, key₂.trans key₁⟩
  others w mem apart := by
    obtain ⟨mem₁, key₁⟩ := first.vars w mem
    rw [← key₁] at apart
    exact (second.others w mem₁ apart).trans (first.others w mem (Or.inl rfl))
  new w mem := by
    rcases second.new w mem with mem₁ | new
    · rcases first.new w mem₁ with old | ⟨absent, -⟩
      · exact Or.inl old
      · cases absent
    · exact Or.inr new
  value := second.value

end Advance

/-- Every call on good trees stores what it has to under its name, and the symbol it
returns has this name. -/
theorem step_advance (inv : st.Inv) (lawful : impl.Lawful) {op : TableOp} (valid : st.Valid op) :
    Advance st (st.step op).2 (st.keyOf op).sbName op.stored ∧
      ∀ s, (st.step op).1 = .symbol (some s) →
        s ∈ impl.elems (st.step op).2.aiSymbols ∧
          (st.step op).2.symKey s = (st.keyOf op).sbName := by
  cases op with
  | getSymbol name =>
      refine ⟨Advance.refl inv _, fun s answer => ?_⟩
      injection answer with found
      exact (inv.aklGetSymbol_iff lawful).mp found
  | newSymbol name isCname =>
      obtain ⟨sym, st', ran, inv', mem, key, grows⟩ := inv.nameNewSymbol lawful name isCname
      rw [step, aklNewSymbol, ran]
      refine ⟨Advance.of_grows inv inv' grows _, fun s answer => ?_⟩
      injection answer with same
      cases same
      exact ⟨mem, key⟩
  | getOrCreateSymbol name =>
      obtain ⟨sym, st', ran, inv', mem, key, grows⟩ := inv.nameNewSymbol lawful name false
      rw [step, AkLisp.Tables.aklGetOrCreateSymbol, ran]
      refine ⟨Advance.of_grows inv inv' grows _, fun s answer => ?_⟩
      injection answer with same
      cases same
      exact ⟨mem, key⟩
  | setGlobalVar sym desc isCdesc v =>
      obtain ⟨w, st', ran, stored⟩ :=
        inv.aklSetGlobalVar lawful (inv.inTree sym valid) desc isCdesc v
      rw [step, ran, keyOf, symbolNamed_sbName]
      exact ⟨Advance.of_stored stored, fun s answer => by cases answer⟩
  | setGlobalVariable name isCname desc isCdesc v =>
      obtain ⟨sym, st₁, ran₁, inv₁, mem, key, grows⟩ := inv.nameNewSymbol lawful name isCname
      obtain ⟨w, st', ran, stored⟩ := inv₁.aklSetGlobalVar lawful mem desc isCdesc v
      rw [step, aklSetGlobalVariable, aklNewSymbol, ran₁]
      simp only [ran]
      refine ⟨(Advance.of_grows inv inv₁ grows _).trans ?_, fun s answer => by cases answer⟩
      rw [keyOf, Name.symbol_sbName, ← key]
      exact Advance.of_stored stored
  | getGlobalVar sym => exact ⟨Advance.refl inv _, fun s answer => by cases answer⟩
  | getGlobalVariable name => exact ⟨Advance.refl inv _, fun s answer => by cases answer⟩

/-- There is one variable for a name. -/
theorem Inv.varKey_inj (inv : st.Inv) (lawful : impl.Lawful) {w w' : VarRef}
    (mem : w ∈ impl.elems st.aiGlobalVars) (mem' : w' ∈ impl.elems st.aiGlobalVars)
    (same : st.varKey w = st.varKey w') : w = w' := by
  obtain ⟨n, name⟩ := inv.varName mem
  have key := varKey_of_name name
  have found := (inv.findVariable_iff lawful).mpr ⟨mem, key⟩
  rw [(inv.findVariable_iff lawful).mpr ⟨mem', same.symm.trans key⟩] at found
  exact (Option.some.inj found).symm

/-- The trees after a run: the symbols that were returned have the names they were asked
for, and the variables hold what was stored last. -/
structure Holds (calls : List Call) (st : Tables impl) : Prop where
  inv : st.Inv
  answers : ∀ call ∈ calls, ∀ s, call.answer = .symbol (some s) →
    s ∈ impl.elems st.aiSymbols ∧ st.symKey s = call.key.sbName
  values : ∀ x v, lastStored x calls = some v ↔ ∃ w ∈ impl.elems st.aiGlobalVars,
    st.varKey w = x.sbName ∧ (st.vars[w]?).bind AklVariable.vrValue = some v

theorem Holds.step {calls : List Call} (holds : st.Holds calls) (lawful : impl.Lawful)
    {op : TableOp} (valid : st.Valid op) :
    Holds (⟨op, st.keyOf op, (st.step op).1⟩ :: calls) (st.step op).2 := by
  obtain ⟨advance, answered⟩ := step_advance holds.inv lawful valid
  refine ⟨advance.inv, ?_, ?_⟩
  · intro call mem s answer
    rcases List.mem_cons.mp mem with rfl | mem
    · exact answered s answer
    · obtain ⟨inTree, key⟩ := holds.answers call mem s answer
      obtain ⟨inTree', key'⟩ := advance.syms s inTree
      exact ⟨inTree', key'.trans key⟩
  · intro x v
    by_cases here : st.keyOf op = x ∧ op.stored.isSome
    · obtain ⟨rfl, isSome⟩ := here
      obtain ⟨v₀, stored⟩ := Option.isSome_iff_exists.mp isSome
      obtain ⟨w₀, mem₀, key₀, value₀⟩ := advance.value v₀ stored
      rw [lastStored, if_pos rfl, stored, Option.some_or]
      constructor
      · rintro ⟨⟩
        exact ⟨w₀, mem₀, key₀, value₀⟩
      · rintro ⟨w, mem, key, value⟩
        rw [advance.inv.varKey_inj lawful mem mem₀ (key.trans key₀.symm)] at value
        exact value₀.symm.trans value
    · -- nothing was stored under this name
      have earlier : lastStored x (⟨op, st.keyOf op, (st.step op).1⟩ :: calls) =
          lastStored x calls := by
        rw [lastStored]
        split
        · next same =>
            have absent : op.stored = none :=
              Option.not_isSome_iff_eq_none.mp fun isSome => here ⟨same, isSome⟩
            rw [absent, Option.none_or]
        · rfl
      have apart : ∀ w, st.varKey w = x.sbName →
          op.stored = none ∨ st.varKey w ≠ (st.keyOf op).sbName := by
        intro w key
        by_cases same : st.keyOf op = x
        · exact Or.inl (Option.not_isSome_iff_eq_none.mp fun isSome => here ⟨same, isSome⟩)
        · rw [key]
          exact Or.inr fun equal => same (Symbol.eq_iff.mpr equal.symm)
      rw [earlier, holds.values x v]
      constructor
      · rintro ⟨w, mem, key, value⟩
        obtain ⟨mem', key'⟩ := advance.vars w mem
        refine ⟨w, mem', key'.trans key, ?_⟩
        rw [advance.others w mem (apart w key)]
        exact value
      · rintro ⟨w, mem', key', value⟩
        rcases advance.new w mem' with mem | ⟨isSome, key⟩
        · have key := (advance.vars w mem).2.symm.trans key'
          rw [advance.others w mem (apart w key)] at value
          exact ⟨w, mem, key, value⟩
        · exact absurd ⟨Symbol.eq_iff.mpr (key.symm.trans key'), isSome⟩ here

theorem holds_of_run (lawful : impl.Lawful) {calls : List Call} (run : Run impl calls st) :
    st.Holds calls := by
  induction run with
  | init =>
      refine ⟨inv_init lawful, nofun, ?_⟩
      intro x v
      constructor
      · nofun
      · rintro ⟨w, mem, -⟩
        rw [init, lawful.elems_empty] at mem
        cases mem
  | step run op valid ih => exact ih.step lawful valid

/-- What a symbol or a name finds among the variables is what was stored last. -/
theorem Holds.lookup {calls : List Call} (holds : st.Holds calls) (lawful : impl.Lawful)
    {n : Name} {x : Symbol} (key : x.sbName = n.folded) :
    st.valueOf (st.findVariable (some n)) = lastStored x calls ∧
      (st.findVariable (some n) = none ↔ lastStored x calls = none) := by
  cases found : st.findVariable (some n) with
  | some w =>
      obtain ⟨mem, keyW⟩ := (holds.inv.findVariable_iff lawful).mp found
      obtain ⟨var, atW, -, isSome⟩ := holds.inv.linked w mem
      obtain ⟨v, value⟩ := Option.isSome_iff_exists.mp isSome
      have holdsV : (st.vars[w]?).bind AklVariable.vrValue = some v := by
        rw [atW, Option.bind_some, value]
      have last := (holds.values x v).mpr ⟨w, mem, keyW.trans key.symm, holdsV⟩
      rw [last]
      exact ⟨holdsV, by simp⟩
  | none =>
      have last : lastStored x calls = none := by
        by_contra present
        obtain ⟨v, last⟩ := Option.ne_none_iff_exists'.mp present
        obtain ⟨w, mem, keyW, -⟩ := (holds.values x v).mp last
        rw [(holds.inv.findVariable_iff lawful).mpr ⟨mem, keyW.trans key⟩] at found
        cases found
      rw [last]
      exact ⟨rfl, by simp⟩

/-- Calls that return a symbol agree on it exactly when their names are equal up to case,
and the name finds it ever after. -/
theorem Holds.symbols {calls : List Call} (holds : st.Holds calls) (lawful : impl.Lawful)
    {call : Call} (mem : call ∈ calls) {s : SymRef} (answer : call.answer = .symbol (some s))
    (name : Name) : st.aklGetSymbol name = some s ↔ name.symbol = call.key := by
  obtain ⟨inTree, key⟩ := holds.answers call mem s answer
  rw [holds.inv.aklGetSymbol_iff lawful, key, Symbol.eq_iff, Name.symbol_sbName]
  exact ⟨fun found => found.2.symm, fun same => ⟨inTree, same.symm⟩⟩

theorem Holds.symbols_agree {calls : List Call} (holds : st.Holds calls) (lawful : impl.Lawful)
    {call call' : Call} (mem : call ∈ calls) (mem' : call' ∈ calls) {s s' : SymRef}
    (answer : call.answer = .symbol (some s)) (answer' : call'.answer = .symbol (some s')) :
    s = s' ↔ call.key = call'.key := by
  obtain ⟨inTree, key⟩ := holds.answers call mem s answer
  obtain ⟨inTree', key'⟩ := holds.answers call' mem' s' answer'
  rw [Symbol.eq_iff, ← key, ← key']
  constructor
  · rintro rfl
    rfl
  · intro same
    obtain ⟨n, name⟩ := holds.inv.named s inTree
    have found := (holds.inv.aklGetSymbol_iff lawful).mpr ⟨inTree, symKey_of_name name⟩
    rw [(holds.inv.aklGetSymbol_iff lawful).mpr
      ⟨inTree', same.symm.trans (symKey_of_name name)⟩] at found
    exact (Option.some.inj found).symm

theorem Inv.varSymbols_nodup (inv : st.Inv) :
    ((impl.elems st.aiGlobalVars).map st.varSymbol).Nodup := by
  apply List.pairwise_map.mpr
  apply List.Pairwise.imp _ inv.varSorted
  intro w w' less same
  rw [← varSymbol_sbName, ← varSymbol_sbName, same, strcmp_self] at less
  exact Int.lt_irrefl 0 less

end Tables

/-- Symbols and globals are one map that ignores case: after every run two calls returned
one symbol exactly when they were made for one name, every symbol has a name, a lookup gives
what was stored last under its name, a call leaves the variables of other names alone, and
there is one variable for a name. -/
theorem symbols_and_globals {impl : SetImpl Nat} (lawful : impl.Lawful) {calls : List Call}
    {st : Tables impl} (run : Run impl calls st) :
    (∀ call ∈ calls, ∀ call' ∈ calls, ∀ s s', call.answer = .symbol (some s) →
      call'.answer = .symbol (some s') → (s = s' ↔ call.key = call'.key)) ∧
    (∀ call ∈ calls, ∀ s, call.answer = .symbol (some s) →
      ∀ name : Name, st.aklGetSymbol name = some s ↔ name.symbol = call.key) ∧
    (∀ s ∈ impl.elems st.aiSymbols, ∃ name, st.symName s = some name) ∧
    (∀ name : Name, st.valueOf (st.aklGetGlobalVariable name) = lastStored name.symbol calls ∧
      (st.aklGetGlobalVariable name = none ↔ lastStored name.symbol calls = none)) ∧
    (∀ sym < st.syms.length,
      st.valueOf (st.aklGetGlobalVar sym) = lastStored (symbolNamed (st.symName sym)) calls ∧
        (st.aklGetGlobalVar sym = none ↔
          lastStored (symbolNamed (st.symName sym)) calls = none)) ∧
    (∀ op, st.Valid op → ∀ w ∈ impl.elems st.aiGlobalVars,
      op.stored = none ∨ st.varSymbol w ≠ st.keyOf op → (st.step op).2.vars[w]? = st.vars[w]?) ∧
    ((impl.elems st.aiGlobalVars).map st.varSymbol).Nodup := by
  have holds := Tables.holds_of_run lawful run
  refine ⟨?_, ?_, holds.inv.named, ?_, ?_, ?_, ?_⟩
  · intro call mem call' mem' s s' answer answer'
    exact holds.symbols_agree lawful mem mem' answer answer'
  · intro call mem s answer name
    exact holds.symbols lawful mem answer name
  · intro name
    exact holds.lookup lawful name.symbol_sbName
  · intro sym bound
    obtain ⟨n, name⟩ := holds.inv.named sym (holds.inv.inTree sym bound)
    rw [Tables.aklGetGlobalVar, name]
    exact holds.lookup lawful n.symbol_sbName
  · intro op valid w mem apart
    apply (Tables.step_advance holds.inv lawful valid).1.others w mem
    rcases apart with absent | different
    · exact Or.inl absent
    · right
      intro same
      rw [← Tables.varSymbol_sbName] at same
      exact different (Symbol.eq_iff.mpr same)
  · exact holds.inv.varSymbols_nodup

theorem isStringChar_a : ∀ ch ∈ [code 'a'], IsStringChar ch := by
  simp [IsStringChar, code]

theorem isStringChar_upperA : ∀ ch ∈ [code 'A'], IsStringChar ch := by
  simp [IsStringChar, code]

theorem isStringChar_b : ∀ ch ∈ [code 'b'], IsStringChar ch := by
  simp [IsStringChar, code]

/-- The name `a` in the two cases. -/
def lowerA : Name := ⟨[code 'a'], isStringChar_a⟩

/-- The name `A`. -/
def upperA : Name := ⟨[code 'A'], isStringChar_upperA⟩

/-- The name `b`. -/
def lowerB : Name := ⟨[code 'b'], isStringChar_b⟩

/-- The trees after a value was stored under `a`, `b` was made a symbol, and another value
was stored under `A`. -/
def storedTwice (impl : SetImpl Nat) : Tables impl :=
  ((((Tables.init impl).step (.setGlobalVariable lowerA true none false 7)).2.step
    (.newSymbol lowerB true)).2.step (.setGlobalVariable upperA true none false 9)).2

theorem symbols_and_globals_twice :
    (storedTwice (listImpl Nat)).valueOf
        ((storedTwice (listImpl Nat)).aklGetGlobalVariable lowerA) = some 9 ∧
      (storedTwice (listImpl Nat)).aklGetGlobalVariable lowerB = none := by
  have facts := symbols_and_globals (listImpl_lawful Nat)
    (((Run.init.step (.setGlobalVariable lowerA true none false 7) trivial).step
      (.newSymbol lowerB true) trivial).step (.setGlobalVariable upperA true none false 9) trivial)
  exact ⟨(facts.2.2.2.1 lowerA).1.trans (by decide +kernel),
    (facts.2.2.2.1 lowerB).2.mpr (by decide +kernel)⟩

end AkLisp
