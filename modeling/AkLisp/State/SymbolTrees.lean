import AkLisp.State.Globals
import AkLisp.State.RbOrder

/-!
# The symbols and globals in the vendored trees

A tree that links every node once answers as the ordered list of its nodes, so that a run
on such trees is a run on lists.  The vendored trees are of this kind: in every run they
stay red-black, no null pointer is followed and every loop ends.
-/

namespace AkLisp

open Ordered

/-- The vendored tree.  A run that followed a null pointer or did not end has no tree. -/
def rbImpl : SetImpl NodeRef where
  Tree := Option RbHead
  empty := some Nodes.empty
  elems tree :=
    (tree.bind fun head =>
      rbForeach (head.bound + 1) (fun xs x => xs ++ [x]) head []).getD []
  find compare tree := (tree.bind fun head => rbFind (head.bound + 1) compare head).getD none
  insert compare x tree :=
    match tree.bind fun head => rbInsert (head.bound + 1) compare x head with
    | some (found, head) => (found, some head)
    | none => (none, none)

/-- The memory of the tree holds a red-black tree with these nodes in order. -/
def InOrder (tree : Option RbHead) (xs : List NodeRef) : Prop :=
  ∃ head t, tree = some head ∧ head.Holds t ∧ RedBlack t ∧ t.elems = xs

namespace InOrder

variable {tree : Option RbHead} {xs : List NodeRef}

/-- There are no more nodes than ever were linked. -/
theorem length_le {head : RbHead} {t : BinTree NodeRef} (holds : head.Holds t) :
    t.elems.length ≤ head.bound := by
  have subperm : t.elems.Subperm (List.range head.bound) := by
    apply holds.nodup.subperm
    intro x mem
    exact List.mem_range.mpr (holds.below x mem)
  have length := subperm.length_le
  rwa [List.length_range] at length

theorem elems (inOrder : InOrder tree xs) : rbImpl.elems tree = xs := by
  obtain ⟨head, t, rfl, holds, -, rfl⟩ := inOrder
  have append : ∀ ys zs : List NodeRef, zs.foldl (fun xs x => xs ++ [x]) ys = ys ++ zs := by
    intro ys zs
    induction zs generalizing ys with
    | nil => simp
    | cons z zs ih => simp [ih]
  have ran := rbForeach_eq holds (Nat.lt_succ_of_le (length_le holds)) (fun xs x => xs ++ [x]) []
  rw [append, List.nil_append] at ran
  simp only [rbImpl, Option.bind_some, ran, Option.getD_some]

theorem nodup (inOrder : InOrder tree xs) : xs.Nodup := by
  obtain ⟨head, t, -, holds, -, rfl⟩ := inOrder
  exact holds.nodup

theorem find {compare : NodeRef → Int} {before here behind : List NodeRef}
    (inOrder : InOrder tree xs) (splits : SplitsAt compare xs before here behind) :
    rbImpl.find compare tree = here.head? := by
  obtain ⟨head, t, rfl, holds, -, rfl⟩ := inOrder
  have high := t.height_le_length
  have few := length_le holds
  have ran := rbFind_eq holds splits (show t.height ≤ head.bound + 1 by omega)
  simp only [rbImpl, Option.bind_some, ran, Option.getD_some]

theorem insert {compare : NodeRef → Int} {before behind : List NodeRef} {x : NodeRef}
    (inOrder : InOrder tree xs) (fresh : x ∉ xs) (splits : SplitsAt compare xs before [] behind) :
    InOrder (rbImpl.insert compare x tree).2 (before ++ x :: behind) := by
  obtain ⟨head, t, rfl, holds, redBlack, rfl⟩ := inOrder
  have high := t.height_le_length
  have few := length_le holds
  obtain ⟨head', t', ran, holds', redBlack', elems⟩ :=
    rbInsert_new holds redBlack splits fresh (show t.height < head.bound + 1 by omega)
  refine ⟨head', t', ?_, holds', redBlack', elems⟩
  simp only [rbImpl, Option.bind_some, ran]

end InOrder

/-- The vendored tree is an ordered set of nodes that are linked once. -/
theorem rbImpl_intrusive : rbImpl.Intrusive fun tree => ∃ xs, InOrder tree xs where
  wf_empty := ⟨[], Nodes.empty, .leaf, rfl, ⟨rfl, List.nodup_nil, by simp [BinTree.elems]⟩,
    ⟨0, .leaf⟩, rfl⟩
  elems_empty := rfl
  nodup good := by
    obtain ⟨xs, inOrder⟩ := good
    rw [inOrder.elems]
    exact inOrder.nodup
  find_eq good splits := by
    obtain ⟨xs, inOrder⟩ := good
    rw [inOrder.elems] at splits
    exact inOrder.find splits
  insert_new good fresh splits := by
    obtain ⟨xs, inOrder⟩ := good
    rw [inOrder.elems] at fresh splits
    have inOrder' := inOrder.insert fresh splits
    exact ⟨⟨_, inOrder'⟩, inOrder'.elems⟩

namespace Tables

/-! ### Where names fall -/

section Places

variable {impl : SetImpl Nat} {st : Tables impl}

theorem Inv.symPlace (inv : st.Inv) (name : Name) :
    ∃ before here behind, SplitsAt (fun s => aklRbCmpSym (some name) (st.symName s))
      (impl.elems st.aiSymbols) before here behind := by
  apply SetImpl.Lawful.splits strcmp_isOrder inv.symSorted (k := name.folded)
  intro s mem
  obtain ⟨n, nameEq⟩ := inv.named s mem
  rw [symKey_of_name nameEq, nameEq, aklRbCmpSym_names]

theorem Inv.varPlace (inv : st.Inv) (name : Name) :
    ∃ before here behind, SplitsAt (fun w => aklRbCmpSym (some name) (st.varName w))
      (impl.elems st.aiGlobalVars) before here behind := by
  apply SetImpl.Lawful.splits strcmp_isOrder inv.varSorted (k := name.folded)
  intro w mem
  obtain ⟨n, nameEq⟩ := inv.varName mem
  rw [varKey_of_name nameEq, nameEq, aklRbCmpSym_names]

end Places

/-- The same symbols and variables, in trees with the same nodes in order. -/
structure Mirrors {impl : SetImpl Nat} (wf : impl.Tree → Prop) (st : Tables impl)
    (lists : Tables (listImpl Nat)) : Prop where
  syms : st.syms = lists.syms
  vars : st.vars = lists.vars
  symTree : wf st.aiSymbols
  varTree : wf st.aiGlobalVars
  symElems : impl.elems st.aiSymbols = (listImpl Nat).elems lists.aiSymbols
  varElems : impl.elems st.aiGlobalVars = (listImpl Nat).elems lists.aiGlobalVars

namespace Mirrors

variable {impl : SetImpl Nat} {wf : impl.Tree → Prop} {st : Tables impl}
  {lists : Tables (listImpl Nat)}

theorem symName (mirrors : Mirrors wf st lists) : st.symName = lists.symName := by
  funext s
  rw [Tables.symName, Tables.symName, mirrors.syms]

theorem varName (mirrors : Mirrors wf st lists) : st.varName = lists.varName := by
  funext w
  rw [Tables.varName, Tables.varName, mirrors.vars, mirrors.symName]

theorem symKey (mirrors : Mirrors wf st lists) : st.symKey = lists.symKey := by
  funext s
  rw [Tables.symKey, Tables.symKey, mirrors.symName]

theorem varKey (mirrors : Mirrors wf st lists) : st.varKey = lists.varKey := by
  funext w
  rw [Tables.varKey, Tables.varKey, mirrors.varName]

/-- All symbols that were allocated are in their tree. -/
theorem mem_syms (mirrors : Mirrors wf st lists) (inv : lists.Inv) (s : SymRef) :
    s ∈ (listImpl Nat).elems lists.aiSymbols ↔ s < st.syms.length := by
  rw [mirrors.syms]
  constructor
  · intro mem
    obtain ⟨n, name⟩ := inv.named s mem
    exact symName_lt name
  · exact inv.inTree s

theorem aklGetSymbol (mirrors : Mirrors wf st lists) (intrusive : impl.Intrusive wf)
    (inv : lists.Inv) (name : Name) : st.aklGetSymbol name = lists.aklGetSymbol name := by
  obtain ⟨before, here, behind, place⟩ := inv.symPlace name
  have place' : SplitsAt (fun s => aklRbCmpSym (some name) (lists.symName s))
      (impl.elems st.aiSymbols) before here behind := by
    rw [mirrors.symElems]
    exact place
  have viaList := intrusive.find_list mirrors.symTree place'
  rw [mirrors.symElems] at viaList
  rw [Tables.aklGetSymbol, mirrors.symName]
  exact viaList

theorem findVariable (mirrors : Mirrors wf st lists) (intrusive : impl.Intrusive wf)
    (inv : lists.Inv) (name : Name) :
    st.findVariable (some name) = lists.findVariable (some name) := by
  obtain ⟨before, here, behind, place⟩ := inv.varPlace name
  have place' : SplitsAt (fun w => aklRbCmpSym (some name) (lists.varName w))
      (impl.elems st.aiGlobalVars) before here behind := by
    rw [mirrors.varElems]
    exact place
  have viaList := intrusive.find_list mirrors.varTree place'
  rw [mirrors.varElems] at viaList
  rw [Tables.findVariable, mirrors.varName]
  exact viaList

/-- A creator gives the same symbol, and a new symbol is at the same place. -/
theorem nameNewSymbol (mirrors : Mirrors wf st lists) (intrusive : impl.Intrusive wf)
    (inv : lists.Inv) (name : Name) (isCdef : Bool) :
    (st.nameNewSymbol name isCdef).1 = (lists.nameNewSymbol name isCdef).1 ∧
      Mirrors wf (st.nameNewSymbol name isCdef).2 (lists.nameNewSymbol name isCdef).2 := by
  have found := mirrors.aklGetSymbol intrusive inv name
  cases foundList : lists.aklGetSymbol name with
  | some sym =>
      rw [foundList] at found
      obtain ⟨mem, -⟩ := (inv.aklGetSymbol_iff (listImpl_lawful Nat)).mp foundList
      obtain ⟨n, nameEq⟩ := inv.named sym mem
      have nameEq' := nameEq
      rw [← mirrors.symName] at nameEq'
      simp only [Tables.nameNewSymbol, getOrCreateSymbol, found, foundList, nameEq, nameEq']
      exact ⟨trivial, mirrors⟩
  | none =>
      rw [foundList] at found
      rw [nameNewSymbol_new found, nameNewSymbol_new foundList]
      obtain ⟨before, here, behind, place⟩ := inv.symPlace name
      have empty : here = [] := by
        exact List.head?_eq_none_iff.mp ((listImpl_find place).symm.trans foundList)
      subst empty
      have placeNew : SplitsAt (lists.compareNew name) ((listImpl Nat).elems lists.aiSymbols)
          before [] behind := by
        apply place.congr
        intro s mem
        obtain ⟨n, nameEq⟩ := inv.named s mem
        rw [compareNew, withSymbol_new, nameEq, withSymbol_old name true nameEq]
      have compareEq : st.compareNew name = lists.compareNew name := by
        funext s
        simp only [compareNew, Tables.symName, withSymbol, mirrors.syms]
      have fresh : lists.syms.length ∉ impl.elems st.aiSymbols := by
        intro mem
        rw [mirrors.symElems] at mem
        obtain ⟨n, nameEq⟩ := inv.named _ mem
        exact Nat.lt_irrefl _ (symName_lt nameEq)
      rw [← mirrors.symElems] at placeNew
      obtain ⟨good, elems⟩ := intrusive.insert_list mirrors.symTree fresh placeNew
      refine ⟨by rw [mirrors.syms], ?_⟩
      refine ⟨?_, mirrors.vars, ?_, mirrors.varTree, ?_, mirrors.varElems⟩
      · simp only [created, withSymbol, mirrors.syms]
      · rw [created, compareEq, mirrors.syms]
        exact good
      · rw [created, compareEq, mirrors.syms, elems, mirrors.symElems]
        rfl

/-- A variable is written in both. -/
theorem writeVariable (mirrors : Mirrors wf st lists) (desc : Option (List Chr))
    (isCdesc : Bool) (v : VRef) (w : VarRef) :
    Mirrors wf (st.writeVariable desc isCdesc v w) (lists.writeVariable desc isCdesc v w) where
  syms := mirrors.syms
  vars := by rw [Tables.writeVariable, Tables.writeVariable, mirrors.vars]
  symTree := mirrors.symTree
  varTree := mirrors.varTree
  symElems := mirrors.symElems
  varElems := mirrors.varElems

/-- Storing writes the same variable, and a new variable is at the same place. -/
theorem aklSetGlobalVar (mirrors : Mirrors wf st lists) (intrusive : impl.Intrusive wf)
    (inv : lists.Inv) {sym : SymRef} (mem : sym ∈ (listImpl Nat).elems lists.aiSymbols)
    (desc : Option (List Chr)) (isCdesc : Bool) (v : VRef) :
    (st.aklSetGlobalVar sym desc isCdesc v).1 = (lists.aklSetGlobalVar sym desc isCdesc v).1 ∧
      Mirrors wf (st.aklSetGlobalVar sym desc isCdesc v).2
        (lists.aklSetGlobalVar sym desc isCdesc v).2 := by
  obtain ⟨n, symName⟩ := inv.named sym mem
  obtain ⟨inv₁, -, -, newName⟩ := inv.aklNewVar sym
  rw [symName] at newName
  have mirrors₁ : Mirrors wf (st.aklNewVar sym).2 (lists.aklNewVar sym).2 := by
    refine ⟨mirrors.syms, ?_, mirrors.symTree, mirrors.varTree, mirrors.symElems,
      mirrors.varElems⟩
    simp only [aklNewVar, mirrors.vars]
  have newName' : (st.aklNewVar sym).2.varName st.vars.length = some n := by
    rw [mirrors₁.varName, mirrors.vars]
    exact newName
  rw [aklSetGlobalVar_eq newName, aklSetGlobalVar_eq newName',
    mirrors₁.findVariable intrusive inv₁ n]
  cases found : (lists.aklNewVar sym).2.findVariable (some n) with
  | some w => exact ⟨rfl, mirrors₁.writeVariable desc isCdesc v w⟩
  | none =>
      obtain ⟨before, here, behind, place⟩ := inv₁.varPlace n
      have empty : here = [] := by
        exact List.head?_eq_none_iff.mp ((listImpl_find place).symm.trans found)
      subst empty
      have place' : SplitsAt (fun w => aklRbCmpSym (some n) ((lists.aklNewVar sym).2.varName w))
          (impl.elems st.aiGlobalVars) before [] behind := by
        rw [mirrors.varElems]
        exact place
      have fresh : lists.vars.length ∉ impl.elems st.aiGlobalVars := by
        intro mem
        rw [mirrors.varElems] at mem
        obtain ⟨var, found, -⟩ := inv.linked _ mem
        exact Nat.lt_irrefl _ (List.getElem?_eq_some_iff.mp found).1
      obtain ⟨good, elems⟩ := intrusive.insert_list mirrors.varTree fresh place'
      have withVar : Mirrors wf (st.withVariable (some n) sym)
          (lists.withVariable (some n) sym) := by
        refine ⟨mirrors.syms, mirrors₁.vars, mirrors.symTree, ?_, mirrors.symElems, ?_⟩
        · rw [withVariable, mirrors₁.varName, mirrors.vars]
          exact good
        · rw [withVariable, mirrors₁.varName, mirrors.vars, elems, mirrors.varElems]
          rfl
      refine ⟨mirrors.vars ▸ rfl, ?_⟩
      rw [mirrors.vars]
      exact withVar.writeVariable desc isCdesc v lists.vars.length

theorem keyOf (mirrors : Mirrors wf st lists) (op : TableOp) : st.keyOf op = lists.keyOf op := by
  cases op <;> simp only [Tables.keyOf, mirrors.symName]

theorem valid (mirrors : Mirrors wf st lists) (op : TableOp) : st.Valid op ↔ lists.Valid op := by
  cases op <;> simp only [Valid, mirrors.syms]

/-- A call answers the same on both. -/
theorem step (mirrors : Mirrors wf st lists) (intrusive : impl.Intrusive wf) (inv : lists.Inv)
    {op : TableOp} (valid : lists.Valid op) :
    (st.step op).1 = (lists.step op).1 ∧ Mirrors wf (st.step op).2 (lists.step op).2 := by
  cases op with
  | getSymbol name =>
      refine ⟨?_, mirrors⟩
      rw [Tables.step, mirrors.aklGetSymbol intrusive inv]
      rfl
  | newSymbol name isCname =>
      obtain ⟨same, mirrors'⟩ := mirrors.nameNewSymbol intrusive inv name isCname
      exact ⟨congrArg (fun sym => Answer.symbol (some sym)) same, mirrors'⟩
  | getOrCreateSymbol name =>
      obtain ⟨same, mirrors'⟩ := mirrors.nameNewSymbol intrusive inv name false
      exact ⟨congrArg (fun sym => Answer.symbol (some sym)) same, mirrors'⟩
  | setGlobalVar sym desc isCdesc v =>
      obtain ⟨same, mirrors'⟩ :=
        mirrors.aklSetGlobalVar intrusive inv (inv.inTree sym valid) desc isCdesc v
      exact ⟨congrArg (fun var => Answer.variable (some var)) same, mirrors'⟩
  | setGlobalVariable name isCname desc isCdesc v =>
      obtain ⟨sameSym, mirrors₁⟩ := mirrors.nameNewSymbol intrusive inv name isCname
      obtain ⟨sym, lists₁, ran, inv₁, mem, -, -⟩ :=
        inv.nameNewSymbol (listImpl_lawful Nat) name isCname
      rw [ran] at sameSym mirrors₁
      obtain ⟨same, mirrors'⟩ := mirrors₁.aklSetGlobalVar intrusive inv₁ mem desc isCdesc v
      simp only [Tables.step, aklSetGlobalVariable, aklNewSymbol, ran, sameSym]
      exact ⟨congrArg (fun var => Answer.variable (some var)) same, mirrors'⟩
  | getGlobalVar sym =>
      refine ⟨?_, mirrors⟩
      obtain ⟨n, nameEq⟩ := inv.named sym (inv.inTree sym valid)
      have nameEq' := nameEq
      rw [← mirrors.symName] at nameEq'
      simp only [Tables.step, aklGetGlobalVar, nameEq, nameEq',
        mirrors.findVariable intrusive inv]
  | getGlobalVariable name =>
      refine ⟨?_, mirrors⟩
      simp only [Tables.step, aklGetGlobalVariable, mirrors.findVariable intrusive inv]

end Mirrors

/-- A run on trees that link every node once is a run on the lists of their nodes. -/
theorem mirrored {impl : SetImpl Nat} {wf : impl.Tree → Prop} (intrusive : impl.Intrusive wf)
    {calls : List Call} {st : Tables impl} (run : Run impl calls st) :
    ∃ lists, Run (listImpl Nat) calls lists ∧ Mirrors wf st lists := by
  induction run with
  | init =>
      exact ⟨Tables.init (listImpl Nat), .init, rfl, rfl, intrusive.wf_empty,
        intrusive.wf_empty, intrusive.elems_empty, intrusive.elems_empty⟩
  | step run op valid ih =>
      obtain ⟨lists, runLists, mirrors⟩ := ih
      have valid' := (mirrors.valid op).mp valid
      obtain ⟨same, mirrors'⟩ := mirrors.step intrusive
        (Tables.holds_of_run (listImpl_lawful Nat) runLists).inv valid'
      refine ⟨_, ?_, mirrors'⟩
      rw [same, mirrors.keyOf]
      exact runLists.step op valid'

/-- In a run on the vendored trees the symbols and the variables stand in the order of
their names. -/
theorem inOrder_of_run {calls : List Call} {st : Tables rbImpl} (run : Run rbImpl calls st) :
    ∃ lists : Tables (listImpl Nat), Run (listImpl Nat) calls lists ∧
      Mirrors (fun tree => ∃ xs, InOrder tree xs) st lists ∧
      InOrder st.aiSymbols ((listImpl Nat).elems lists.aiSymbols) ∧
      InOrder st.aiGlobalVars ((listImpl Nat).elems lists.aiGlobalVars) := by
  obtain ⟨lists, runLists, mirrors⟩ := mirrored rbImpl_intrusive run
  refine ⟨lists, runLists, mirrors, ?_, ?_⟩
  · obtain ⟨syms, symTree⟩ := mirrors.symTree
    rw [← mirrors.symElems, symTree.elems]
    exact symTree
  · obtain ⟨vars, varTree⟩ := mirrors.varTree
    rw [← mirrors.varElems, varTree.elems]
    exact varTree

/-- What a name finds in a run is what was stored last under it. -/
theorem lookup_of_run {calls : List Call} {st : Tables rbImpl} (run : Run rbImpl calls st)
    (name : Name) :
    st.valueOf (st.aklGetGlobalVariable name) = lastStored name.symbol calls ∧
      (st.aklGetGlobalVariable name = none ↔ lastStored name.symbol calls = none) := by
  obtain ⟨lists, runLists, mirrors, -, -⟩ := inOrder_of_run run
  have holds := Tables.holds_of_run (listImpl_lawful Nat) runLists
  rw [aklGetGlobalVariable, mirrors.findVariable rbImpl_intrusive holds.inv, valueOf, mirrors.vars]
  exact holds.lookup (listImpl_lawful Nat) name.symbol_sbName

end Tables

section Run

variable {calls : List Call} {st : Tables rbImpl}

/-- The symbols and globals in the vendored trees: in every run both trees are red-black
trees in the order of the names, and they are one map that ignores case. -/
theorem vendored_symbols_and_globals (run : Run rbImpl calls st) :
    (∃ syms, InOrder st.aiSymbols syms ∧ Sorted strcmp st.symKey syms ∧
      ∀ s, s ∈ syms ↔ s < st.syms.length) ∧
    (∃ vars, InOrder st.aiGlobalVars vars ∧ Sorted strcmp st.varKey vars) ∧
    (∀ call ∈ calls, ∀ s, call.answer = .symbol (some s) →
      ∀ name : Name, st.aklGetSymbol name = some s ↔ name.symbol = call.key) ∧
    ∀ name : Name, st.valueOf (st.aklGetGlobalVariable name) = lastStored name.symbol calls ∧
      (st.aklGetGlobalVariable name = none ↔ lastStored name.symbol calls = none) := by
  obtain ⟨lists, runLists, mirrors, symTree, varTree⟩ := Tables.inOrder_of_run run
  have holds := Tables.holds_of_run (listImpl_lawful Nat) runLists
  refine ⟨⟨_, symTree, ?_, mirrors.mem_syms holds.inv⟩, ⟨_, varTree, ?_⟩, ?_,
    Tables.lookup_of_run run⟩
  · rw [mirrors.symKey]
    exact holds.inv.symSorted
  · rw [mirrors.varKey]
    exact holds.inv.varSorted
  · intro call mem s answer name
    rw [mirrors.aklGetSymbol rbImpl_intrusive holds.inv]
    exact holds.symbols (listImpl_lawful Nat) mem answer name

theorem vendored_symbols_and_globals_twice :
    (∃ vars, InOrder (storedTwice rbImpl).aiGlobalVars vars ∧
      Sorted strcmp (storedTwice rbImpl).varKey vars) ∧
    (storedTwice rbImpl).valueOf ((storedTwice rbImpl).aklGetGlobalVariable lowerA) = some 9 ∧
      (storedTwice rbImpl).aklGetGlobalVariable lowerB = none := by
  have facts := vendored_symbols_and_globals
    (((Run.init.step (.setGlobalVariable lowerA true none false 7) trivial).step
      (.newSymbol lowerB true) trivial).step (.setGlobalVariable upperA true none false 9) trivial)
  exact ⟨facts.2.1, (facts.2.2.2 lowerA).1.trans (by decide +kernel),
    (facts.2.2.2 lowerB).2.mpr (by decide +kernel)⟩

/-- The search for a name follows at most twice the logarithm of the number of nodes. -/
theorem lookups_logarithmic (run : Run rbImpl calls st) (name : Name) :
    (∃ head n, st.aiSymbols = some head ∧ n = (rbImpl.elems st.aiSymbols).length ∧
      rbFind (2 * Nat.log 2 (n + 1)) (fun s => aklRbCmpSym (some name) (st.symName s)) head =
        some (st.aklGetSymbol name)) ∧
    ∃ head n, st.aiGlobalVars = some head ∧ n = (rbImpl.elems st.aiGlobalVars).length ∧
      rbFind (2 * Nat.log 2 (n + 1)) (fun w => aklRbCmpSym (some name) (st.varName w)) head =
        some (st.aklGetGlobalVariable name) := by
  obtain ⟨lists, runLists, mirrors, symTree, varTree⟩ := Tables.inOrder_of_run run
  have inv := (Tables.holds_of_run (listImpl_lawful Nat) runLists).inv
  obtain ⟨before, here, behind, place⟩ := inv.symPlace name
  obtain ⟨before', here', behind', place'⟩ := inv.varPlace name
  rw [← mirrors.symName] at place
  rw [← mirrors.varName] at place'
  constructor
  · have found : st.aklGetSymbol name = here.head? := symTree.find place
    rw [symTree.elems, found]
    obtain ⟨head, t, treeEq, holds, redBlack, elems⟩ := symTree
    rw [← elems] at place ⊢
    exact ⟨head, _, treeEq, rfl, rbFind_eq holds place redBlack.height_le⟩
  · have found : st.aklGetGlobalVariable name = here'.head? := varTree.find place'
    rw [varTree.elems, found]
    obtain ⟨head, t, treeEq, holds, redBlack, elems⟩ := varTree
    rw [← elems] at place' ⊢
    exact ⟨head, _, treeEq, rfl, rbFind_eq holds place' redBlack.height_le⟩

theorem isStringChar_ab : ∀ ch ∈ [code 'a', code 'b'], IsStringChar ch := by
  simp [IsStringChar, code]

/-- The name `ab`. -/
def lowerAB : Name := ⟨[code 'a', code 'b'], isStringChar_ab⟩

/-- Three symbols; a value is stored under two of them. -/
def threeNames : Tables rbImpl :=
  ((((Tables.init rbImpl).step (.newSymbol lowerB true)).2.step
    (.setGlobalVariable lowerAB true none false 3)).2.step
      (.setGlobalVariable upperA true none false 7)).2

theorem threeNames_run :
    ∃ calls, Run rbImpl calls threeNames ∧ lastStored lowerAB.symbol calls = some 3 ∧
      lastStored upperA.symbol calls = some 7 ∧ lastStored lowerB.symbol calls = none :=
  ⟨_, ((Run.init.step (.newSymbol lowerB true) trivial).step
    (.setGlobalVariable lowerAB true none false 3) trivial).step
      (.setGlobalVariable upperA true none false 7) trivial,
    by decide +kernel, by decide +kernel, by decide +kernel⟩

theorem lookups_logarithmic_three :
    (∃ head, threeNames.aiSymbols = some head ∧
      rbFind 4 (fun s => aklRbCmpSym (some lowerA) (threeNames.symName s)) head =
        some (some 2)) ∧
    ∃ head, threeNames.aiGlobalVars = some head ∧
      rbFind 2 (fun w => aklRbCmpSym (some lowerA) (threeNames.varName w)) head =
        some (some 1) := by
  rcases threeNames_run with ⟨calls, run, -⟩
  rcases lookups_logarithmic run lowerA with
    ⟨⟨symHead, n, symEq, symCount, symFound⟩, varHead, k, varEq, varCount, varFound⟩
  have three : n = 3 := symCount.trans (by decide +kernel)
  have two : k = 2 := varCount.trans (by decide +kernel)
  subst three two
  exact ⟨⟨symHead, symEq, symFound.trans (by decide +kernel)⟩, varHead, varEq,
    varFound.trans (by decide +kernel)⟩

end Run

end AkLisp
