import AkLisp.State.SymbolTrees

/-!
# Walks over the symbols and the globals

The interpreter calls a function on every symbol or variable, and the prompt completes a
text by walking over the tree from where it stopped at the call before.  Both see every
name once, in order.
-/

namespace AkLisp

open Ordered

/-- `akl_do_on_all_syms` -/
def aklDoOnAllSyms {σ : Type} (st : Tables rbImpl) (fn : σ → SymRef → σ) (s : σ) : Option σ :=
  st.aiSymbols.bind fun head => rbForeach (head.bound + 1) fn head s

/-- `akl_do_on_all_vars` -/
def aklDoOnAllVars {σ : Type} (st : Tables rbImpl) (fn : σ → VarRef → σ) (s : σ) : Option σ :=
  st.aiGlobalVars.bind fun head => rbForeach (head.bound + 1) fn head s

/-- `strncasecmp` -/
def strncasecmp (a b : List Chr) (n : Nat) : Int := strcasecmp (a.take n) (b.take n)

/-- The static variables of a generator. -/
structure Generator where
  cursor : Option NodeRef
  tlen : Nat

/-- The loop of a generator: the next node whose name begins with the text.  Names are
not `NULL`. -/
def generatorLoop (nameOf : NodeRef → Option Name) (fuel : Nat) (head : RbHead)
    (text : List Chr) (tlen : Nat) : Nat → Option NodeRef →
    Option (Option Name × Option NodeRef)
  | _, none => some (none, none)
  | 0, some _ => none
  | rounds + 1, some x => do
      let name ← nameOf x
      if strncasecmp name.text text tlen = 0 then some (some name, some x)
      else do
        let next ← rbNext fuel head x
        generatorLoop nameOf fuel head text tlen rounds next

/-- The generators of the completion.  A call with `state` 0 starts at the least node. -/
def aklGenerator (nameOf : NodeRef → Option Name) (tree : Option RbHead) (text : List Chr)
    (state : Int) (gen : Generator) : Option (Option Name × Generator) := do
  let head ← tree
  let fuel := head.bound + 1
  let gen ←
    if state = 0 then do
      let first ← rbMin fuel head
      some (Generator.mk first text.length)
    else do
      let x ← gen.cursor
      let next ← rbNext fuel head x
      some { gen with cursor := next }
  let (name, cursor) ← generatorLoop nameOf fuel head text gen.tlen fuel gen.cursor
  some (name, { gen with cursor })

/-- `akl_symbol_generator` -/
def aklSymbolGenerator (st : Tables rbImpl) : List Chr → Int → Generator →
    Option (Option Name × Generator) :=
  aklGenerator st.symName st.aiSymbols

/-- `akl_var_generator` -/
def aklVarGenerator (st : Tables rbImpl) : List Chr → Int → Generator →
    Option (Option Name × Generator) :=
  aklGenerator st.varName st.aiGlobalVars

/-- The answers of a generator that is called until it gives `NULL`, first with the given
state and then with 1. -/
def untilNull (generator : Int → Generator → Option (Option Name × Generator)) : Nat → Int →
    Generator → Option (List Name)
  | 0, _, _ => none
  | rounds + 1, state, gen => do
      let (name, gen) ← generator state gen
      match name with
      | none => some []
      | some name => do
          let names ← untilNull generator rounds 1 gen
          some (name :: names)

/-- The name begins with the text, without regard to case. -/
def Name.begins (name text : Name) : Bool := text.folded.isPrefixOf name.folded

theorem strncasecmp_iff (name text : Name) :
    strncasecmp name.text text.text text.text.length = 0 ↔ name.begins text := by
  have chars : ∀ ch ∈ name.folded.take text.text.length, IsStringChar ch := fun ch mem =>
    name.folded_chars ch (List.mem_of_mem_take mem)
  have length : text.text.length = text.folded.length := by simp [Name.folded]
  rw [strncasecmp, strcasecmp, List.take_length, List.map_take, Name.begins,
    List.isPrefixOf_iff_prefix, List.prefix_iff_eq_take, ← length]
  exact (strcmp_eq_zero chars text.folded_chars).trans eq_comm

section Walk

variable {nameOf : NodeRef → Option Name} {head : RbHead} {t : BinTree NodeRef} {fuel : Nat}
  (text : Name)

/-- The names of these nodes that begin with the text. -/
def matching (nameOf : NodeRef → Option Name) (text : Name) (xs : List NodeRef) : List Name :=
  (xs.filterMap nameOf).filter fun name => name.begins text

/-- The loop stops at the next match, and the nodes behind it hold the other matches. -/
theorem generatorLoop_spec {done todo : List NodeRef} (holds : head.Holds t)
    (parts : t.elems = done ++ todo) (named : ∀ x ∈ t.elems, ∃ name, nameOf x = some name)
    (enough : t.height < fuel) {rounds : Nat} (count : todo.length ≤ rounds) :
    (generatorLoop nameOf fuel head text.text text.text.length rounds todo.head? =
        some (none, none) ∧ matching nameOf text todo = []) ∨
      ∃ name x done' todo', generatorLoop nameOf fuel head text.text text.text.length rounds
          todo.head? = some (some name, some x) ∧ t.elems = done' ++ x :: todo' ∧
        matching nameOf text todo = name :: matching nameOf text todo' ∧
        todo'.length < todo.length := by
  induction todo generalizing done rounds with
  | nil =>
      left
      rw [List.head?_nil, generatorLoop]
      exact ⟨rfl, rfl⟩
  | cons x todo ih =>
      rw [List.length_cons] at count
      obtain ⟨rounds, rfl⟩ : ∃ n, rounds = n + 1 := ⟨rounds - 1, by omega⟩
      obtain ⟨name, nameEq⟩ := named x (by simp [parts])
      rw [List.head?_cons, generatorLoop, nameEq, Option.bind_eq_bind, Option.bind_some]
      by_cases begins : name.begins text
      · right
        refine ⟨name, x, done, todo, if_pos ((strncasecmp_iff name text).mpr begins), parts, ?_,
          by simp⟩
        simp [matching, nameEq, begins]
      · have skipped : matching nameOf text (x :: todo) = matching nameOf text todo := by
          simp [matching, nameEq, begins]
        rw [if_neg fun zero => begins ((strncasecmp_iff name text).mp zero),
          rbNext_at holds parts enough, Option.bind_eq_bind, Option.bind_some, skipped]
        have parts' : t.elems = (done ++ [x]) ++ todo := by simp [parts]
        rcases ih parts' (show todo.length ≤ rounds by omega) with
          ended | ⟨name', x', done', todo', ran, parts', rest, shorter⟩
        · exact Or.inl ended
        · exact Or.inr ⟨name', x', done', todo', ran, parts', rest, by
            rw [List.length_cons]
            omega⟩

/-- A call that goes on behind a node, and the calls that follow. -/
theorem untilNull_behind {done todo : List NodeRef} {x : NodeRef} (holds : head.Holds t)
    (parts : t.elems = done ++ x :: todo)
    (named : ∀ x ∈ t.elems, ∃ name, nameOf x = some name) (enough : t.elems.length ≤ head.bound)
    {rounds : Nat} (count : todo.length < rounds) :
    untilNull (aklGenerator nameOf (some head) text.text) rounds 1
      ⟨some x, text.text.length⟩ = some (matching nameOf text todo) := by
  have high := t.height_le_length
  have fewer : todo.length < t.elems.length := by
    simp only [parts, List.length_append, List.length_cons]
    omega
  induction rounds generalizing done x todo with
  | zero => omega
  | succ rounds ih =>
      have high' : t.height < head.bound + 1 := by omega
      have next := rbNext_at holds parts high'
      have parts' : t.elems = (done ++ [x]) ++ todo := by simp [parts]
      have few : todo.length ≤ head.bound + 1 := by omega
      rw [untilNull, aklGenerator]
      simp only [Option.bind_eq_bind, Option.bind_some, Int.reduceEq, if_false, next]
      rcases generatorLoop_spec text holds parts' named high' few with
        ⟨ran, none⟩ | ⟨name, x', done', todo', ran, parts', rest, shorter⟩
      · simp only [ran, Option.bind_some, none]
      · have others := ih parts' (by omega) (by
          simp only [parts', List.length_append, List.length_cons]
          omega)
        simp only [ran, Option.bind_some, others, rest]

/-- The calls from the first one on. -/
theorem untilNull_all (holds : head.Holds t)
    (named : ∀ x ∈ t.elems, ∃ name, nameOf x = some name) (enough : t.elems.length ≤ head.bound)
    (gen : Generator) :
    untilNull (aklGenerator nameOf (some head) text.text) (head.bound + 1) 0 gen =
      some (matching nameOf text t.elems) := by
  have high := t.height_le_length
  have high' : t.height < head.bound + 1 := by omega
  have first := rbMin_eq holds (Nat.le_of_lt high')
  have whole : t.elems = [] ++ t.elems := rfl
  have few : t.elems.length ≤ head.bound + 1 := by omega
  rw [untilNull, aklGenerator]
  simp only [Option.bind_eq_bind, Option.bind_some, if_true, first]
  rcases generatorLoop_spec text holds whole named high' few with
    ⟨ran, none⟩ | ⟨name, x, done, todo, ran, parts, rest, shorter⟩
  · simp only [ran, Option.bind_some, none]
  · have others := untilNull_behind text holds parts named enough
      (show todo.length < head.bound by omega)
    simp only [ran, Option.bind_some, others, rest]

end Walk

/-! ### Walks in every run -/

section Run

variable {calls : List Call} {st : Tables rbImpl}

/-- `akl_do_on_all_syms` calls the function on every symbol once, in the order of the
names, and `akl_do_on_all_vars` on every variable, of which there is one for each name that
was stored under. -/
theorem do_on_all_in_order (run : Run rbImpl calls st) :
    (∃ syms : List SymRef, syms.Nodup ∧ (∀ s, s ∈ syms ↔ s < st.syms.length) ∧
      Sorted strcmp st.symKey syms ∧
      ∀ (σ : Type) (fn : σ → SymRef → σ) (s : σ),
        aklDoOnAllSyms st fn s = some (syms.foldl fn s)) ∧
    ∃ vars : List VarRef, (vars.map st.varSymbol).Nodup ∧
      (∀ x, (∃ w ∈ vars, st.varSymbol w = x) ↔ lastStored x calls ≠ none) ∧
      Sorted strcmp st.varKey vars ∧
      ∀ (σ : Type) (fn : σ → VarRef → σ) (s : σ),
        aklDoOnAllVars st fn s = some (vars.foldl fn s) := by
  obtain ⟨lists, runLists, mirrors, ⟨symHead, symTree, symEq, symHolds, -, symElems⟩,
    ⟨varHead, varTree, varEq, varHolds, -, varElems⟩⟩ := Tables.inOrder_of_run run
  have holds := Tables.holds_of_run (listImpl_lawful Nat) runLists
  have varSymbol : st.varSymbol = lists.varSymbol := by
    funext w
    rw [Tables.varSymbol, Tables.varSymbol, mirrors.varName]
  constructor
  · refine ⟨symTree.elems, symHolds.nodup, ?_, ?_, ?_⟩
    · rw [symElems]
      exact mirrors.mem_syms holds.inv
    · rw [symElems, mirrors.symKey]
      exact holds.inv.symSorted
    · intro σ fn s
      rw [aklDoOnAllSyms, symEq, Option.bind_some]
      exact rbForeach_eq symHolds (Nat.lt_succ_of_le (InOrder.length_le symHolds)) fn s
  · refine ⟨varTree.elems, ?_, ?_, ?_, ?_⟩
    · rw [varElems, varSymbol]
      exact holds.inv.varSymbols_nodup
    · intro x
      rw [varElems, varSymbol, ← Option.isSome_iff_ne_none, Option.isSome_iff_exists]
      constructor
      · rintro ⟨w, mem, rfl⟩
        obtain ⟨var, found, -, isSome⟩ := holds.inv.linked w mem
        obtain ⟨v, value⟩ := Option.isSome_iff_exists.mp isSome
        refine ⟨v, (holds.values _ v).mpr ⟨w, mem, (lists.varSymbol_sbName w).symm, ?_⟩⟩
        rw [found, Option.bind_some, value]
      · rintro ⟨v, last⟩
        obtain ⟨w, mem, key, -⟩ := (holds.values x v).mp last
        exact ⟨w, mem, Symbol.eq_iff.mpr ((lists.varSymbol_sbName w).trans key)⟩
    · rw [varElems, mirrors.varKey]
      exact holds.inv.varSorted
    · intro σ fn s
      rw [aklDoOnAllVars, varEq, Option.bind_some]
      exact rbForeach_eq varHolds (Nat.lt_succ_of_le (InOrder.length_le varHolds)) fn s

theorem do_on_all_in_order_three :
    (Sorted strcmp threeNames.symKey [2, 1, 0] ∧
      ∀ (σ : Type) (fn : σ → SymRef → σ) (s : σ),
        aklDoOnAllSyms threeNames fn s = some ([2, 1, 0].foldl fn s)) ∧
    Sorted strcmp threeNames.varKey [1, 0] ∧
      ∀ (σ : Type) (fn : σ → VarRef → σ) (s : σ),
        aklDoOnAllVars threeNames fn s = some ([1, 0].foldl fn s) := by
  rcases threeNames_run with ⟨calls, run, -⟩
  rcases do_on_all_in_order run with
    ⟨⟨syms, -, -, symSorted, symWalk⟩, vars, -, -, varSorted, varWalk⟩
  have symsEq : syms = [2, 1, 0] := by
    have walk : aklDoOnAllSyms threeNames (fun xs x => x :: xs) [] = some [0, 1, 2] := by
      decide +kernel
    rw [symWalk, List.foldl_flip_cons_eq_append, List.append_nil, List.map_id'] at walk
    exact List.reverse_eq_iff.mp (Option.some.inj walk)
  have varsEq : vars = [1, 0] := by
    have walk : aklDoOnAllVars threeNames (fun xs x => x :: xs) [] = some [0, 1] := by
      decide +kernel
    rw [varWalk, List.foldl_flip_cons_eq_append, List.append_nil, List.map_id'] at walk
    exact List.reverse_eq_iff.mp (Option.some.inj walk)
  subst symsEq varsEq
  exact ⟨⟨symSorted, symWalk⟩, varSorted, varWalk⟩

theorem mem_matching {nameOf : NodeRef → Option Name} {text n : Name} {xs : List NodeRef} :
    n ∈ matching nameOf text xs ↔ n.begins text ∧ ∃ x ∈ xs, nameOf x = some n := by
  rw [matching, List.mem_filter, List.mem_filterMap]
  exact and_comm

theorem matching_sorted {nameOf : NodeRef → Option Name} {key : NodeRef → List Chr} {text : Name}
    {xs : List NodeRef} (keys : ∀ x n, nameOf x = some n → key x = n.folded)
    (sorted : Sorted strcmp key xs) :
    (matching nameOf text xs).Pairwise fun a b => strcmp a.folded b.folded < 0 := by
  apply List.Pairwise.filter
  apply List.pairwise_filterMap.mpr
  apply sorted.imp
  intro x y less a atX b atY
  rw [← keys x a atX, ← keys y b atY]
  exact less

/-- The completion of a text gives the names that begin with it, without regard to case:
every symbol, or every symbol that a value was stored under, once and in order, and then
`NULL`. -/
theorem completions (run : Run rbImpl calls st) (text : Name) (gen : Generator) :
    (∃ rounds names, untilNull (aklSymbolGenerator st text.text) rounds 0 gen = some names ∧
      (names.Pairwise fun a b => strcmp a.folded b.folded < 0) ∧
      ∀ n, n ∈ names ↔ n.begins text ∧ ∃ s < st.syms.length, st.symName s = some n) ∧
    ∃ rounds names, untilNull (aklVarGenerator st text.text) rounds 0 gen = some names ∧
      (names.Pairwise fun a b => strcmp a.folded b.folded < 0) ∧
      ∀ n, n ∈ names ↔ n.begins text ∧ lastStored n.symbol calls ≠ none ∧
        ∃ s < st.syms.length, st.symName s = some n := by
  obtain ⟨lists, runLists, mirrors, ⟨symHead, symTree, symEq, symHolds, -, symElems⟩,
    ⟨varHead, varTree, varEq, varHolds, -, varElems⟩⟩ := Tables.inOrder_of_run run
  have holds := Tables.holds_of_run (listImpl_lawful Nat) runLists
  have symLength := InOrder.length_le symHolds
  have varLength := InOrder.length_le varHolds
  have inTree := mirrors.mem_syms holds.inv
  rw [aklSymbolGenerator, aklVarGenerator, symEq, varEq, mirrors.symName, mirrors.varName]
  constructor
  · refine ⟨_, _, untilNull_all text symHolds ?_ symLength gen, ?_, ?_⟩
    · rw [symElems]
      exact holds.inv.named
    · apply matching_sorted (fun s n name => Tables.symKey_of_name name)
      rw [symElems]
      exact holds.inv.symSorted
    · intro n
      rw [mem_matching, symElems]
      simp only [inTree]
  · refine ⟨_, _, untilNull_all text varHolds ?_ varLength gen, ?_, ?_⟩
    · rw [varElems]
      exact fun w mem => holds.inv.varName mem
    · apply matching_sorted (fun w n name => Tables.varKey_of_name name)
      rw [varElems]
      exact holds.inv.varSorted
    · intro n
      rw [mem_matching, varElems]
      refine and_congr_right fun _ => ?_
      constructor
      · rintro ⟨w, mem, name⟩
        obtain ⟨var, found, linked, isSome⟩ := holds.inv.linked w mem
        obtain ⟨v, value⟩ := Option.isSome_iff_exists.mp isSome
        have last := (holds.values n.symbol v).mpr ⟨w, mem, Tables.varKey_of_name name, by
          rw [found, Option.bind_some, value]⟩
        refine ⟨by simp [last], var.vrSymbol, (inTree _).mp linked, ?_⟩
        rwa [Tables.varName, found, Option.bind_some] at name
      · rintro ⟨stored, s, bound, name⟩
        obtain ⟨v, last⟩ := Option.ne_none_iff_exists'.mp stored
        obtain ⟨w, mem, key, -⟩ := (holds.values n.symbol v).mp last
        obtain ⟨n', name'⟩ := holds.inv.varName mem
        obtain ⟨var, found, linked, -⟩ := holds.inv.linked w mem
        have nameSym := name'
        rw [Tables.varName, found, Option.bind_some] at nameSym
        -- the symbol of the variable is the symbol of the name
        have foundS := (holds.inv.aklGetSymbol_iff (listImpl_lawful Nat)).mpr
          ⟨(inTree s).mpr bound, Tables.symKey_of_name name⟩
        rw [(holds.inv.aklGetSymbol_iff (listImpl_lawful Nat)).mpr
          ⟨linked, (Tables.symKey_of_name nameSym).trans
            ((Tables.varKey_of_name name').symm.trans key)⟩] at foundS
        rw [Option.some.inj foundS, name] at nameSym
        rw [← nameSym] at name'
        exact ⟨w, mem, name'⟩

theorem threeNames_symName (n : Name) :
    (∃ s < threeNames.syms.length, threeNames.symName s = some n) ↔
      n = lowerB ∨ n = lowerAB ∨ n = upperA := by
  have count : threeNames.syms.length = 3 := by decide +kernel
  have first : threeNames.symName 0 = some lowerB := rfl
  have second : threeNames.symName 1 = some lowerAB := rfl
  have third : threeNames.symName 2 = some upperA := rfl
  rw [count]
  constructor
  · rintro ⟨s, bound, name⟩
    rcases (show s = 0 ∨ s = 1 ∨ s = 2 by omega) with rfl | rfl | rfl
    · exact Or.inl (Option.some.inj (name.symm.trans first))
    · exact Or.inr (Or.inl (Option.some.inj (name.symm.trans second)))
    · exact Or.inr (Or.inr (Option.some.inj (name.symm.trans third)))
  · rintro (rfl | rfl | rfl)
    · exact ⟨0, by decide, first⟩
    · exact ⟨1, by decide, second⟩
    · exact ⟨2, by decide, third⟩

/-- Names in order are known from their members. -/
theorem names_eq_of_mem_iff {names others : List Name}
    (sorted : names.Pairwise fun a b => strcmp a.folded b.folded < 0)
    (sorted' : others.Pairwise fun a b => strcmp a.folded b.folded < 0)
    (mem : ∀ n, n ∈ names ↔ n ∈ others) : names = others := by
  have apart : ∀ a b : Name, strcmp a.folded b.folded < 0 → a ≠ b := by
    rintro a b less rfl
    have more := strcmp_isOrder.neg_iff.mp less
    omega
  have perm : names.Perm others :=
    (List.perm_ext_iff_of_nodup (sorted.imp (apart _ _)) (sorted'.imp (apart _ _))).mpr mem
  refine perm.eq_of_pairwise ?_ sorted sorted'
  intro a b _ _ less less'
  have more := strcmp_isOrder.neg_iff.mp less'
  omega

theorem completions_three :
    (∃ rounds, untilNull (aklSymbolGenerator threeNames lowerA.text) rounds 0 ⟨some 1, 9⟩ =
      some [upperA, lowerAB]) ∧
    ∃ rounds, untilNull (aklVarGenerator threeNames []) rounds 0 ⟨none, 0⟩ =
      some [upperA, lowerAB] := by
  rcases threeNames_run with ⟨calls, run, storedAB, storedA, storedB⟩
  have order : [upperA, lowerAB].Pairwise fun a b => strcmp a.folded b.folded < 0 := by
    decide +kernel
  constructor
  · rcases completions run lowerA ⟨some 1, 9⟩ with ⟨⟨rounds, names, ran, sorted, mem⟩, -⟩
    refine ⟨rounds, ran.trans (congrArg some (names_eq_of_mem_iff sorted order fun n => ?_))⟩
    rw [mem, threeNames_symName, List.mem_cons, List.mem_singleton]
    constructor
    · rintro ⟨begins, rfl | rfl | rfl⟩
      · exact absurd begins (by decide +kernel)
      · exact Or.inr rfl
      · exact Or.inl rfl
    · rintro (rfl | rfl)
      · exact ⟨by decide +kernel, Or.inr (Or.inr rfl)⟩
      · exact ⟨by decide +kernel, Or.inr (Or.inl rfl)⟩
  · rcases completions run ⟨[], by simp⟩ ⟨none, 0⟩ with ⟨-, rounds, names, ran, sorted, mem⟩
    refine ⟨rounds, ran.trans (congrArg some (names_eq_of_mem_iff sorted order fun n => ?_))⟩
    rw [mem, threeNames_symName, List.mem_cons, List.mem_singleton]
    constructor
    · rintro ⟨-, stored, rfl | rfl | rfl⟩
      · exact absurd storedB stored
      · exact Or.inr rfl
      · exact Or.inl rfl
    · rintro (rfl | rfl)
      · exact ⟨by decide +kernel, by simp [storedA], Or.inr (Or.inr rfl)⟩
      · exact ⟨by decide +kernel, by simp [storedAB], Or.inr (Or.inl rfl)⟩

end Run

end AkLisp
