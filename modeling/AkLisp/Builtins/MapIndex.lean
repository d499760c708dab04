import AkLisp.Builtins.Mapping

/-!
# Mapping with an index

`map-index` pushes the index and the element and calls the function with one argument.
The function gets the element alone, and what it leaves is popped from above the index,
which stays on the stack.
-/

namespace AkLisp

open Linked Machine CProg

/-- From `m` on the built-in calls `fn` on each index and its element in order, returns the
list of the values, and leaves that list on `cells`. -/
def MapsIndexed (m : Machine) (fn : FRef) (rest : List Activation) (cells : List (Cell VRef))
    (xs : List VRef) : Prop :=
  ∃ calls m' v a inds, Trace fn rest m calls m' ∧ m'.control = resume (some v) rest ∧
    calls.map Prod.fst = List.zipWith (fun ind x => [ind, x]) inds xs ∧
    inds.map m'.data.payload = (List.range xs.length).map (fun i => some (.number i)) ∧
    ListResult m'.data v (calls.map Prod.snd) ∧ m'.stack.Holds (cells ++ [(a, v)])

/-- The number that is made for an index. -/
def Data.numbered (d : Data) (i : Nat) : Data := (d.newValue ⟨.number i, false, false⟩).2

/-- The calls of `map-index`: each on the element, above the indices `inds`. -/
inductive IndexCalls (gives : List VRef → List VRef → Data → VRef → Data → Prop)
    (keeps : Data → Data → Prop) (nl : LRef) :
    List VRef → List VRef → Data → List VRef → Data → Prop where
  | nil {inds : List VRef} {d : Data} : IndexCalls gives keeps nl inds [] d [] d
  | cons {inds : List VRef} {x : VRef} {xs : List VRef} {w : VRef} {ws : List VRef}
      {d d₁ d' : Data}
      (call : gives (inds ++ [d.values.length]) [x] (d.numbered inds.length) w d₁)
      (kept : keeps (d.numbered inds.length) d₁) (keptNew : KeepsNew nl (d.numbered inds.length) d₁)
      (rest : IndexCalls gives keeps nl (inds ++ [d.values.length]) xs
        (d₁.listAppendPopped nl (some w)) ws d') :
      IndexCalls gives keeps nl inds (x :: xs) d (w :: ws) d'

namespace Machine

variable {m m' : Machine} {funs : List AklFunction} {d d' : Data} {cells new : List (Cell VRef)}
  {cx : Context} {rest : List Activation} {fn builtin : FRef} {l nl : LRef} {as bs : List Addr}
  {xs ws : List VRef} {it : Option Addr} {lv fv : VRef}

theorem resume_length (value : Option VRef) (rest : List Activation) :
    (resume value rest).length = rest.length := by
  cases rest with
  | nil => rfl
  | cons act rest => cases act <;> rfl

theorem resume_final {value : Option VRef} (returned : m'.control = resume value rest)
    (cx : Context) (prog : CProg) : m'.control ≠ .cfun cx prog :: rest := by
  intro equal
  have lengths := congrArg List.length (returned.symm.trans equal)
  rw [resume_length, List.length_cons] at lengths
  omega

/-- Up to the loop. -/
theorem At.enterMapIndex {rounds : Nat}
    (found : funs[builtin]? = some (.cfun (aklFnMapIndex rounds)))
    (list : d.payload lv = some (.list l)) (function : d.payload fv = some (.function fn))
    (values : new.map Prod.snd = [lv, fv]) (at_ : m.At funs d (cells ++ new) m.control)
    (name : String) (rest : List Activation) :
    ∃ m' cx, Trace fn rest (m.aklCallFunctionBound name builtin 2 rest) [] m' ∧
      FrameOn cx.cxFrame ([] : List (Cell VRef)) ∧
      m'.At funs (d.newList.2.quoteList d.newList.1) cells (.cfun cx
        (AkLisp.mapIndexLoop fn d.newList.1 rounds 0
          (d.lists.getD l aklInitList).liHead) :: rest) := by
  have typed : TypedAs d [.list, .function] [lv, fv] (l, fn, ()) := by
    simp [TypedAs, ArgType.get, list, function]
  obtain ⟨m₁, cx, taken, on, at₁⟩ :=
    at_.enter found (by simp) values (by simp) typed fn name rest
  obtain ⟨m₂, read, at₂⟩ := at₁.own_read fn
  obtain ⟨m₃, made, at₃⟩ := at₂.newQuotedList fn
  exact ⟨m₃, cx, (taken.trans read).trans made, on, at₃⟩

/-- At the end of the list the loop is left. -/
theorem At.mapIndexLoop_nil {rounds ind : Nat}
    (at_ : m.At funs d cells (.cfun cx (AkLisp.mapIndexLoop fn nl (rounds + 1) ind it) :: rest))
    (ahead : Ahead d l as it []) :
    ∃ m', Trace fn rest m [] m' ∧ m'.At funs d cells (.cfun cx (CProg.returnList nl) :: rest) := by
  rw [AkLisp.mapIndexLoop] at at_
  obtain ⟨m', trace, at'⟩ := at_.own_read fn
  rw [ahead.next_nil] at at'
  exact ⟨m', trace, at'⟩

/-- Before the end a round comes to the call, with the index and the element pushed. -/
theorem At.mapIndexLoop_cons {rounds ind : Nat} {x : VRef}
    (at_ : m.At funs d cells (.cfun cx (AkLisp.mapIndexLoop fn nl (rounds + 1) ind it) :: rest))
    (ahead : Ahead d l as it (x :: xs)) :
    ∃ m' a b it', Trace fn rest m [] m' ∧ Ahead d l as it' xs ∧
      m'.At funs (d.numbered ind) (cells ++ [(a, d.values.length)] ++ [(b, x)])
        (.cfun cx (callBound fn 1
          (collect nl (AkLisp.mapIndexLoop fn nl rounds (ind + 1) it'))) :: rest) := by
  rw [AkLisp.mapIndexLoop] at at_
  obtain ⟨m₁, read, at₁⟩ := at_.own_read fn
  obtain ⟨it', nextEq, ahead'⟩ := ahead.next_cons
  rw [nextEq] at at₁
  obtain ⟨m₂, readValues, at₂⟩ := at₁.own_read fn
  obtain ⟨m₃, numbered, at₃⟩ := at₂.own_write fn
  obtain ⟨m₄, a, pushed, at₄⟩ := at₃.own_push fn
  obtain ⟨m₅, b, pushed', at₅⟩ := at₄.own_push fn
  exact ⟨m₅, a, b, it', (((read.trans readValues).trans numbered).trans pushed).trans pushed',
    ahead', at₅⟩

/-- The first call is made with one argument. -/
theorem not_mapsIndexed {rounds : Nat}
    (found : funs[builtin]? = some (.cfun (aklFnMapIndex rounds)))
    (list : d.payload lv = some (.list l)) (function : d.payload fv = some (.function fn))
    (iterates : Iterates d l as xs) (enough : xs.length < rounds) (some_ : xs ≠ [])
    (values : new.map Prod.snd = [lv, fv]) (at_ : m.At funs d (cells ++ new) m.control)
    (name : String) (rest : List Activation) :
    ¬ MapsIndexed (m.aklCallFunctionBound name builtin 2 rest) fn rest cells xs := by
  rintro ⟨calls, m', v, a, inds, trace, returned, argsEq, numbers, -, -⟩
  obtain ⟨x, xs, rfl⟩ := List.exists_cons_of_ne_nil some_
  obtain ⟨rounds, rfl⟩ := Nat.exists_eq_add_of_lt enough
  obtain ⟨m₁, cx, entered, -, at₁⟩ := at_.enterMapIndex found list function values name rest
  have ahead : Ahead (d.newList.2.quoteList d.newList.1) l as (d.lists.getD l aklInitList).liHead
      (x :: xs) := iterates.ahead.imp fun zs => Iterates.start
  obtain ⟨m₂, b, c, it', round, -, at₂⟩ := at₁.mapIndexLoop_cons ahead
  have final := resume_final returned
  have behind := round.after (entered.after trace final) final
  cases behind with
  | done => exact final _ _ at₂.control_eq
  | own controlEq noCall stepEq others =>
      rw [at₂.control_eq] at controlEq
      cases controlEq
      exact noCall trivial
  | @call _ _ _ _ _ _ _ args _ _ calls controlEq holds ran ended left others =>
      rw [at₂.control_eq] at controlEq
      injection controlEq with first
      injection first with _ callEq
      injection callEq with _ _ oneArg
      have oneIndex := congrArg List.length numbers
      cases inds with
      | nil => simp at oneIndex
      | cons ind inds =>
          rw [List.map_cons, List.zipWith_cons_cons] at argsEq
          injection argsEq with firstArgs
          have lengths := congrArg List.length firstArgs
          rw [List.length_map, ← oneArg] at lengths
          cases lengths

/-- On the empty list nothing is called. -/
theorem mapsIndexed_nil {rounds : Nat}
    (found : funs[builtin]? = some (.cfun (aklFnMapIndex rounds)))
    (list : d.payload lv = some (.list l)) (function : d.payload fv = some (.function fn))
    (iterates : Iterates d l as []) (enough : 0 < rounds)
    (values : new.map Prod.snd = [lv, fv]) (at_ : m.At funs d (cells ++ new) m.control)
    (name : String) (rest : List Activation) :
    MapsIndexed (m.aklCallFunctionBound name builtin 2 rest) fn rest cells [] := by
  cases rounds with
  | zero => cases enough
  | succ rounds =>
      obtain ⟨m₁, cx, entered, on, at₁⟩ := at_.enterMapIndex found list function values name rest
      have ahead : Ahead (d.newList.2.quoteList d.newList.1) l as
          (d.lists.getD l aklInitList).liHead [] := iterates.ahead.imp fun zs => Iterates.start
      obtain ⟨m₂, looped, at₂⟩ := at₁.mapIndexLoop_nil ahead
      obtain ⟨m', a, returned, at'⟩ := at₂.returnList on fn
      have collects : Collects (fun vs => Gives funs fn cells vs) (KeepsList l) d.newList.1 []
          (d.newList.2.quoteList d.newList.1) [] (d.newList.2.quoteList d.newList.1) := .nil
      refine ⟨[], m', _, a, [], (entered.trans looped).trans returned, at'.control_eq, rfl, rfl,
        ?_, at'.holds⟩
      rw [at'.data_eq]
      exact collects.listResult

/-- The loop leaves the indices on the stack. -/
theorem At.mapIndexLoop {rounds : Nat} {inds : List (Cell VRef)} {ts : List VRef}
    (at_ : m.At funs d (cells ++ inds)
      (.cfun cx (AkLisp.mapIndexLoop fn nl rounds inds.length it) :: rest))
    (ahead : Ahead d l as it xs) (collected : Collected d nl bs ts) (other : nl ≠ l)
    (apart : ∀ a ∈ as, a ∉ bs) (enough : xs.length < rounds)
    (indexCalls : IndexCalls (fun values vs d w d' => ∀ inds : List (Cell VRef),
      inds.map Prod.snd = values → Gives funs fn (cells ++ inds) vs d w d') (KeepsList l) nl
      (inds.map Prod.snd) xs d ws d') :
    ∃ m' more, Trace fn rest m ((xs.map fun x => [x]).zip ws) m' ∧ more.length = xs.length ∧
      m'.At funs d' (cells ++ inds ++ more) (.cfun cx (CProg.returnList nl) :: rest) ∧
      ∃ bs', Collected d' nl bs' (ts ++ ws) := by
  induction xs generalizing m d it bs ts ws rounds inds with
  | nil =>
      obtain ⟨rounds, rfl⟩ := Nat.exists_eq_add_of_lt enough
      obtain ⟨m', trace, at'⟩ := at_.mapIndexLoop_nil ahead
      cases indexCalls
      refine ⟨m', [], trace, rfl, ?_, bs, ?_⟩
      · rw [List.append_nil]
        exact at'
      · rw [List.append_nil]
        exact collected
  | cons x xs ih =>
      cases rounds with
      | zero => cases enough
      | succ rounds =>
          obtain ⟨m₁, a, b, it', round, ahead', at₁⟩ := at_.mapIndexLoop_cons ahead
          cases indexCalls with
          | @cons _ _ _ w ws _ d₁ _ call kept keptNew others =>
              rw [List.length_map] at call kept keptNew
              rw [List.append_assoc cells] at at₁
              have gives := call (inds ++ [(a, d.values.length)]) (by rw [List.map_append]; rfl)
              obtain ⟨m₂, called, at₂⟩ := At.collect_round at₁ rfl gives
              have collected₁ : Collected d₁ nl bs ts :=
                keptNew _ _ ⟨collected.header, collected.data⟩
              have ahead₁ : Ahead d₁ l as it' xs := ahead'.imp fun zs iterates =>
                kept as zs ⟨iterates.header, iterates.data, iterates.below⟩
              obtain ⟨ahead₂, apart₁⟩ := ahead₁.append collected₁ other apart w
              have lengthEq : inds.length + 1 = (inds ++ [(a, d.values.length)]).length := by
                rw [List.length_append, List.length_singleton]
              rw [lengthEq] at at₂
              have others' : IndexCalls (fun values vs d w d' => ∀ inds : List (Cell VRef),
                  inds.map Prod.snd = values → Gives funs fn (cells ++ inds) vs d w d')
                  (KeepsList l) nl ((inds ++ [(a, d.values.length)]).map Prod.snd) xs
                  (d₁.listAppendPopped nl (some w)) ws d' := by
                rw [List.map_append]
                exact others
              obtain ⟨m', more, looped, moreLength, at', bs', collected'⟩ := ih at₂ ahead₂
                (collected₁.append w) apart₁ (Nat.lt_of_succ_lt_succ enough) others'
              refine ⟨m', (a, d.values.length) :: more, (round.trans called).trans looped,
                congrArg Nat.succ moreLength, ?_, bs', ?_⟩
              · rw [List.append_assoc cells, List.append_assoc inds, List.singleton_append,
                  ← List.append_assoc] at at'
                exact at'
              · rw [List.append_assoc] at collected'
                exact collected'

end Machine

/-- `map-index` calls its function on index and element exactly for the empty list.  When
the calls that it makes, on the elements alone, leave one value each, it returns the list of
these values and leaves as many indices below it as the list has elements. -/
theorem map_index_one_argument {m : Machine} {funs : List AklFunction} {d : Data}
    {cells new : List (Cell VRef)} {fn builtin : FRef} {rounds : Nat} {l : LRef} {lv fv : VRef}
    {as : List Addr} {xs : List VRef}
    (found : funs[builtin]? = some (.cfun (aklFnMapIndex rounds)))
    (list : d.payload lv = some (.list l)) (function : d.payload fv = some (.function fn))
    (iterates : Iterates d l as xs) (enough : xs.length < rounds)
    (values : new.map Prod.snd = [lv, fv]) (at_ : m.At funs d (cells ++ new) m.control)
    (name : String) (rest : List Activation) :
    (MapsIndexed (m.aklCallFunctionBound name builtin 2 rest) fn rest cells xs ↔ xs = []) ∧
    ∀ ws d', IndexCalls (fun values vs d w d' => ∀ inds : List (Cell VRef),
        inds.map Prod.snd = values → Gives funs fn (cells ++ inds) vs d w d') (KeepsList l)
        d.newList.1 [] xs (d.newList.2.quoteList d.newList.1) ws d' →
      ∃ m' inds v a, Trace fn rest (m.aklCallFunctionBound name builtin 2 rest)
          ((xs.map fun x => [x]).zip ws) m' ∧ m'.control = resume (some v) rest ∧
        inds.length = xs.length ∧ m'.stack.Holds (cells ++ inds ++ [(a, v)]) ∧
        ListResult m'.data v ws := by
  constructor
  · constructor
    · intro maps
      by_contra some_
      exact not_mapsIndexed found list function iterates enough some_ values at_ name rest maps
    · rintro rfl
      exact mapsIndexed_nil found list function iterates enough values at_ name rest
  · intro ws d' indexCalls
    obtain ⟨m₁, cx, entered, on, at₁⟩ := at_.enterMapIndex found list function values name rest
    have other : d.newList.1 ≠ l := by
      obtain ⟨header, foundL, -⟩ := iterates.header
      exact Nat.ne_of_gt (List.getElem?_eq_some_iff.mp foundL).1
    have ahead : Ahead (d.newList.2.quoteList d.newList.1) l as
        (d.lists.getD l aklInitList).liHead xs := iterates.ahead.imp fun zs => Iterates.start
    have at₀ : m₁.At funs (d.newList.2.quoteList d.newList.1) (cells ++ [])
        (.cfun cx (mapIndexLoop fn d.newList.1 rounds ([] : List (Cell VRef)).length
          (d.lists.getD l aklInitList).liHead) :: rest) := by
      rw [List.append_nil]
      exact at₁
    obtain ⟨m₂, more, looped, lengthEq, at₂, bs, collected⟩ := at₀.mapIndexLoop ahead
      (Collected.start d) other (fun a mem memNew => List.not_mem_nil memNew) enough indexCalls
    rw [List.append_nil] at at₂
    obtain ⟨m', a, returned, at'⟩ := at₂.returnList on fn
    refine ⟨m', more, _, a, ?_, at'.control_eq, lengthEq, at'.holds, ?_⟩
    · have whole := (entered.trans looped).trans returned
      rw [List.append_nil] at whole
      exact whole
    · rw [at'.data_eq]
      refine ⟨d.newList.1, bs, ?_, collected.header, collected.data⟩
      simp [Data.payload, Data.newValue]

/-- The machine with the list and the function on its stack. -/
def indexMachine : Machine :=
  ⟨lastFunctions, threeElements, aklStackPush (aklStackPush default 2) 3, [], []⟩

theorem indexMachine_at :
    indexMachine.At lastFunctions threeElements ([] ++ [(0, 2), (1, 3)]) [] :=
  ⟨rfl, rfl, (StackState.Holds.empty.push 2).push 3, rfl⟩

theorem map_index_one_argument_three :
    ¬ MapsIndexed (indexMachine.aklCallFunctionBound "map-index" 4 2 []) 3 [] [] [1, 0, 4] ∧
      ∃ m' inds v a, Trace 3 [] (indexMachine.aklCallFunctionBound "map-index" 4 2 [])
          [([1], 1), ([0], 0), ([4], 4)] m' ∧ m'.control = [] ∧ inds.length = 3 ∧
        m'.stack.Holds (inds ++ [(a, v)]) ∧ ListResult m'.data v [1, 0, 4] := by
  rcases @map_index_one_argument indexMachine lastFunctions threeElements [] [(0, 2), (1, 3)] 3 4 4
    0 2 3 [0, 1, 2] [1, 0, 4] rfl rfl rfl threeElements_iterates (by decide) rfl indexMachine_at
    "map-index" [] with ⟨exactly, calls⟩
  have call : ∀ (x : VRef) (values : List VRef) (d : Data) (inds : List (Cell VRef)),
      inds.map Prod.snd = values → Gives lastFunctions 3 ([] ++ inds) [x] d x d :=
    fun x _ d inds _ => @lastFunctions_gives ([] ++ inds) [x] (by simp) d
  have same : ∀ l d, KeepsList l d d := fun _ _ _ _ iterates => iterates
  have sameNew : ∀ nl d, KeepsNew nl d d := fun _ _ _ _ collected => collected
  refine ⟨fun maps => List.cons_ne_nil _ _ (exactly.mp maps), ?_⟩
  exact calls [1, 0, 4] _ (.cons (call 1 _ _) (same _ _) (sameNew _ _)
    (.cons (call 0 _ _) (same _ _) (sameNew _ _)
      (.cons (call 4 _ _) (same _ _) (sameNew _ _) .nil)))

theorem map_index_of_three :
    ¬ MapsIndexed (indexMachine.aklCallFunctionBound "map-index" 4 2 []) 3 [] [] [1, 0, 4] :=
  not_mapsIndexed rfl rfl rfl threeElements_iterates (by decide) (by simp) rfl indexMachine_at
    "map-index" []

end AkLisp
