import AkLisp.Builtins.Compare
import AkLisp.Builtins.Strict
import AkLisp.Machine.Simulation

/-!
# Built-ins that take a function

`map`, `map-index`, `foldl`, `times` and `times-index`.  Each binds one context to the
function and calls it again and again on the shared stack: it pushes the arguments, calls
and pops the value.  The iterator over the list reads the entry it stands on before the
call.
-/

namespace AkLisp

open Linked Machine

/-- `akl_list_append_value` of a value that may be `NULL`. -/
def Data.listAppendPopped (d : Data) (l : LRef) (v : Option VRef) : Data :=
  let (_, entries, list) := aklListAppend d.entries (d.lists.getD l aklInitList) v
  { d with entries, lists := d.lists.set l list }

/-- `is_quoted = TRUE` in a list header. -/
def Data.quoteList (d : Data) (l : LRef) : Data :=
  d.modifyList l fun list => { list with isQuoted := true }

namespace CProg

/-- `akl_new_number_value`, `akl_new_list_value` -/
def newValue (payload : Payload) (k : VRef → CProg) : CProg :=
  .read fun d =>
    .write (fun d => (d.newValue ⟨payload, false, false⟩).2)
      (k (d.newValue ⟨payload, false, false⟩).1)

/-- `akl_new_list` and the mark that the list is quoted. -/
def newQuotedList (k : LRef → CProg) : CProg :=
  .read fun d =>
    .write (fun d => d.newList.2) (.write (fun d' => d'.quoteList d.newList.1) (k d.newList.1))

/-- The return of a list. -/
def returnList (nl : LRef) : CProg := newValue (.list nl) fun v => .ret (some v)

/-- `akl_call_function_bound` of a context bound to `fn`, and what is popped behind it. -/
def callBound (fn : FRef) (argc : Nat) (k : Option VRef → CProg) : CProg :=
  .call none fn argc fun _ => .stackPop k

/-- The value popped is appended to `nl`. -/
def collect (nl : LRef) (k : CProg) (w : Option VRef) : CProg :=
  .write (fun d => d.listAppendPopped nl w) k

end CProg

open CProg

/-- The loop of `akl_fn_map`, not followed any further when the rounds are used up. -/
def mapLoop (fn : FRef) (nl : LRef) : Nat → Option Addr → CProg
  | 0, _ => .abort
  | rounds + 1, it =>
      .read fun d =>
        match aklListItNext d.entries it with
        | (none, _) => returnList nl
        | (some v, it) => .push v (callBound fn 1 (collect nl (mapLoop fn nl rounds it)))

/-- `akl_fn_map` -/
def aklFnMap (rounds argc : Nat) : CProg :=
  aklGetArgsStrict argc [.list, .function] fun
    | none => .ret (some Data.aklNil)
    | some (lp, fn, _) =>
        .read fun d =>
          let it := (d.lists.getD lp aklInitList).liHead
          newQuotedList fun nl => mapLoop fn nl rounds it

/-- The loop of `akl_fn_map_index`. -/
def mapIndexLoop (fn : FRef) (nl : LRef) : Nat → Nat → Option Addr → CProg
  | 0, _, _ => .abort
  | rounds + 1, ind, it =>
      .read fun d =>
        match aklListItNext d.entries it with
        | (none, _) => returnList nl
        | (some v, it) =>
            newValue (.number ind) fun number =>
              -- two values are pushed, and the function is called with one argument
              .push number (.push v
                (callBound fn 1 (collect nl (mapIndexLoop fn nl rounds (ind + 1) it))))

/-- `akl_fn_map_index` -/
def aklFnMapIndex (rounds argc : Nat) : CProg :=
  aklGetArgsStrict argc [.list, .function] fun
    | none => .ret (some Data.aklNil)
    | some (lp, fn, _) =>
        .read fun d =>
          let it := (d.lists.getD lp aklInitList).liHead
          newQuotedList fun nl => mapIndexLoop fn nl rounds 0 it

/-- The loop of `akl_fn_foldl`. -/
def foldlLoop (fn : FRef) : Nat → Option VRef → Option Addr → CProg
  | 0, _, _ => .abort
  | rounds + 1, v, it =>
      .read fun d =>
        match aklListItNext d.entries it, v with
        | (none, _), v => .ret v
        -- akl_stack_push asserts that there is a value
        | (some _, _), none => .abort
        | (some vl, it), some v =>
            .push v (.push vl (callBound fn 2 fun v => foldlLoop fn rounds v it))

/-- `akl_fn_foldl` -/
def aklFnFoldl (rounds argc : Nat) : CProg :=
  aklGetArgsStrict argc [.any, .list, .function] fun
    | none => .ret (some Data.aklNil)
    | some (v, lp, fn, _) =>
        .read fun d => foldlLoop fn rounds (some v) (d.lists.getD lp aklInitList).liHead

/-- The loop of `times_impl`, with the rounds that are left. -/
def timesLoop (fn : FRef) (nl : LRef) (isIndexed : Bool) : Nat → Nat → CProg
  | 0, _ => returnList nl
  | rounds + 1, i =>
      let next := collect nl (timesLoop fn nl isIndexed rounds (i + 1))
      if isIndexed then newValue (.number i) fun v => .push v (callBound fn 1 next)
      else callBound fn 0 next

/-- `times_impl` -/
def timesImpl (isIndexed : Bool) (argc : Nat) : CProg :=
  aklGetArgsStrict argc [.number, .function] fun
    | none => .ret (some Data.aklNil)
    | some (timesArg, fn, _) =>
        newQuotedList fun nl => timesLoop fn nl isIndexed (toInt timesArg).toNat 0

/-- `akl_fn_times` -/
def aklFnTimes : Nat → CProg := timesImpl false

/-- `akl_fn_times_index` -/
def aklFnTimesIndex : Nat → CProg := timesImpl true

/-! ### The lists -/

/-- Iterating over the list comes to the entries `as` with the values `xs`. -/
structure Iterates (d : Data) (l : LRef) (as : List Addr) (xs : List VRef) : Prop where
  header : ∃ list, d.lists[l]? = some list ∧ Walk d.entries.next list.liHead as
  data : as.map d.entries.data = xs.map some
  below : ∀ a ∈ as, a < d.entries.top

/-- The quoted list that is built has the entries `bs` with the values `ws`. -/
structure Collected (d : Data) (nl : LRef) (bs : List Addr) (ws : List VRef) : Prop where
  header : ∃ list, d.lists[nl]? = some list ∧ list.Denotes d.entries bs ∧ list.isQuoted = true
  data : bs.map d.entries.data = ws.map some

/-- The value is a quoted list of the values `ws`. -/
def ListResult (d : Data) (v : VRef) (ws : List VRef) : Prop :=
  ∃ nl bs, d.payload v = some (.list nl) ∧ Collected d nl bs ws

/-- The list was not modified. -/
def KeepsList (l : LRef) (d d' : Data) : Prop :=
  ∀ as xs, Iterates d l as xs → Iterates d' l as xs

/-- The list that is built, which nobody else knows, was not modified. -/
def KeepsNew (nl : LRef) (d d' : Data) : Prop :=
  ∀ bs ws, Collected d nl bs ws → Collected d' nl bs ws

/-- Calls one after the other; each value is appended to `nl`. -/
inductive Collects (gives : List VRef → Data → VRef → Data → Prop) (keeps : Data → Data → Prop)
    (nl : LRef) : List (List VRef) → Data → List VRef → Data → Prop where
  | nil {d : Data} : Collects gives keeps nl [] d [] d
  | cons {vs : List VRef} {others : List (List VRef)} {w : VRef} {ws : List VRef} {d d₁ d' : Data}
      (call : gives vs d w d₁) (kept : keeps d d₁) (keptNew : KeepsNew nl d d₁)
      (rest : Collects gives keeps nl others (d₁.listAppendPopped nl (some w)) ws d') :
      Collects gives keeps nl (vs :: others) d (w :: ws) d'

/-- Calls one after the other; each value is the first argument of the next call. -/
inductive Folds (gives : List VRef → Data → VRef → Data → Prop) (keeps : Data → Data → Prop) :
    VRef → List VRef → Data → List (List VRef × VRef) → VRef → Data → Prop where
  | nil {v : VRef} {d : Data} : Folds gives keeps v [] d [] v d
  | cons {v x w u : VRef} {xs : List VRef} {calls : List (List VRef × VRef)} {d d₁ d' : Data}
      (call : gives [v, x] d w d₁) (kept : keeps d d₁)
      (rest : Folds gives keeps w xs d₁ calls u d') :
      Folds gives keeps v (x :: xs) d (([v, x], w) :: calls) u d'

/-- A call of a built-in with `args` on top of `cells`: it makes the calls `calls` of `fn`
and returns `v` on `cells`, with the data `d'`. -/
def Performs (funs : List AklFunction) (builtin fn : FRef) (cells : List (Cell VRef))
    (args : List VRef) (d : Data) (calls : List (List VRef × VRef)) (v : VRef) (d' : Data) : Prop :=
  ∀ (m : Machine) (name : String) (rest : List Activation) (new : List (Cell VRef)),
    new.map Prod.snd = args → m.At funs d (cells ++ new) m.control →
      ∃ m' a, Trace fn rest (m.aklCallFunctionBound name builtin args.length rest) calls m' ∧
        m'.At funs d' (cells ++ [(a, v)]) (resume (some v) rest)

section Lists

variable {d d' : Data} {l nl : LRef} {as bs : List Addr} {xs ws : List VRef}

/-- The list that is built, before anything is in it. -/
theorem Collected.start (d : Data) :
    Collected (d.newList.2.quoteList d.newList.1) d.newList.1 [] [] := by
  refine ⟨⟨{ aklInitList with isQuoted := true }, ?_, ?_, rfl⟩, rfl⟩
  · simp [Data.quoteList, Data.modifyList, Data.newList]
  · exact ⟨List.nodup_nil, by simp, trivial, rfl, rfl, rfl⟩

theorem Iterates.start (iterates : Iterates d l as xs) :
    Iterates (d.newList.2.quoteList d.newList.1) l as xs := by
  obtain ⟨list, found, walk⟩ := iterates.header
  have bound := (List.getElem?_eq_some_iff.mp found).1
  have other : d.lists.length ≠ l := Nat.ne_of_gt bound
  refine ⟨⟨list, ?_, walk⟩, iterates.data, iterates.below⟩
  simp only [Data.quoteList, Data.modifyList, Data.newList, List.getElem?_modify, if_neg other,
    List.getElem?_append_left bound, found]
  rfl

theorem aklListAppend_isQuoted (m : Mem VRef) (list : AklList) (data : Option VRef) :
    (aklListAppend m list data).2.2.isQuoted = list.isQuoted := by
  simp only [aklListAppend]
  cases list.liHead <;> rfl

/-- A value is appended to the list that is built. -/
theorem Collected.append (collected : Collected d nl bs ws) (w : VRef) :
    Collected (d.listAppendPopped nl (some w)) nl (bs ++ [d.entries.top]) (ws ++ [w]) := by
  obtain ⟨list, found, denotes, quoted⟩ := collected.header
  have bound := (List.getElem?_eq_some_iff.mp found).1
  have headerEq : d.lists.getD nl aklInitList = list := by
    rw [List.getD_eq_getElem?_getD, found, Option.getD_some]
  simp only [Data.listAppendPopped, headerEq]
  refine ⟨⟨_, List.getElem?_set_self bound, denotes.append (some w), ?_⟩, ?_⟩
  · rw [aklListAppend_isQuoted, quoted]
  · rw [List.map_append, List.map_append, ← collected.data]
    congr 1
    · apply List.map_congr_left
      intro b mem
      rw [aklListAppend_data, if_neg (Nat.ne_of_lt (denotes.below b mem))]
    · simp

/-- Appending to the list that is built does not touch another list. -/
theorem Iterates.append (iterates : Iterates d l as xs) (collected : Collected d nl bs ws)
    (other : nl ≠ l) (apart : ∀ a ∈ as, a ∉ bs) (w : VRef) :
    Iterates (d.listAppendPopped nl (some w)) l as xs := by
  obtain ⟨list, found, walk⟩ := iterates.header
  obtain ⟨built, foundBuilt, denotes, -⟩ := collected.header
  have headerEq : d.lists.getD nl aklInitList = built := by
    rw [List.getD_eq_getElem?_getD, foundBuilt, Option.getD_some]
  have old : ∀ a ∈ as, a ≠ d.entries.top := fun a mem => Nat.ne_of_lt (iterates.below a mem)
  simp only [Data.listAppendPopped, headerEq]
  refine ⟨⟨list, ?_, ?_⟩, ?_, ?_⟩
  · rw [List.getElem?_set_ne other]
    exact found
  · apply walk.congr
    intro a mem
    apply aklListAppend_next _ _ _ (old a mem)
    intro last
    rw [denotes.last] at last
    exact apart a mem (List.mem_of_getLast? last)
  · rw [← iterates.data]
    apply List.map_congr_left
    intro a mem
    rw [aklListAppend_data, if_neg (old a mem)]
  · intro a mem
    rw [aklListAppend_top]
    exact Nat.lt_succ_of_lt (iterates.below a mem)

end Lists

section Iteration

variable {d d' : Data} {l nl : LRef} {as bs : List Addr} {xs ws vs : List VRef}
  {it : Option Addr}

/-- The iterator stands in front of the values `xs` of a list. -/
structure Ahead (d : Data) (l : LRef) (all : List Addr) (it : Option Addr) (xs : List VRef) :
    Prop where
  split : ∃ done as ys, all = done ++ as ∧ Iterates d l (done ++ as) (ys ++ xs) ∧
    ys.length = done.length ∧ it = as.head?

theorem Iterates.ahead (iterates : Iterates d l as xs) :
    Ahead d l as (d.lists.getD l aklInitList).liHead xs := by
  obtain ⟨list, found, walk⟩ := iterates.header
  refine ⟨[], as, [], rfl, iterates, rfl, ?_⟩
  rw [List.getD_eq_getElem?_getD, found]
  exact walk.head

theorem Ahead.imp (ahead : Ahead d l as it xs)
    (keeps : ∀ zs, Iterates d l as zs → Iterates d' l as zs) : Ahead d' l as it xs := by
  obtain ⟨done, behind, ys, rfl, iterates, lengthEq, itEq⟩ := ahead.split
  exact ⟨done, behind, ys, rfl, keeps _ iterates, lengthEq, itEq⟩

theorem Ahead.below (ahead : Ahead d l as it xs) : ∀ a ∈ as, a < d.entries.top := by
  obtain ⟨done, behind, ys, rfl, iterates, -, -⟩ := ahead.split
  exact iterates.below

/-- Appending to the list that is built touches neither the list in front of the
iterator nor its entries. -/
theorem Ahead.append (ahead : Ahead d l as it xs) (collected : Collected d nl bs ws)
    (other : nl ≠ l) (apart : ∀ a ∈ as, a ∉ bs) (w : VRef) :
    Ahead (d.listAppendPopped nl (some w)) l as it xs ∧
      ∀ a ∈ as, a ∉ bs ++ [d.entries.top] := by
  constructor
  · exact ahead.imp fun zs iterates => iterates.append collected other apart w
  · intro a mem memNew
    rcases List.mem_append.mp memNew with memNew | memNew
    · exact apart a mem memNew
    · exact Nat.ne_of_lt (ahead.below a mem) (List.mem_singleton.mp memNew)

/-- At the end of the list the iterator gives `NULL`. -/
theorem Ahead.next_nil (ahead : Ahead d l as it []) :
    aklListItNext d.entries it = (none, it.bind d.entries.next) := by
  obtain ⟨done, behind, ys, -, iterates, lengthEq, rfl⟩ := ahead.split
  have lengths := congrArg List.length iterates.data
  simp only [List.length_map, List.length_append, List.length_nil, lengthEq] at lengths
  have empty : behind = [] := List.length_eq_zero_iff.mp (by omega)
  subst empty
  rfl

/-- Before the end it gives the next value and stands behind it. -/
theorem Ahead.next_cons {x : VRef} (ahead : Ahead d l as it (x :: xs)) :
    ∃ it', aklListItNext d.entries it = (some x, it') ∧ Ahead d l as it' xs := by
  obtain ⟨done, behind, ys, allEq, iterates, lengthEq, rfl⟩ := ahead.split
  obtain ⟨list, -, walk⟩ := iterates.header
  have data := iterates.data
  rw [List.map_append, List.map_append] at data
  have dataAs := (List.append_inj data (by rw [List.length_map, List.length_map, lengthEq])).2
  cases behind with
  | nil => cases dataAs
  | cons a behind =>
      injection dataAs with first
      refine ⟨d.entries.next a, congrArg (fun v => (v, d.entries.next a)) first,
        done ++ [a], behind, ys ++ [x], ?_, ?_, ?_, walk.behind.head⟩
      · rw [allEq, List.append_assoc, List.singleton_append]
      · rw [List.append_assoc, List.append_assoc]
        exact iterates
      · rw [List.length_append, List.length_append, lengthEq]
        rfl

/-- The data behind the calls of the loop of a built-in that builds a list. -/
theorem Collects.end_collected {gives : List VRef → Data → VRef → Data → Prop}
    {keeps : Data → Data → Prop} {argLists : List (List VRef)}
    (collects : Collects gives keeps nl argLists d vs d') (collected : Collected d nl bs ws) :
    ∃ bs', Collected d' nl bs' (ws ++ vs) := by
  induction collects generalizing bs ws with
  | nil =>
      rw [List.append_nil]
      exact ⟨bs, collected⟩
  | cons call kept keptNew others ih =>
      obtain ⟨bs', collected'⟩ := ih ((keptNew _ _ collected).append _)
      rw [List.append_assoc] at collected'
      exact ⟨bs', collected'⟩

/-- There is a value for each call. -/
theorem Collects.length_eq {gives : List VRef → Data → VRef → Data → Prop}
    {keeps : Data → Data → Prop} {argLists : List (List VRef)}
    (collects : Collects gives keeps nl argLists d ws d') : ws.length = argLists.length := by
  induction collects with
  | nil => rfl
  | cons call kept keptNew others ih => rw [List.length_cons, List.length_cons, ih]

/-- What the value of a list built by calls is. -/
theorem Collects.listResult {gives : List VRef → Data → VRef → Data → Prop}
    {keeps : Data → Data → Prop} {argLists : List (List VRef)}
    (collects : Collects gives keeps d.newList.1 argLists (d.newList.2.quoteList d.newList.1)
      ws d') :
    ListResult (d'.newValue ⟨.list d.newList.1, false, false⟩).2 d'.values.length ws := by
  obtain ⟨bs, collected⟩ := collects.end_collected (Collected.start d)
  rw [List.nil_append] at collected
  refine ⟨d.newList.1, bs, ?_, collected.header, collected.data⟩
  simp [Data.payload, Data.newValue]

end Iteration

/-! ### The loops -/

namespace Machine

variable {m : Machine} {funs : List AklFunction} {d d' : Data} {cells new : List (Cell VRef)}
  {cx : Context} {rest : List Activation} {fn : FRef} {l nl : LRef} {as bs : List Addr}
  {xs ws vs : List VRef} {it : Option Addr}

/-- One round that collects. -/
theorem At.collect_round {k : CProg} {w : VRef} {d₁ : Data}
    (at_ : m.At funs d (cells ++ new) (.cfun cx (callBound fn new.length (collect nl k)) :: rest))
    (values : new.map Prod.snd = vs) (gives : Gives funs fn cells vs d w d₁) :
    ∃ m', Trace fn rest m [(vs, w)] m' ∧
      m'.At funs (d₁.listAppendPopped nl (some w)) cells (.cfun cx k :: rest) := by
  obtain ⟨m₁, trace₁, at₁⟩ := at_.round values gives
  obtain ⟨m₂, trace₂, at₂⟩ := at₁.own_write fn
  exact ⟨m₂, trace₁.trans trace₂, at₂⟩

/-- The loop of `map`. -/
theorem At.mapLoop {rounds : Nat} {ts : List VRef}
    (at_ : m.At funs d cells (.cfun cx (AkLisp.mapLoop fn nl rounds it) :: rest))
    (ahead : Ahead d l as it xs) (collected : Collected d nl bs ts) (other : nl ≠ l)
    (apart : ∀ a ∈ as, a ∉ bs) (enough : xs.length < rounds)
    (collects : Collects (fun vs => Gives funs fn cells vs) (KeepsList l) nl (xs.map fun x => [x])
      d ws d') :
    ∃ m', Trace fn rest m ((xs.map fun x => [x]).zip ws) m' ∧
      m'.At funs d' cells (.cfun cx (returnList nl) :: rest) := by
  induction xs generalizing m d it bs ts ws rounds with
  | nil =>
      obtain ⟨rounds, rfl⟩ := Nat.exists_eq_add_of_lt enough
      rw [AkLisp.mapLoop] at at_
      obtain ⟨m', trace, at'⟩ := at_.own_read fn
      rw [ahead.next_nil] at at'
      cases collects
      exact ⟨m', trace, at'⟩
  | cons x xs ih =>
      cases rounds with
      | zero => cases enough
      | succ rounds =>
          rw [AkLisp.mapLoop] at at_
          obtain ⟨m₁, read, at₁⟩ := at_.own_read fn
          obtain ⟨it', nextEq, ahead'⟩ := ahead.next_cons
          rw [nextEq] at at₁
          obtain ⟨m₂, a, pushed, at₂⟩ := at₁.own_push fn
          cases collects with
          | @cons _ _ w ws _ d₁ _ call kept keptNew others =>
              obtain ⟨m₃, called, at₃⟩ := At.collect_round at₂ rfl call
              have collected₁ := keptNew _ _ collected
              have ahead₁ : Ahead d₁ l as it' xs := ahead'.imp fun zs => kept as zs
              obtain ⟨ahead₂, apart₁⟩ := ahead₁.append collected₁ other apart w
              obtain ⟨m', looped, at'⟩ := ih at₃ ahead₂ (collected₁.append w) apart₁
                (Nat.lt_of_succ_lt_succ enough) others
              exact ⟨m', ((read.trans pushed).trans called).trans looped, at'⟩

/-- The loop of `foldl`. -/
theorem At.foldlLoop {rounds : Nat} {v u : VRef} {calls : List (List VRef × VRef)}
    (at_ : m.At funs d cells (.cfun cx (AkLisp.foldlLoop fn rounds (some v) it) :: rest))
    (ahead : Ahead d l as it xs) (enough : xs.length < rounds)
    (folds : Folds (fun vs => Gives funs fn cells vs) (KeepsList l) v xs d calls u d') :
    ∃ m', Trace fn rest m calls m' ∧ m'.At funs d' cells (.cfun cx (.ret (some u)) :: rest) := by
  induction xs generalizing m d it v calls rounds with
  | nil =>
      obtain ⟨rounds, rfl⟩ := Nat.exists_eq_add_of_lt enough
      rw [AkLisp.foldlLoop] at at_
      obtain ⟨m', trace, at'⟩ := at_.own_read fn
      rw [ahead.next_nil] at at'
      cases folds
      exact ⟨m', trace, at'⟩
  | cons x xs ih =>
      cases rounds with
      | zero => cases enough
      | succ rounds =>
          rw [AkLisp.foldlLoop] at at_
          obtain ⟨m₁, read, at₁⟩ := at_.own_read fn
          obtain ⟨it', nextEq, ahead'⟩ := ahead.next_cons
          rw [nextEq] at at₁
          obtain ⟨m₂, a, pushed, at₂⟩ := at₁.own_push fn
          obtain ⟨m₃, b, pushed', at₃⟩ := at₂.own_push fn
          rw [List.append_assoc] at at₃
          cases folds with
          | cons call kept others =>
              obtain ⟨m₄, called, at₄⟩ := At.round at₃ rfl call
              have ahead₁ := ahead'.imp fun zs => kept as zs
              obtain ⟨m', looped, at'⟩ := ih at₄ ahead₁ (Nat.lt_of_succ_lt_succ enough) others
              exact ⟨m', (((read.trans pushed).trans pushed').trans called).trans looped, at'⟩

/-- The loop of `times`. -/
theorem At.timesLoop {rounds i : Nat} {keeps : Data → Data → Prop}
    (at_ : m.At funs d cells (.cfun cx (AkLisp.timesLoop fn nl false rounds i) :: rest))
    (collects : Collects (fun vs => Gives funs fn cells vs) keeps nl (List.replicate rounds [])
      d ws d') :
    ∃ m', Trace fn rest m ((List.replicate rounds []).zip ws) m' ∧
      m'.At funs d' cells (.cfun cx (returnList nl) :: rest) := by
  induction rounds generalizing m d ws i with
  | zero =>
      cases collects
      exact ⟨m, .done, at_⟩
  | succ rounds ih =>
      cases collects with
      | cons call kept keptNew others =>
          have at₀ : m.At funs d (cells ++ [])
              (.cfun cx (AkLisp.timesLoop fn nl false (rounds + 1) i) :: rest) := by
            rw [List.append_nil]
            exact at_
          obtain ⟨m₁, called, at₁⟩ := At.collect_round at₀ rfl call
          obtain ⟨m', looped, at'⟩ := ih at₁ others
          exact ⟨m', called.trans looped, at'⟩

/-! ### The built-ins -/

/-- A built-in is called with arguments of the types it asks for. -/
theorem At.enter {builtin : FRef} {types : List ArgType} {values : ArgType.Values types}
    {k : Option (ArgType.Values types) → CProg} {args : List VRef}
    (found : funs[builtin]? = some (.cfun fun argc => aklGetArgsStrict argc types k))
    (some_ : types ≠ []) (at_ : m.At funs d (cells ++ new) m.control)
    (valuesEq : new.map Prod.snd = args) (few : args.length < 2 ^ 31)
    (typed : TypedAs d types args values) (fn : FRef) (name : String) (rest : List Activation) :
    ∃ m' cx, Trace fn rest (m.aklCallFunctionBound name builtin args.length rest) [] m' ∧
      FrameOn cx.cxFrame ([] : List (Cell VRef)) ∧
      m'.At funs d cells (.cfun cx (k (some values)) :: rest) := by
  subst valuesEq
  rw [List.length_map] at few ⊢
  have covers := at_.holds.aklInitFrame few
  have found' : m.funs[builtin]? = some (.cfun fun argc => aklGetArgsStrict argc types k) := by
    rw [at_.funs_eq]
    exact found
  have entered : (m.aklCallFunctionBound name builtin new.length rest).At funs d (cells ++ new)
      (.cfun ⟨name, aklInitFrame m.stack new.length⟩ (aklGetArgsStrict new.length types k) ::
        rest) := by
    simp only [aklCallFunctionBound, found']
    exact ⟨at_.funs_eq, at_.data_eq, at_.holds, rfl⟩
  exact entered.own_aklGetArgsStrict fn some_ covers.on typed

/-- A built-in returns the list it has built. -/
theorem At.returnList (at_ : m.At funs d cells (.cfun cx (CProg.returnList nl) :: rest))
    (on : FrameOn cx.cxFrame ([] : List (Cell VRef))) (fn : FRef) :
    ∃ m' a, Trace fn rest m [] m' ∧
      m'.At funs (d.newValue ⟨.list nl, false, false⟩).2 (cells ++ [(a, d.values.length)])
        (resume (some d.values.length) rest) := by
  obtain ⟨m₁, read, at₁⟩ := at_.own_read fn
  obtain ⟨m₂, written, at₂⟩ := at₁.own_write fn
  obtain ⟨m', a, returned, at'⟩ := at₂.own_ret fn on
  exact ⟨m', a, (read.trans written).trans returned, at'⟩

/-- A built-in makes the list that it is going to build. -/
theorem At.newQuotedList {k : LRef → CProg}
    (at_ : m.At funs d cells (.cfun cx (CProg.newQuotedList k) :: rest)) (fn : FRef) :
    ∃ m', Trace fn rest m [] m' ∧
      m'.At funs (d.newList.2.quoteList d.newList.1) cells (.cfun cx (k d.newList.1) :: rest) := by
  obtain ⟨m₁, read, at₁⟩ := at_.own_read fn
  obtain ⟨m₂, written, at₂⟩ := at₁.own_write fn
  obtain ⟨m₃, quoted, at₃⟩ := at₂.own_write fn
  exact ⟨m₃, (read.trans written).trans quoted, at₃⟩

/-- `map` calls the function on the elements in order. -/
theorem aklFnMap_performs {builtin : FRef} {rounds : Nat} {lv fv : VRef}
    (found : funs[builtin]? = some (.cfun (aklFnMap rounds)))
    (list : d.payload lv = some (.list l)) (function : d.payload fv = some (.function fn))
    (iterates : Iterates d l as xs) (enough : xs.length < rounds)
    (collects : Collects (fun vs => Gives funs fn cells vs) (KeepsList l) d.newList.1
      (xs.map fun x => [x]) (d.newList.2.quoteList d.newList.1) ws d') :
    Performs funs builtin fn cells [lv, fv] d ((xs.map fun x => [x]).zip ws) d'.values.length
      (d'.newValue ⟨.list d.newList.1, false, false⟩).2 := by
  intro m name rest new values at_
  have typed : TypedAs d [.list, .function] [lv, fv] (l, fn, ()) := by
    simp [TypedAs, ArgType.get, list, function]
  obtain ⟨m₁, cx, taken, on, at₁⟩ :=
    at_.enter found (by simp) values (by simp) typed fn name rest
  obtain ⟨m₂, read, at₂⟩ := at₁.own_read fn
  obtain ⟨m₃, made, at₃⟩ := at₂.newQuotedList fn
  have other : d.newList.1 ≠ l := by
    obtain ⟨header, foundL, -⟩ := iterates.header
    exact Nat.ne_of_gt (List.getElem?_eq_some_iff.mp foundL).1
  obtain ⟨m₄, looped, at₄⟩ := at₃.mapLoop (iterates.ahead.imp fun zs => Iterates.start)
    (Collected.start d) other (fun a mem memNew => List.not_mem_nil memNew) enough collects
  obtain ⟨m', a, returned, at'⟩ := at₄.returnList on fn
  refine ⟨m', a, ?_, at'⟩
  have whole := (((taken.trans read).trans made).trans looped).trans returned
  rw [List.append_nil] at whole
  exact whole

/-- `foldl` calls the function on the value so far and the next element. -/
theorem aklFnFoldl_performs {builtin : FRef} {rounds : Nat} {v lv fv u : VRef}
    {calls : List (List VRef × VRef)}
    (found : funs[builtin]? = some (.cfun (aklFnFoldl rounds)))
    (list : d.payload lv = some (.list l)) (function : d.payload fv = some (.function fn))
    (iterates : Iterates d l as xs) (enough : xs.length < rounds)
    (folds : Folds (fun vs => Gives funs fn cells vs) (KeepsList l) v xs d calls u d') :
    Performs funs builtin fn cells [v, lv, fv] d calls u d' := by
  intro m name rest new values at_
  have typed : TypedAs d [.any, .list, .function] [v, lv, fv] (v, l, fn, ()) := by
    simp [TypedAs, ArgType.get, list, function]
  obtain ⟨m₁, cx, taken, on, at₁⟩ :=
    at_.enter found (by simp) values (by simp) typed fn name rest
  obtain ⟨m₂, read, at₂⟩ := at₁.own_read fn
  obtain ⟨m₃, looped, at₃⟩ := at₂.foldlLoop iterates.ahead enough folds
  obtain ⟨m', a, returned, at'⟩ := at₃.own_ret fn on
  refine ⟨m', a, ?_, at'⟩
  have whole := ((taken.trans read).trans looped).trans returned
  rw [List.append_nil] at whole
  exact whole

/-- `times` calls the function without arguments. -/
theorem aklFnTimes_performs {builtin : FRef} {nv fv : VRef} {n : ℚ} {keeps : Data → Data → Prop}
    (found : funs[builtin]? = some (.cfun aklFnTimes))
    (number : d.payload nv = some (.number n)) (function : d.payload fv = some (.function fn))
    (collects : Collects (fun vs => Gives funs fn cells vs) keeps d.newList.1
      (List.replicate (toInt n).toNat []) (d.newList.2.quoteList d.newList.1) ws d') :
    Performs funs builtin fn cells [nv, fv] d ((List.replicate (toInt n).toNat []).zip ws)
      d'.values.length (d'.newValue ⟨.list d.newList.1, false, false⟩).2 := by
  intro m name rest new values at_
  have typed : TypedAs d [.number, .function] [nv, fv] (n, fn, ()) := by
    simp [TypedAs, ArgType.get, number, function]
  have found' : funs[builtin]? = some (.cfun (timesImpl false)) := found
  obtain ⟨m₁, cx, taken, on, at₁⟩ :=
    at_.enter found' (by simp) values (by simp) typed fn name rest
  obtain ⟨m₂, made, at₂⟩ := at₁.newQuotedList fn
  obtain ⟨m₃, looped, at₃⟩ := at₂.timesLoop collects
  obtain ⟨m', a, returned, at'⟩ := at₃.returnList on fn
  refine ⟨m', a, ?_, at'⟩
  have whole := ((taken.trans made).trans looped).trans returned
  rw [List.append_nil] at whole
  exact whole

/-- A call that the reference evaluator evaluates without a slip succeeds. -/
theorem Gives.of_eval {Γ : Program} (impl : Implements funs Γ) {w : VRef}
    (eval : Eval Γ (.apply fn vs) d [] [w] d') (below : List (Cell VRef)) :
    Gives funs fn below vs d w d' := by
  intro m args values at_
  exact (eval.simulated impl rfl m "lambda" [] m.control below args values at_).pushed

end Machine

/-- A number without its fraction. -/
def truncated (n : ℚ) : Int := if n < 0 then ⌈n⌉ else ⌊n⌋

theorem toInt_eq_truncated {n : ℚ} (low : -2 ^ 31 ≤ n) (high : n < 2 ^ 31) :
    toInt n = truncated n := by
  have bounds : -2 ^ 31 ≤ truncated n ∧ truncated n < 2 ^ 31 := by
    unfold truncated
    split
    · next negative =>
        constructor
        · rw [Int.le_ceil_iff]
          push_cast
          linarith
        · have := Int.ceil_le.mpr (show n ≤ ((0 : Int) : ℚ) by simpa using le_of_lt negative)
          omega
    · constructor
      · apply Int.le_floor.mpr
        push_cast
        exact low
      · rw [Int.floor_lt]
        push_cast
        exact high
  unfold toInt toSigned
  exact if_pos bounds

/-- `map`, `foldl` and `times` are the list functions they are named after.  On a list with
the values `xs`, a function whose calls succeed, leave one value each and do not modify the
list, and any stack: the calls are made as said, in order, the result is the list of their
values or the last value, and it is all that is left on the stack. -/
theorem map_foldl_times {funs : List AklFunction} {fn : FRef} {fv lv : VRef} {l : LRef} {d : Data}
    {as : List Addr} {xs : List VRef} {cells : List (Cell VRef)}
    (function : d.payload fv = some (.function fn)) (list : d.payload lv = some (.list l))
    (iterates : Iterates d l as xs) :
    (∀ (builtin : FRef) (rounds : Nat) (ws : List VRef) (d' : Data),
      funs[builtin]? = some (.cfun (aklFnMap rounds)) → xs.length < rounds →
      Collects (fun vs => Gives funs fn cells vs) (KeepsList l) d.newList.1
        (xs.map fun x => [x]) (d.newList.2.quoteList d.newList.1) ws d' →
      ws.length = xs.length ∧ ∃ v d'', Performs funs builtin fn cells [lv, fv] d
        ((xs.map fun x => [x]).zip ws) v d'' ∧ ListResult d'' v ws) ∧
    (∀ (builtin : FRef) (rounds : Nat) (v u : VRef) (calls : List (List VRef × VRef)) (d' : Data),
      funs[builtin]? = some (.cfun (aklFnFoldl rounds)) → xs.length < rounds →
      Folds (fun vs => Gives funs fn cells vs) (KeepsList l) v xs d calls u d' →
      Performs funs builtin fn cells [v, lv, fv] d calls u d') ∧
    (∀ (builtin : FRef) (nv : VRef) (n : ℚ) (ws : List VRef) (d' : Data),
      funs[builtin]? = some (.cfun aklFnTimes) → d.payload nv = some (.number n) →
      -2 ^ 31 ≤ n → n < 2 ^ 31 →
      Collects (fun vs => Gives funs fn cells vs) (fun _ _ => True) d.newList.1
        (List.replicate (max 0 (truncated n)).toNat []) (d.newList.2.quoteList d.newList.1) ws d' →
      ws.length = (max 0 (truncated n)).toNat ∧ ∃ v d'', Performs funs builtin fn cells [nv, fv] d
        ((List.replicate (max 0 (truncated n)).toNat []).zip ws) v d'' ∧ ListResult d'' v ws) := by
  refine ⟨?_, ?_, ?_⟩
  · intro builtin rounds ws d' found enough collects
    refine ⟨?_, _, _, aklFnMap_performs found list function iterates enough collects,
      collects.listResult⟩
    rw [collects.length_eq, List.length_map]
  · intro builtin rounds v u calls d' found enough folds
    exact aklFnFoldl_performs found list function iterates enough folds
  · intro builtin nv n ws d' found number low high collects
    have countEq : (max 0 (truncated n)).toNat = (toInt n).toNat := by
      rw [toInt_eq_truncated low high]
      omega
    rw [countEq] at collects ⊢
    refine ⟨?_, _, _, aklFnTimes_performs found number function collects, collects.listResult⟩
    rw [collects.length_eq, List.length_replicate]

/-- The program of the built-ins and of one function that returns its last argument, or `NIL`
without arguments. -/
def lastProgram : Program := fun fn =>
  if fn = 3 then some (.cfun fun _ => .pop fun v => .ret (some (v.getD Data.aklNil))) else none

/-- The code of that program. -/
def lastFunctions : List AklFunction :=
  [.cfun (aklFnMap 4), .cfun (aklFnFoldl 4), .cfun aklFnTimes,
    .cfun fun _ => .pop fun v => .ret (some (v.getD Data.aklNil)), .cfun (aklFnMapIndex 4)]

theorem lastFunctions_implements : Implements lastFunctions lastProgram := by
  constructor
  · intro fn cfun callee
    unfold lastProgram at callee
    split at callee
    · next equal =>
        cases callee
        rw [equal]
        rfl
    · cases callee
  · intro fn argc body callee
    unfold lastProgram at callee
    split at callee
    · cases callee
    · cases callee

/-- A list of `T`, `NIL` and a number, a function and that number. -/
def threeElements : Data :=
  ((Data.listAppendValue { Data.init with
    values := Data.init.values ++
      [⟨.list 0, true, false⟩, ⟨.function 3, false, false⟩, ⟨.number (5 / 2), false, false⟩]
    lists := [aklInitList] } 0 Data.aklTrue).listAppendValue 0 Data.aklNil).listAppendValue 0 4

theorem threeElements_iterates : Iterates threeElements 0 [0, 1, 2] [1, 0, 4] :=
  ⟨⟨_, rfl, rfl, rfl, rfl, rfl⟩, rfl, by simp [threeElements, Data.listAppendValue]⟩

theorem lastFunctions_gives (cells : List (Cell VRef)) {vs : List VRef} (few : vs.length < 2 ^ 31)
    (d : Data) : Gives lastFunctions 3 cells vs d (vs.getLast?.getD Data.aklNil) d :=
  .of_eval lastFunctions_implements (.applyCfun rfl few (.pop .ret)) cells

theorem map_foldl_times_three :
    (∃ v d'', Performs lastFunctions 0 3 [(9, 0)] [2, 3] threeElements
        [([1], 1), ([0], 0), ([4], 4)] v d'' ∧ ListResult d'' v [1, 0, 4]) ∧
      Performs lastFunctions 1 3 [(9, 0)] [0, 2, 3] threeElements
        [([0, 1], 1), ([1, 0], 0), ([0, 4], 4)] 4 threeElements ∧
      ∃ v d'', Performs lastFunctions 2 3 [(9, 0)] [4, 3] threeElements [([], 0), ([], 0)] v d'' ∧
        ListResult d'' v [0, 0] := by
  have call : ∀ vs d, vs.length < 2 ^ 31 →
      Gives lastFunctions 3 [(9, 0)] vs d (vs.getLast?.getD Data.aklNil) d :=
    fun vs d few => lastFunctions_gives _ few d
  have same : ∀ l d, KeepsList l d d := fun _ _ _ _ iterates => iterates
  have sameNew : ∀ nl d, KeepsNew nl d d := fun _ _ _ _ collected => collected
  have whole : truncated (5 / 2) = 2 := by norm_num [truncated]
  have two : (max 0 (truncated (5 / 2))).toNat = 2 := by rw [whole]; rfl
  have facts := @map_foldl_times lastFunctions 3 3 2 0 threeElements [0, 1, 2] [1, 0, 4] [(9, 0)]
    rfl rfl threeElements_iterates
  refine ⟨?_, ?_, ?_⟩
  · exact (facts.1 0 4 [1, 0, 4] _ rfl (by decide)
      (.cons (call [1] _ (by decide)) (same _ _) (sameNew _ _)
        (.cons (call [0] _ (by decide)) (same _ _) (sameNew _ _)
          (.cons (call [4] _ (by decide)) (same _ _) (sameNew _ _) .nil)))).2
  · exact facts.2.1 1 4 0 4 _ _ rfl (by decide)
      (.cons (call [0, 1] _ (by decide)) (same _ _)
        (.cons (call [1, 0] _ (by decide)) (same _ _)
          (.cons (call [0, 4] _ (by decide)) (same _ _) .nil)))
  · have times := facts.2.2 2 4 (5 / 2) [0, 0]
    rw [two] at times
    exact (times _ rfl rfl (by norm_num) (by norm_num)
      (.cons (call [] _ (by decide)) trivial (sameNew _ _)
        (.cons (call [] _ (by decide)) trivial (sameNew _ _) .nil))).2

end AkLisp
