import AkLisp.Builtins.Sequence
import AkLisp.List.Sharing
import AkLisp.State.Store

/-!
# append! and insert!

The two built-ins add a value at the end or at the front of a list, a string to a string,
and to `NIL` they give a list of one.  In `insert!` there is no `break` behind the strings,
so that it goes on with what it does for `NIL`.
-/

namespace AkLisp

open Linked

/-- What both built-ins do for `NIL`: a new list with the value `iv` in it. -/
def newListOf (iv : VRef) (ctx : StoreCall) : VRef × StoreCall :=
  let (l, store) := ctx.store.newList
  let (v, store) := store.newValue (.list l)
  (v, { ctx with store := store.listAppend l (some iv) })

/-- `akl_fn_ls_insert` -/
def aklFnLsInsert (ctx : StoreCall) : Except StoreFault (VRef × StoreCall) :=
  let (iv, ctx) := ctx.aklFrameShift
  let (v, ctx) := ctx.aklFrameShift
  match iv, v with
  | some iv, some v =>
      match ctx.store.member v with
      | none => throw .wild
      | some (.string t) =>
          -- there is no `break`: both branches go on as for `NIL`
          match ctx.store.member iv with
          | some (.string s) => do
              let store ← ctx.store.replaceString v s t t
              return newListOf iv { ctx with store }
          | _ => return newListOf iv (ctx.aklRaiseError "Must insert string.")
      | some .nil => return newListOf iv ctx
      | some (.list l) => return (v, { ctx with store := ctx.store.listInsertHead l (some iv) })
      | some _ => return (v, ctx.aklRaiseError "Argument must be a list or a string!")
  | _, _ => return (Data.aklNil, ctx.aklRaiseError "Need a list or string as parameters.")

/-- `akl_fn_ls_append` -/
def aklFnLsAppend (ctx : StoreCall) : Except StoreFault (VRef × StoreCall) :=
  let (iv, ctx) := ctx.aklFrameShift
  let (v, ctx) := ctx.aklFrameShift
  match iv, v with
  | some iv, some v =>
      match ctx.store.member v with
      | none => throw .wild
      | some (.string t) =>
          match ctx.store.member iv with
          | some (.string s) => do
              let store ← ctx.store.replaceString v t s t
              return (v, { ctx with store })
          | _ => return (Data.aklNil, ctx.aklRaiseError "Must append string.")
      | some (.list l) => return (v, { ctx with store := ctx.store.listAppend l (some iv) })
      | some .nil => return newListOf iv ctx
      | some _ => return (v, ctx.aklRaiseError "Argument must be a list or a string!")
  | _, _ => return (Data.aklNil, ctx.aklRaiseError "Need a list or string as parameters.")

/-- The two built-ins. -/
inductive Adder where
  | insert
  | append
  deriving DecidableEq, Repr

namespace Adder

/-- The C function. -/
def call : Adder → StoreCall → Except StoreFault (VRef × StoreCall)
  | .insert => aklFnLsInsert
  | .append => aklFnLsAppend

/-- Where the two put what they add. -/
def put {α : Type} : Adder → List α → List α → List α
  | .insert, new, old => new ++ old
  | .append, new, old => old ++ new

end Adder

namespace ValueStore

/-- The value is a list of the values `ws`. -/
def ListOf (st : ValueStore) (v : VRef) (ws : List VRef) : Prop :=
  ∃ l list as, st.member v = some (.list l) ∧ st.lists[l]? = some list ∧
    list.Reaches st.entries as ∧ as.map st.entries.data = ws.map some

/-- The value is a string. -/
def IsString (st : ValueStore) (v : VRef) : Prop := ∃ b, st.member v = some (.string b)

/-- The value is a string whose buffer is borrowed. -/
def Borrows (st : ValueStore) (v : VRef) : Prop :=
  ∃ b, st.member v = some (.string b) ∧ b ∈ st.borrowed

/-- The buffer of a string value was not freed. -/
def Live (st : ValueStore) (v : VRef) : Prop :=
  ∀ b, st.member v = some (.string b) → ∃ text, st.strings[b]? = some (some text)

end ValueStore

/-- What the built-in should do when it adds `x` to `v`. -/
structure Adds (op : Adder) (ctx : StoreCall) (x v : VRef) : Prop where
  string : ∀ s t, ctx.store.text x = some s → ctx.store.text v = some t →
    ∃ r ctx', op.call ctx = .ok (r, ctx') ∧ ctx'.store.text r = some (op.put s t)
  refused : ∀ t, (∀ b, ctx.store.member x ≠ some (.string b)) → ctx.store.text v = some t →
    ∃ ctx' e, op.call ctx = .ok (Data.aklNil, ctx') ∧ ctx'.errors = ctx.errors ++ [e] ∧
      ctx'.store.text v = some t
  list : ∀ ws, ctx.store.ListOf v ws →
    ∃ ctx', op.call ctx = .ok (v, ctx') ∧ ctx'.store.ListOf v (op.put [x] ws)
  nil : ctx.store.member v = some .nil →
    ∃ r ctx', op.call ctx = .ok (r, ctx') ∧ ctx'.store.ListOf r [x]

/-! ### Lists -/

namespace Adder

/-- `akl_list_insert_head` and `akl_list_append`. -/
def enter : Adder → Mem VRef → AklList → VRef → Addr × Mem VRef × AklList
  | .insert, m, list, x => aklListInsertHead m list (some x)
  | .append, m, list, x => aklListAppend m list (some x)

/-- What the built-in does to a list that is there. -/
def addTo (op : Adder) (st : ValueStore) (l : LRef) (x : VRef) : ValueStore :=
  let (_, entries, list) := op.enter st.entries (st.list l) x
  { st with entries, lists := st.lists.set l list }

@[simp]
theorem enter_data (op : Adder) (m : Mem VRef) (list : AklList) (x : VRef) (a : Addr) :
    (op.enter m list x).2.1.data a = if a = m.top then some x else m.data a := by
  cases op with
  | insert => exact aklListInsertHead_data m list (some x) a
  | append => exact aklListAppend_data m list (some x) a

/-- The new entry stands at its place. -/
theorem enter_reaches (op : Adder) {m : Mem VRef} {list : AklList} {as : List Addr}
    (reaches : list.Reaches m as) (x : VRef) :
    (op.enter m list x).2.2.Reaches (op.enter m list x).2.1 (op.put [m.top] as) := by
  cases op with
  | insert => exact reaches.insertHead (some x)
  | append => exact reaches.append (some x)

theorem put_map {α β : Type} (op : Adder) (f : α → β) (new old : List α) :
    (op.put new old).map f = op.put (new.map f) (old.map f) := by
  cases op <;> exact List.map_append

theorem addTo_eq (op : Adder) {st : ValueStore} {l : LRef} {list : AklList}
    (found : st.lists[l]? = some list) (x : VRef) :
    op.addTo st l x = { st with
      entries := (op.enter st.entries list x).2.1
      lists := st.lists.set l (op.enter st.entries list x).2.2 } := by
  rw [addTo, ValueStore.list, List.getD_eq_getElem?_getD, found, Option.getD_some]

end Adder

section

variable {st : ValueStore} {v x : VRef} {ws : List VRef} {l : LRef}

/-- The value is added at its place. -/
theorem ValueStore.ListOf.addTo (listOf : st.ListOf v ws) (held : st.member v = some (.list l))
    (op : Adder) (x : VRef) : (op.addTo st l x).ListOf v (op.put [x] ws) := by
  obtain ⟨l', list, as, held', found, reaches, dataEq⟩ := listOf
  rw [held] at held'
  cases held'
  have bound := (List.getElem?_eq_some_iff.mp found).1
  have dataKept : as.map (op.enter st.entries list x).2.1.data = as.map st.entries.data := by
    apply List.map_congr_left
    intro a mem
    rw [op.enter_data, if_neg (Nat.ne_of_lt (reaches.below a mem))]
  rw [op.addTo_eq found]
  refine ⟨l, _, op.put [st.entries.top] as, held, List.getElem?_set_self bound,
    op.enter_reaches reaches x, ?_⟩
  rw [op.put_map, op.put_map, dataKept, dataEq, List.map_singleton, op.enter_data, if_pos rfl,
    List.map_singleton]

/-- An empty list, and a value for it. -/
theorem ValueStore.ListOf.new (st : ValueStore) :
    (st.newList.2.newValue (.list st.newList.1)).2.ListOf st.values.length [] := by
  refine ⟨st.lists.length, aklInitList, [], ?_, ?_, .aklInitList _, rfl⟩
  · simp [member, newValue, newList]
  · simp [newValue, newList]

theorem newListOf_listOf (iv : VRef) (ctx : StoreCall) :
    (newListOf iv ctx).2.store.ListOf (newListOf iv ctx).1 [iv] := by
  have held : (ctx.store.newList.2.newValue (.list ctx.store.newList.1)).2.member
      ctx.store.values.length = some (.list ctx.store.newList.1) := by
    simp [ValueStore.member, ValueStore.newValue, ValueStore.newList]
  exact (ValueStore.ListOf.new ctx.store).addTo held .append iv

end

/-! ### The calls -/

namespace Adder

variable {op : Adder} {ctx : StoreCall} {x v : VRef}

/-- To a list the value is added in place. -/
theorem call_list {l : LRef} (on : ctx.On [x, v]) (held : ctx.store.member v = some (.list l)) :
    ∃ ctx', op.call ctx = .ok (v, ctx') ∧ ctx'.store = op.addTo ctx.store l x ∧
      ctx'.errors = ctx.errors := by
  obtain ⟨ctx₁, ctx₂, first, second, same⟩ := on.shift_two
  refine ⟨{ ctx₂ with store := op.addTo ctx₂.store l x }, ?_, ?_, same.errors⟩
  · rw [← same.store] at held
    cases op <;> simp only [call, aklFnLsInsert, aklFnLsAppend, first, second, held] <;> rfl
  · rw [same.store]

/-- For `NIL` there is a new list. -/
theorem call_nil (on : ctx.On [x, v]) (held : ctx.store.member v = some .nil) :
    ∃ ctx₂, ctx.SameButFrame ctx₂ ∧ op.call ctx = .ok (newListOf x ctx₂) := by
  obtain ⟨ctx₁, ctx₂, first, second, same⟩ := on.shift_two
  refine ⟨ctx₂, same, ?_⟩
  rw [← same.store] at held
  cases op <;> simp only [call, aklFnLsInsert, aklFnLsAppend, first, second, held] <;> rfl

/-- A pointer to nothing is dereferenced. -/
theorem call_wild (on : ctx.On [x, v]) (held : ctx.store.member v = none) :
    op.call ctx = .error .wild := by
  obtain ⟨ctx₁, ctx₂, first, second, same⟩ := on.shift_two
  rw [← same.store] at held
  cases op <;> simp only [call, aklFnLsInsert, aklFnLsAppend, first, second, held] <;> rfl

/-- A value of another type is returned, with an error. -/
theorem call_other (on : ctx.On [x, v]) {m : Member} (held : ctx.store.member v = some m)
    (notNil : m ≠ .nil) (notString : ∀ b, m ≠ .string b) (notList : ∀ l, m ≠ .list l) :
    ∃ ctx', op.call ctx = .ok (v, ctx') ∧ ctx'.store = ctx.store := by
  obtain ⟨ctx₁, ctx₂, first, second, same⟩ := on.shift_two
  refine ⟨ctx₂.aklRaiseError "Argument must be a list or a string!", ?_, same.store⟩
  rw [← same.store] at held
  cases m with
  | nil => exact absurd rfl notNil
  | string b => exact absurd rfl (notString b)
  | list l => exact absurd rfl (notList l)
  | _ => cases op <;> simp only [call, aklFnLsInsert, aklFnLsAppend, first, second, held] <;> rfl

/-- What is not a string is refused by `append!`. -/
theorem append_refused (on : ctx.On [x, v]) {t : BufRef}
    (held : ctx.store.member v = some (.string t))
    (notString : ∀ b, ctx.store.member x ≠ some (.string b)) :
    ∃ ctx' e, aklFnLsAppend ctx = .ok (Data.aklNil, ctx') ∧ ctx'.errors = ctx.errors ++ [e] ∧
      ctx'.store = ctx.store := by
  obtain ⟨ctx₁, ctx₂, first, second, same⟩ := on.shift_two
  refine ⟨ctx₂.aklRaiseError "Must append string.", ⟨.error, "Must append string."⟩, ?_, ?_,
    same.store⟩
  · rw [← same.store] at held notString
    simp only [aklFnLsAppend, first, second, held]
    rfl
  · rw [StoreCall.aklRaiseError, same.errors]

/-- `insert!` raises an error, too, and goes on. -/
theorem insert_refused (on : ctx.On [x, v]) {t : BufRef}
    (held : ctx.store.member v = some (.string t))
    (notString : ∀ b, ctx.store.member x ≠ some (.string b)) :
    ∃ ctx₂, ctx.SameButFrame ctx₂ ∧
      aklFnLsInsert ctx = .ok (newListOf x (ctx₂.aklRaiseError "Must insert string.")) := by
  obtain ⟨ctx₁, ctx₂, first, second, same⟩ := on.shift_two
  refine ⟨ctx₂, same, ?_⟩
  rw [← same.store] at held notString
  simp only [aklFnLsInsert, first, second, held]
  rfl

end Adder

/-! ### Strings -/

/-- The string of `v` is `text` in a new buffer, and the buffer `old` is freed. -/
def ValueStore.replaced (st : ValueStore) (v : VRef) (old : BufRef) (text : List Chr) :
    ValueStore :=
  { st with
    strings := (st.strings ++ [some text]).set old none
    values := st.values.modify v fun value => { value with member := .string st.strings.length } }

theorem ValueStore.replaceString_eq {st : ValueStore} {v : VRef} {first second old : BufRef}
    {front behind : List Chr} (readFirst : st.strings[first]? = some (some front))
    (readSecond : st.strings[second]? = some (some behind)) :
    st.replaceString v first second old =
      if old ∈ st.borrowed then .error .notOwned
      else .ok (st.replaced v old (front ++ behind)) := by
  simp only [replaceString, read, readFirst, readSecond]
  rfl

theorem ValueStore.text_replaced {st : ValueStore} {v : VRef} {old : BufRef} {m : Member}
    (held : st.member v = some m) (below : old < st.strings.length) (text : List Chr) :
    (st.replaced v old text).text v = some text := by
  obtain ⟨value, found, -⟩ := Option.map_eq_some_iff.mp held
  have new : ((st.strings ++ [some text]).set old none)[st.strings.length]? = some (some text) := by
    rw [List.getElem?_set_ne (Nat.ne_of_lt below), List.getElem?_append_right (Nat.le_refl _)]
    simp
  simp only [ValueStore.text, replaced, ValueStore.member, List.getElem?_modify_eq, found,
    Option.map_eq_map, Option.map_some, new, Option.join_some]

theorem ValueStore.text_eq_some {st : ValueStore} {v : VRef} {t : List Chr}
    (textEq : st.text v = some t) :
    ∃ b, st.member v = some (.string b) ∧ st.strings[b]? = some (some t) := by
  unfold ValueStore.text at textEq
  split at textEq
  · next b held => exact ⟨b, held, Option.join_eq_some_iff.mp textEq⟩
  · cases textEq

theorem ValueStore.Live.text {st : ValueStore} {v : VRef} {b : BufRef} (live : st.Live v)
    (held : st.member v = some (.string b)) :
    ∃ t, st.text v = some t ∧ st.strings[b]? = some (some t) := by
  obtain ⟨t, found⟩ := live b held
  refine ⟨t, ?_, found⟩
  rw [ValueStore.text, held]
  exact congrArg Option.join found

/-- A list is not a string. -/
theorem ValueStore.ListOf.text_eq_none {st : ValueStore} {v : VRef} {ws : List VRef}
    (listOf : st.ListOf v ws) : st.text v = none := by
  obtain ⟨l, list, as, held, -⟩ := listOf
  rw [ValueStore.text, held]

namespace Adder

variable {ctx : StoreCall} {x v : VRef} {bx bv : BufRef} {s t : List Chr}

/-- `append!` puts the string at the end. -/
theorem append_string (on : ctx.On [x, v]) (heldX : ctx.store.member x = some (.string bx))
    (readX : ctx.store.strings[bx]? = some (some s))
    (heldV : ctx.store.member v = some (.string bv))
    (readV : ctx.store.strings[bv]? = some (some t)) (owned : bv ∉ ctx.store.borrowed) :
    ∃ ctx', aklFnLsAppend ctx = .ok (v, ctx') ∧
      ctx'.store = ctx.store.replaced v bv (t ++ s) := by
  rcases on.shift_two with ⟨ctx₁, ctx₂, first, second, same⟩
  rw [← same.store] at heldX readX heldV readV owned ⊢
  refine ⟨{ ctx₂ with store := ctx₂.store.replaced v bv (t ++ s) }, ?_, rfl⟩
  simp only [aklFnLsAppend, first, second, heldV, heldX, ValueStore.replaceString_eq readV readX,
    if_neg owned]
  rfl

/-- It frees the old buffer also where this is borrowed. -/
theorem append_borrowed (on : ctx.On [x, v]) (heldX : ctx.store.member x = some (.string bx))
    (readX : ctx.store.strings[bx]? = some (some s))
    (heldV : ctx.store.member v = some (.string bv))
    (readV : ctx.store.strings[bv]? = some (some t)) (borrowed : bv ∈ ctx.store.borrowed) :
    aklFnLsAppend ctx = .error .notOwned := by
  rcases on.shift_two with ⟨ctx₁, ctx₂, first, second, same⟩
  rw [← same.store] at heldX readX heldV readV borrowed
  simp only [aklFnLsAppend, first, second, heldV, heldX, ValueStore.replaceString_eq readV readX,
    if_pos borrowed]
  rfl

/-- If `insert!` returns, it gives a list with the string in it. -/
theorem insert_string (on : ctx.On [x, v]) (heldX : ctx.store.member x = some (.string bx))
    (readX : ctx.store.strings[bx]? = some (some s))
    (heldV : ctx.store.member v = some (.string bv))
    (readV : ctx.store.strings[bv]? = some (some t)) :
    aklFnLsInsert ctx = .error .notOwned ∨ ∃ ctx', aklFnLsInsert ctx = .ok (newListOf x ctx') := by
  rcases on.shift_two with ⟨ctx₁, ctx₂, first, second, same⟩
  rw [← same.store] at heldX readX heldV readV
  by_cases borrowed : bv ∈ ctx₂.store.borrowed
  · refine .inl ?_
    simp only [aklFnLsInsert, first, second, heldV, heldX, ValueStore.replaceString_eq readX readV,
      if_pos borrowed]
    rfl
  · refine .inr ⟨{ ctx₂ with store := ctx₂.store.replaced v bv (s ++ t) }, ?_⟩
    simp only [aklFnLsInsert, first, second, heldV, heldX, ValueStore.replaceString_eq readX readV,
      if_neg borrowed]
    rfl

/-- Into a string `insert!` inserts nothing, whatever it is given. -/
theorem insert_string_fails (on : ctx.On [x, v]) (liveX : ctx.store.Live x)
    (liveV : ctx.store.Live v) (heldV : ctx.store.member v = some (.string bv)) :
    ¬ Adds .insert ctx x v := by
  intro adds
  obtain ⟨t, textV, readV⟩ := liveV.text heldV
  by_cases isString : ∃ b, ctx.store.member x = some (.string b)
  · obtain ⟨bx, heldX⟩ := isString
    obtain ⟨s, textX, readX⟩ := liveX.text heldX
    obtain ⟨r, ctx', returned, textEq⟩ := adds.string s t textX textV
    rw [call] at returned
    rcases insert_string on heldX readX heldV readV with callEq | ⟨ctx₂, callEq⟩
    · cases callEq.symm.trans returned
    · have listed := (newListOf_listOf x ctx₂).text_eq_none
      rw [callEq] at returned
      rw [Except.ok.inj returned, textEq] at listed
      cases listed
  · have notString : ∀ b, ctx.store.member x ≠ some (.string b) := fun b held => isString ⟨b, held⟩
    obtain ⟨ctx', e, returned, -, -⟩ := adds.refused t notString textV
    obtain ⟨ctx₂, same, callEq⟩ := insert_refused on heldV notString
    rw [call, callEq] at returned
    -- the new value is not the static one
    have new : ctx₂.store.values.length = Data.aklNil := congrArg Prod.fst (Except.ok.inj returned)
    rw [same.store] at new
    rw [ValueStore.member, List.getElem?_eq_none (by rw [new]; exact Nat.zero_le v)] at heldV
    cases heldV

end Adder

/-- A string is not appended to a borrowed one. -/
theorem Adder.append_borrowed_fails {ctx : StoreCall} {x v : VRef} (on : ctx.On [x, v])
    (liveX : ctx.store.Live x) (liveV : ctx.store.Live v) (borrows : ctx.store.Borrows v)
    (isString : ctx.store.IsString x) : ¬ Adds .append ctx x v := by
  intro adds
  rcases borrows with ⟨bv, heldV, borrowed⟩
  rcases isString with ⟨bx, heldX⟩
  rcases liveV.text heldV with ⟨t, textV, readV⟩
  rcases liveX.text heldX with ⟨s, textX, readX⟩
  rcases adds.string s t textX textV with ⟨r, ctx', returned, -⟩
  have failed : Adder.append.call ctx = .error .notOwned :=
    Adder.append_borrowed on heldX readX heldV readV borrowed
  cases failed.symm.trans returned

/-- The strings `a` and `b`, the number 1 and a description `c` behind the static values. -/
def twoStrings : ValueStore where
  values := ValueStore.init.values ++ [⟨.string 0, false, false⟩, ⟨.string 1, false, false⟩,
    ⟨.number 1, false, false⟩, ⟨.string 2, false, false⟩]
  strings := [some [97], some [98], some [99]]
  borrowed := [2]
  entries := default
  lists := []

/-- A call with two of its values. -/
def callWith (x v : VRef) : StoreCall :=
  let stack := aklStackPush (aklStackPush default x) v
  ⟨aklInitFrame stack 2, stack, twoStrings, []⟩

theorem callWith_on (x v : VRef) : (callWith x v).On [x, v] := by
  have holds : (aklStackPush (aklStackPush default x) v).Holds ([] ++ [(0, x), (1, v)]) :=
    (StackState.Holds.empty.push x).push v
  exact ⟨[], [(0, x), (1, v)], [], holds.aklInitFrame (show 2 < 2 ^ 31 by decide), rfl⟩

theorem twoStrings_live (v : VRef) : twoStrings.Live v := by
  intro b held
  match v with
  | 0 => cases held
  | 1 => cases held
  | 2 =>
      cases held
      exact ⟨_, rfl⟩
  | 3 =>
      cases held
      exact ⟨_, rfl⟩
  | 4 => cases held
  | 5 =>
      cases held
      exact ⟨_, rfl⟩
  | v + 6 => cases held

end AkLisp
