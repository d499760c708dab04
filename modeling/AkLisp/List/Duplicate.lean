import AkLisp.List.Independence
import AkLisp.State.Shapes

/-!
# Copies of values

`akl_duplicate_value` copies lists to any depth.  The copy of a symbol or of a list is not
quoted, whatever the original is, and the copy of a string points to the same buffer, which
`append!` and `insert!` free.
-/

namespace AkLisp

open Linked

namespace ValueStore

/-- The loop of `akl_list_duplicate`, with the entry it has come to. -/
def dupEntries
    (dup : Option VRef → ValueStore → Except StoreFault (Option VRef × ValueStore)) (nlist : LRef) :
    Nat → Option Addr → ValueStore → Except StoreFault ValueStore
  | _, none, st => return st
  | 0, some _, _ => throw .outOfFuel
  | rounds + 1, some ent, st => do
      let (nval, st) ← dup (st.entries.data ent) st
      let st := st.listAppend nlist nval
      dupEntries dup nlist rounds (st.entries.next ent) st

/-- `akl_list_duplicate` -/
def aklListDuplicate
    (dup : Option VRef → ValueStore → Except StoreFault (Option VRef × ValueStore)) (rounds : Nat)
    (l : LRef) (st : ValueStore) : Except StoreFault (LRef × ValueStore) := do
  let (nlist, st) := st.newList
  match st.lists[l]? with
  | none => throw .wild
  | some list =>
      let st ← dupEntries dup nlist rounds list.liHead st
      return (nlist, st)

/-- `akl_duplicate_value`.  `known` says under which identifiers a user type is found; the
recursion is bounded by a number the caller chooses. -/
def aklDuplicateValue (known : Nat → Bool) :
    Nat → Option VRef → ValueStore → Except StoreFault (Option VRef × ValueStore)
  | 0, _, _ => throw .outOfFuel
  | _ + 1, none, st => return (none, st)
  | fuel + 1, some oval, st =>
      match st.values[oval]? with
      | none => throw .wild
      | some val =>
          let give (m : Member) (st : ValueStore) :
              Except StoreFault (Option VRef × ValueStore) :=
            return (some (st.newValue m).1, (st.newValue m).2)
          match val.member with
          | .list l => do
              let (nlist, st) ← aklListDuplicate (aklDuplicateValue known fuel) fuel l st
              give (.list nlist) st
          | .symbol sym => give (.symbol sym) st
          | .number n => give (.number n) st
          | .string b => give (.string b) st
          | .function _ =>
              -- *nval = *oval
              return (some st.values.length, { st with values := st.values ++ [val] })
          | .userdata udId udPrivate =>
              if known udId then give (.userdata udId udPrivate) st else throw .assertion
          | .nil => return (some Data.aklNil, st)
          | .true => return (some Data.aklTrue, st)
          | .ofVariable _ => return (none, st)

/-- The static values are at their addresses. -/
def HasStatics (st : ValueStore) : Prop :=
  st.values[Data.aklNil]? = some ⟨.nil, false, true⟩ ∧
    st.values[Data.aklTrue]? = some ⟨.true, false, false⟩

end ValueStore

mutual

/-- The copy. -/
def Shape.unquoted : Shape → Shape
  | .number n => .number n
  | .string text => .string text
  | .symbol sym _ => .symbol sym false
  | .true => .true
  | .nil => .nil
  | .list _ items => .list false items.unquoted

def Shapes.unquoted : Shapes → Shapes
  | .nil => .nil
  | .cons first others => .cons first.unquoted others.unquoted

end

mutual

/-- No quoted symbol and no quoted list is printed; of a list that counts no elements
nothing is printed but `NIL`. -/
def Shape.Unmarked : Shape → Prop
  | .symbol _ isQuoted => isQuoted = false
  | .list isQuoted items =>
      UInt32.ofNat items.length = 0 ∨ isQuoted = false ∧ items.Unmarked
  | _ => True

def Shapes.Unmarked : Shapes → Prop
  | .nil => True
  | .cons first others => first.Unmarked ∧ others.Unmarked

end

/-! ### What the copy prints -/

theorem Shapes.length_unquoted : ∀ ts : Shapes, ts.unquoted.length = ts.length
  | .nil => rfl
  | .cons _ others => by
      rw [unquoted, length, length, others.length_unquoted]

mutual

/-- Without the marks the text is the same, or shorter. -/
theorem Shape.render_unquoted : ∀ t : Shape, t.Unmarked ∧ t.unquoted.render = t.render ∨
    ¬ t.Unmarked ∧ t.unquoted.render.length < t.render.length
  | .number _ => .inl ⟨trivial, rfl⟩
  | .string _ => .inl ⟨trivial, rfl⟩
  | .symbol _ false => .inl ⟨rfl, rfl⟩
  | .symbol _ true => .inr ⟨nofun, Nat.lt_succ_self _⟩
  | .true => .inl ⟨trivial, rfl⟩
  | .nil => .inl ⟨trivial, rfl⟩
  | .list isQuoted items => by
      simp only [Shape.unquoted, Shape.render, Shape.Unmarked, items.length_unquoted]
      by_cases empty : UInt32.ofNat items.length = 0
      · simp only [empty, if_true, true_or, and_self]
      · simp only [empty, if_false, false_or]
        rcases items.render_unquoted with ⟨plain, same⟩ | ⟨marked, shorter⟩
        · cases isQuoted with
          | false => exact .inl ⟨⟨rfl, plain⟩, by rw [same]⟩
          | true =>
              refine .inr ⟨nofun, ?_⟩
              simp [same]
        · refine .inr ⟨fun unmarked => marked unmarked.2, ?_⟩
          cases isQuoted <;> simp <;> omega

theorem Shapes.render_unquoted : ∀ ts : Shapes, ts.Unmarked ∧ ts.unquoted.render = ts.render ∨
    ¬ ts.Unmarked ∧ ts.unquoted.render.length < ts.render.length
  | .nil => .inl ⟨trivial, rfl⟩
  | .cons first others => by
      simp only [Shapes.unquoted, Shapes.render, Shapes.Unmarked, others.length_unquoted]
      rcases first.render_unquoted with ⟨plain, same⟩ | ⟨marked, shorter⟩
      · rcases others.render_unquoted with ⟨plain', same'⟩ | ⟨marked', shorter'⟩
        · exact .inl ⟨⟨plain, plain'⟩, by rw [same, same']⟩
        · refine .inr ⟨fun unmarked => marked' unmarked.2, ?_⟩
          rw [same]
          simpa using shorter'
      · refine .inr ⟨fun unmarked => marked unmarked.1, ?_⟩
        have notLonger : others.unquoted.render.length ≤ others.render.length := by
          rcases others.render_unquoted with ⟨-, same'⟩ | ⟨-, shorter'⟩
          · rw [same']
          · exact Nat.le_of_lt shorter'
        simp only [List.length_append]
        omega

end

/-- The copy prints the same exactly when no mark is printed. -/
theorem Shape.render_unquoted_iff (t : Shape) : t.unquoted.render = t.render ↔ t.Unmarked := by
  rcases t.render_unquoted with ⟨plain, same⟩ | ⟨marked, shorter⟩
  · exact iff_of_true same plain
  · exact iff_of_false (fun same => Nat.ne_of_lt shorter (congrArg List.length same)) marked

namespace ValueStore

variable {st st' : ValueStore} {R : Obj → Prop} {v : VRef}

/-! ### Regions -/

theorem parts_leaf {val : StoreValue} {o : Obj} (found : st.values[v]? = some val)
    (notList : ∀ l, val.member ≠ .list l) (part : st.PartOf o v) :
    st.Has o ∧ (o.IsLink → R o) := by
  have leaf : ∀ l, st.member v ≠ some (.list l) := by
    intro l held
    rw [member, found] at held
    exact notList l (Option.some.inj held)
  rw [partOf_leaf leaf part]
  exact ⟨(List.getElem?_eq_some_iff.mp found).1, False.elim⟩

mutual

/-- The headers and entries of a tree lie in its region. -/
theorem StoredIn.parts : ∀ {t : Shape} {v : VRef}, st.StoredIn R v t →
    ∀ {o : Obj}, st.PartOf o v → st.Has o ∧ (o.IsLink → R o)
  | .number _, _, ⟨_, found⟩, _, part => parts_leaf found nofun part
  | .string _, _, ⟨_, _, found, _⟩, _, part => parts_leaf found nofun part
  | .symbol _ _, _, found, _, part => parts_leaf found nofun part
  | .true, _, ⟨_, found⟩, _, part => parts_leaf found nofun part
  | .nil, _, ⟨_, found⟩, _, part => parts_leaf found nofun part
  | .list _ _, v, ⟨q, l, list, as, ws, found, insideList, foundList, _, _, reaches, inside,
      dataEq, stored⟩, o, part => by
      have held : st.member v = some (.list l) := by
        rw [member, found]
        rfl
      rcases partOf_list held foundList reaches dataEq part with
        rfl | rfl | ⟨a, mem, rfl⟩ | ⟨w, mem, inner⟩
      · exact ⟨(List.getElem?_eq_some_iff.mp found).1, False.elim⟩
      · exact ⟨(List.getElem?_eq_some_iff.mp foundList).1, fun _ => insideList⟩
      · exact ⟨reaches.below a mem, fun _ => inside a mem⟩
      · exact stored.parts mem inner

theorem AllStoredIn.parts : ∀ {ts : Shapes} {ws : List VRef}, st.AllStoredIn R ws ts →
    ∀ {w : VRef}, w ∈ ws → ∀ {o : Obj}, st.PartOf o w → st.Has o ∧ (o.IsLink → R o)
  | .nil, _, stored, _, mem, _, _ => by
      rw [show _ = [] from stored] at mem
      cases mem
  | .cons _ _, _, ⟨_, _, rfl, first, others⟩, _, mem, _, part => by
      rcases List.mem_cons.mp mem with rfl | inside
      · exact first.parts part
      · exact others.parts inside part

end

theorem StoredIn.allocated {t : Shape} (stored : st.StoredIn R v t) : st.Allocated v :=
  fun _ part => (stored.parts part).1

/-- Trees in regions that have nothing in common share nothing. -/
theorem StoredIn.apart {R' : Obj → Prop} {t t' : Shape} {w : VRef} (stored : st.StoredIn R v t)
    (stored' : st.StoredIn R' w t') (disjoint : ∀ o, R o → ¬ R' o) : st.Apart v w :=
  fun o link part part' => disjoint o ((stored.parts part).2 link) ((stored'.parts part').2 link)

/-! ### The copy -/

/-- From `p` on there are the entries `as` of the region, and in them the trees. -/
structure Ahead (st : ValueStore) (R : Obj → Prop) (p : Option Addr) (as : List Addr)
    (ws : List VRef) (ts : Shapes) : Prop where
  walk : Walk st.entries.next p as
  inside : ∀ a ∈ as, R (.entry a) ∧ st.Has (.entry a)
  data : as.map st.entries.data = ws.map some
  stored : st.AllStoredIn R ws ts

section

variable {R' : Obj → Prop} {p : Option Addr} {as : List Addr} {ws : List VRef} {ts : Shapes}

theorem Ahead.mono (ahead : st.Ahead R p as ws ts) (within : ∀ o, R o → st.Has o → R' o) :
    st.Ahead R' p as ws ts :=
  ⟨ahead.walk, fun a mem => ⟨within _ (ahead.inside a mem).1 (ahead.inside a mem).2,
    (ahead.inside a mem).2⟩, ahead.data, ahead.stored.mono within⟩

theorem Ahead.keep (ahead : st.Ahead R p as ws ts) (keeps : Keeps R st st') :
    st'.Ahead R p as ws ts where
  walk := ahead.walk.congr fun a mem =>
    keeps.next a (ahead.inside a mem).1 (ahead.inside a mem).2
  inside a mem := ⟨(ahead.inside a mem).1, keeps.grows _ (ahead.inside a mem).2⟩
  data := by
    rw [← ahead.data]
    exact List.map_congr_left fun a mem => keeps.data a (ahead.inside a mem).2
  stored := ahead.stored.keep keeps

theorem Ahead.of_nil (ahead : st.Ahead R p as ws .nil) : p = none := by
  have empty : ws = [] := ahead.stored
  have noEntries : as = [] := by simpa [empty] using ahead.data
  rw [ahead.walk.head, noEntries]
  rfl

/-- The first of several trees. -/
theorem Ahead.of_cons {first : Shape} {others : Shapes}
    (ahead : st.Ahead R p as ws (.cons first others)) : ∃ a as' w ws', as = a :: as' ∧
      p = some a ∧ R (.entry a) ∧ st.Has (.entry a) ∧ st.entries.data a = some w ∧
      st.StoredIn R w first ∧ st.Ahead R (st.entries.next a) as' ws' others := by
  obtain ⟨w, ws', rfl, storedFirst, storedOthers⟩ := ahead.stored
  cases as with
  | nil => cases ahead.data
  | cons a as =>
      obtain ⟨walk, inside, dataEq, -⟩ := ahead
      simp only [List.map_cons, List.cons.injEq] at dataEq
      exact ⟨a, as, w, ws', rfl, walk.1, (inside a List.mem_cons_self).1,
        (inside a List.mem_cons_self).2, dataEq.1, storedFirst, walk.2,
        fun b mem => inside b (List.mem_cons_of_mem a mem), dataEq.2, storedOthers⟩

end

/-- Everything that was not there. -/
def Fresh (st : ValueStore) (o : Obj) : Prop := ¬ st.Has o

/-- All objects but a header and some entries. -/
def Others (l : LRef) (bs : List Addr) (o : Obj) : Prop := o ≠ .list l ∧ ∀ b ∈ bs, o ≠ .entry b

theorem HasStatics.keep (statics : st.HasStatics) (keeps : Keeps R st st') : st'.HasStatics :=
  ⟨keeps.values _ _ statics.1, keeps.values _ _ statics.2⟩

/-- A new value changes nothing that was there. -/
theorem newValue_keeps (R : Obj → Prop) (st : ValueStore) (m : Member) :
    Keeps R st (st.newValue m).2 where
  values v val found := by
    rw [newValue, List.getElem?_append_left (List.getElem?_eq_some_iff.mp found).1, found]
  strings _ _ found := found
  lists _ _ _ found := found
  next _ _ _ := rfl
  data _ _ := rfl
  grows o has := by
    cases o with
    | value w =>
        simp only [Has, newValue, List.length_append] at has ⊢
        exact Nat.lt_add_right _ has
    | list l => exact has
    | entry a => exact has

theorem newValue_found (st : ValueStore) (m : Member) :
    (st.newValue m).2.values[(st.newValue m).1]? = some ⟨m, false, false⟩ :=
  List.getElem?_concat_length ..

theorem newList_keeps (R : Obj → Prop) (st : ValueStore) : Keeps R st st.newList.2 where
  values _ _ found := found
  strings _ _ found := found
  lists l list _ found := by
    rw [newList, List.getElem?_append_left (List.getElem?_eq_some_iff.mp found).1, found]
  next _ _ _ := rfl
  data _ _ := rfl
  grows o has := by
    cases o with
    | value w => exact has
    | list l =>
        simp only [Has, newList, List.length_append] at has ⊢
        exact Nat.lt_add_right _ has
    | entry a => exact has

/-- A list that is being filled has the entries `bs`. -/
def Filled (st : ValueStore) (l : LRef) (bs : List Addr) : Prop :=
  ∃ list, st.lists[l]? = some list ∧ list.isQuoted = false ∧ (list.isNil = true → bs = []) ∧
    list.Reaches st.entries bs

/-- Appending to a list writes to the list and to its entries only. -/
theorem listAppend_keeps {l : LRef} {bs : List Addr} (filled : st.Filled l bs) (w : VRef) :
    Keeps (Others l bs) st (st.listAppend l (some w)) ∧
      (st.listAppend l (some w)).Filled l (bs ++ [st.entries.top]) ∧
      (st.listAppend l (some w)).entries.data st.entries.top = some w := by
  obtain ⟨list, found, quotedEq, nilEq, reaches⟩ := filled
  have storeEq : st.listAppend l (some w) = { st with
      entries := (aklListAppend st.entries list (some w)).2.1
      lists := st.lists.set l (aklListAppend st.entries list (some w)).2.2 } := by
    rw [listAppend, ValueStore.list, List.getD_eq_getElem?_getD, found, Option.getD_some]
  have bound := (List.getElem?_eq_some_iff.mp found).1
  rw [storeEq]
  refine ⟨⟨fun _ _ found => found, fun _ _ found => found, ?_, ?_, ?_, ?_⟩, ⟨_,
    List.getElem?_set_self bound, ?_, ?_, reaches.append (some w)⟩, ?_⟩
  · intro m other inside foundOther
    have ne : l ≠ m := fun equal => inside.1 (congrArg Obj.list equal.symm)
    rw [List.getElem?_set_ne ne]
    exact foundOther
  · intro a inside below
    apply aklListAppend_next st.entries list (some w) (Nat.ne_of_lt below)
    intro lastEq
    exact inside.2 a (List.mem_of_getLast? (reaches.last ▸ lastEq)) rfl
  · intro a below
    rw [aklListAppend_data, if_neg (Nat.ne_of_lt below)]
  · intro o has
    cases o with
    | value v => exact has
    | list m =>
        simp only [Has, List.length_set] at has ⊢
        exact has
    | entry a =>
        simp only [Has, aklListAppend_top] at has ⊢
        exact Nat.lt_succ_of_lt has
  · rw [← quotedEq, aklListAppend]
    cases list.liHead <;> rfl
  · intro isNil
    cases isNil
  · rw [aklListAppend_data, if_pos rfl]

theorem Filled.has {l : LRef} {bs : List Addr} (filled : st.Filled l bs) :
    st.Has (.list l) ∧ ∀ b ∈ bs, st.Has (.entry b) := by
  obtain ⟨list, found, -, -, reaches⟩ := filled
  exact ⟨(List.getElem?_eq_some_iff.mp found).1, reaches.below⟩

theorem Filled.keep {l : LRef} {bs : List Addr} (filled : st.Filled l bs)
    (keeps : Keeps (fun _ => True) st st') : st'.Filled l bs := by
  obtain ⟨list, found, quotedEq, nilEq, reaches⟩ := filled
  refine ⟨list, keeps.lists _ _ trivial found, quotedEq, nilEq, ?_⟩
  apply reaches.congr
  · exact fun a mem => keeps.next a trivial (reaches.below a mem)
  · exact le_of_forall_lt fun a below => keeps.grows (.entry a) below

/-- What is new is neither the list that is being filled nor one of its entries. -/
theorem Filled.fresh_others {l : LRef} {bs : List Addr} (filled : st.Filled l bs) {o : Obj}
    (fresh : st.Fresh o) : Others l bs o := by
  constructor
  · rintro rfl
    exact fresh filled.has.1
  · rintro b mem rfl
    exact fresh (filled.has.2 b mem)

/-- What was there is not the next entry. -/
theorem Others.concat {l : LRef} {bs : List Addr} {c : Addr} {o : Obj} (others : Others l bs o)
    (old : o ≠ .entry c) : Others l (bs ++ [c]) o := by
  refine ⟨others.1, fun b mem => ?_⟩
  rcases List.mem_append.mp mem with inside | new
  · exact others.2 b inside
  · rw [List.mem_singleton.mp new]
    exact old

theorem Others.of_concat {l : LRef} {bs : List Addr} {c : Addr} {o : Obj}
    (others : Others l (bs ++ [c]) o) : Others l bs o :=
  ⟨others.1, fun b mem => others.2 b (List.mem_append_left _ mem)⟩

mutual

/-- The copy is the tree without its marks, in what was not there before. -/
theorem StoredIn.duplicate (known : Nat → Bool) : ∀ {t : Shape} {R : Obj → Prop} {v : VRef}
    {fuel : Nat} {st : ValueStore}, st.HasStatics → st.StoredIn R v t → t.size ≤ fuel →
    ∃ v' st', aklDuplicateValue known fuel (some v) st = .ok (some v', st') ∧
      Keeps (fun _ => True) st st' ∧ st'.StoredIn st.Fresh v' t.unquoted
  | t, _, _, 0, _, _, _, enough => by cases t <;> cases enough
  | .number n, _, v, fuel + 1, st, _, stored, _ => by
      obtain ⟨q, found⟩ := stored
      refine ⟨_, _, ?_, newValue_keeps _ st (.number n), false, newValue_found st _⟩
      simp only [aklDuplicateValue, found]
      rfl
  | .string text, _, v, fuel + 1, st, _, stored, _ => by
      obtain ⟨b, q, found, readEq⟩ := stored
      refine ⟨_, _, ?_, newValue_keeps _ st (.string b), b, false, newValue_found st _, readEq⟩
      simp only [aklDuplicateValue, found]
      rfl
  | .symbol sym isQuoted, _, v, fuel + 1, st, _, stored, _ => by
      have found : st.values[v]? = some ⟨.symbol sym, isQuoted, false⟩ := stored
      refine ⟨_, _, ?_, newValue_keeps _ st (.symbol sym), newValue_found st _⟩
      simp only [aklDuplicateValue, found]
      rfl
  | .true, _, v, fuel + 1, st, statics, stored, _ => by
      obtain ⟨q, found⟩ := stored
      refine ⟨_, _, ?_, .refl _ st, false, statics.2⟩
      simp only [aklDuplicateValue, found]
      rfl
  | .nil, _, v, fuel + 1, st, statics, stored, _ => by
      obtain ⟨q, found⟩ := stored
      refine ⟨_, _, ?_, .refl _ st, false, statics.1⟩
      simp only [aklDuplicateValue, found]
      rfl
  | .list isQuoted items, R, v, fuel + 1, st, statics, stored, enough => by
      obtain ⟨q, l, list, as, ws, found, -, foundList, -, -, reaches, inside, dataEq,
        allStored⟩ := stored
      simp only [Shape.size, Nat.add_le_add_iff_right] at enough
      have within : as.length ≤ fuel :=
        allStored.length_entries dataEq ▸ items.length_le_size.trans enough
      -- the new list
      have keeps := newList_keeps (Others st.newList.1 []) st
      have old : ∀ o, st.Has o → Others st.newList.1 [] o := by
        refine fun o has => ⟨?_, nofun⟩
        rintro rfl
        exact Nat.lt_irrefl _ has
      have filled : st.newList.2.Filled st.newList.1 [] :=
        ⟨aklInitList, List.getElem?_concat_length .., rfl, fun _ => rfl, .aklInitList _⟩
      have ahead : st.Ahead R list.liHead as ws items :=
        ⟨reaches.walk, fun a mem => ⟨inside a mem, reaches.below a mem⟩, dataEq, allStored⟩
      obtain ⟨st₂, cs, xs, loopEq, keeps₂, filled₂, fresh₂, dataEq₂, copied⟩ :=
        Ahead.duplicate known ((ahead.mono fun o _ has => old o has).keep keeps)
          (statics.keep keeps) filled enough within
      obtain ⟨list₂, foundList₂, quotedEq₂, nilEq₂, reaches₂⟩ := filled₂
      have older : ∀ o, st.newList.2.Fresh o → st.Fresh o := fun o fresh has =>
        fresh (keeps.grows o has)
      have foundList' := keeps.lists l list (old _ (List.getElem?_eq_some_iff.mp foundList).1)
        foundList
      refine ⟨_, _, ?_, ?_, false, st.newList.1, list₂, cs, xs,
        newValue_found st₂ (.list st.newList.1), Nat.lt_irrefl _, foundList₂, quotedEq₂, nilEq₂,
        reaches₂, fun c mem => older _ (fresh₂ c mem), dataEq₂, ?_⟩
      · simp only [aklDuplicateValue, found, aklListDuplicate, foundList', loopEq, bind,
          Except.bind, pure, Except.pure]
      · exact ((newList_keeps _ st).trans keeps₂ fun o _ has => old o has).trans
          (newValue_keeps _ st₂ _) fun _ _ _ => trivial
      · exact (copied.mono fun o fresh _ => older o fresh).keep (newValue_keeps _ st₂ _)

/-- The loop of `akl_list_duplicate` fills the list with the copies. -/
theorem Ahead.duplicate (known : Nat → Bool) : ∀ {ts : Shapes} {ws : List VRef}
    {as bs : List Addr} {p : Option Addr} {l : LRef} {rounds fuel : Nat} {st : ValueStore},
    st.Ahead (Others l bs) p as ws ts → st.HasStatics → st.Filled l bs → ts.size ≤ fuel →
    as.length ≤ rounds →
    ∃ st' cs xs, dupEntries (aklDuplicateValue known fuel) l rounds p st = .ok st' ∧
      Keeps (Others l bs) st st' ∧ st'.Filled l (bs ++ cs) ∧ (∀ c ∈ cs, st.Fresh (.entry c)) ∧
      cs.map st'.entries.data = xs.map some ∧ st'.AllStoredIn st.Fresh xs ts.unquoted
  | .nil, _, _, bs, _, l, rounds, fuel, st, ahead, _, filled, _, _ => by
      refine ⟨st, [], [], ?_, .refl _ st, by rwa [List.append_nil], nofun, rfl, rfl⟩
      rw [ahead.of_nil]
      cases rounds <;> rfl
  | .cons first others, _, _, bs, _, l, rounds, fuel, st, ahead, statics, filled, enough,
    within => by
      obtain ⟨a, as, w, ws, rfl, rfl, outside, allocated, headEq, stored, aheadOthers⟩ :=
        ahead.of_cons
      cases rounds with
      | zero => cases within
      | succ rounds =>
          simp only [Shapes.size] at enough
          -- the copy of the first element, and the new list with it
          obtain ⟨v', st₁, dupEq, keeps₁, copied⟩ :=
            stored.duplicate known statics (by omega : first.size ≤ fuel)
          obtain ⟨keeps₂, filled₂, dataEq₂⟩ := listAppend_keeps (filled.keep keeps₁) v'
          have keeps₁₂ := (keeps₁.mono fun _ _ _ => trivial).trans keeps₂ fun _ inside _ => inside
          have notNew : ∀ o, st.Has o → o ≠ .entry st₁.entries.top := by
            rintro o has rfl
            exact Nat.lt_irrefl _ (keeps₁.grows _ has)
          -- the other elements
          obtain ⟨st₃, cs, xs, loopEq, keeps₃, filled₃, fresh₃, dataEq₃, copied₃⟩ :=
            Ahead.duplicate known
              ((aheadOthers.mono fun o inside has => inside.concat (notNew o has)).keep
                (keeps₁₂.mono fun _ inside _ => inside.of_concat))
              (statics.keep keeps₁₂) filled₂ (by omega : others.size ≤ fuel)
              (Nat.le_of_succ_le_succ within)
          have older : ∀ o, (st₁.listAppend l (some v')).Fresh o → st.Fresh o :=
            fun o fresh has => fresh (keeps₁₂.grows o has)
          have newHas : st₁.entries.top < (st₁.listAppend l (some v')).entries.top :=
            filled₂.has.2 _ (by simp)
          refine ⟨st₃, st₁.entries.top :: cs, v' :: xs, ?_, ?_, ?_, ?_, ?_, v', xs, rfl, ?_, ?_⟩
          · simp only [dupEntries, headEq, dupEq, keeps₁₂.next a outside allocated,
              loopEq, bind, Except.bind]
          · exact keeps₁₂.trans keeps₃ fun o inside has => inside.concat (notNew o has)
          · simpa using filled₃
          · intro c mem
            rcases List.mem_cons.mp mem with rfl | inside
            · exact fun has => notNew _ has rfl
            · exact older _ (fresh₃ c inside)
          · rw [List.map_cons, List.map_cons, dataEq₃, keeps₃.data _ newHas, dataEq₂]
          · refine copied.keep ((keeps₂.mono fun o fresh _ => filled.fresh_others fresh).trans
              keeps₃ fun o fresh has => (filled.fresh_others fresh).concat ?_)
            rintro rfl
            exact Nat.lt_irrefl _ has
          · exact copied₃.mono fun o fresh _ => older o fresh

end

/-! ### Faithful copies -/

/-- A tree prints its text and nothing else. -/
theorem StoredIn.prints {t : Shape} (stored : st.StoredIn R v t) (utName : Nat → Option String)
    (text : List Chr) : st.Prints utName v text ↔ text = t.render := by
  have printed : st.Prints utName v t.render := ⟨t.size, fun _ enough => stored.print enough⟩
  constructor
  · exact fun prints => prints.unique printed
  · rintro rfl
    exact printed

/-- The copy prints what the value prints, and afterwards the two do not depend on each
other. -/
def FaithfulCopy (known : Nat → Bool) (utName : Nat → Option String) (st : ValueStore)
    (v : VRef) : Prop :=
  ∃ bound, ∀ fuel, bound ≤ fuel → ∃ v' st',
    aklDuplicateValue known fuel (some v) st = .ok (some v', st') ∧
      (∀ text, st'.Prints utName v' text ↔ st.Prints utName v text) ∧
      st'.Independent utName v v'

end ValueStore

/-- The value itself is a string. -/
def Shape.IsString : Shape → Prop
  | .string _ => True
  | _ => False

namespace ValueStore

variable {st : ValueStore} {R : Obj → Prop} {v : VRef} {t : Shape} {known : Nat → Bool}
  {utName : Nat → Option String}

theorem StoredIn.not_string (stored : st.StoredIn R v t) (notString : ¬ t.IsString) (s : BufRef) :
    st.member v ≠ some (.string s) := by
  intro held
  rw [member] at held
  cases t with
  | number n =>
      obtain ⟨q, found⟩ := stored
      rw [found] at held
      cases held
  | string text => exact notString trivial
  | symbol sym isQuoted =>
      rw [show st.values[v]? = _ from stored] at held
      cases held
  | true =>
      obtain ⟨q, found⟩ := stored
      rw [found] at held
      cases held
  | nil =>
      obtain ⟨q, found⟩ := stored
      rw [found] at held
      cases held
  | list isQuoted items =>
      obtain ⟨q, l, list, as, ws, found, -⟩ := stored
      rw [found] at held
      cases held

/-- Nothing of the copy was there before. -/
theorem StoredIn.sides {st' : ValueStore} {v' : VRef} (stored : st.StoredIn R v t)
    (keeps : Keeps (fun _ => True) st st') (copied : st'.StoredIn st.Fresh v' t.unquoted)
    (notString : ¬ t.IsString) : st'.Sides v v' := by
  have original : st'.StoredIn st.Has v t :=
    (stored.mono fun _ _ has => has).keep (keeps.mono fun _ _ _ => trivial)
  have notString' : ¬ t.unquoted.IsString := by
    cases t with
    | string text => exact absurd trivial notString
    | _ => exact id
  exact ⟨original.allocated, copied.allocated, original.apart copied fun _ has fresh => fresh has,
    original.not_string notString, copied.not_string notString'⟩

/-- A copy that prints the same has no marks. -/
theorem FaithfulCopy.unmarked (faithful : FaithfulCopy known utName st v)
    (statics : st.HasStatics) (stored : st.Stored v t) : t.Unmarked := by
  obtain ⟨bound, copies⟩ := faithful
  obtain ⟨v₁, st₁, dupEq, same, -⟩ := copies (max bound t.size) (Nat.le_max_left _ _)
  obtain ⟨v₂, st₂, dupEq', -, copied⟩ :=
    stored.duplicate known statics (Nat.le_max_right bound t.size)
  rw [dupEq] at dupEq'
  cases dupEq'
  have printed := (same t.render).mpr ((stored.prints utName _).mpr rfl)
  exact t.render_unquoted_iff.mp ((copied.prints utName _).mp printed).symm

/-- A call with two values on a store. -/
def callOn (st : ValueStore) (x v : VRef) : StoreCall := { callWith x v with store := st }

/-- Behind `append!` the old buffer of a string cannot be read. -/
theorem not_prints_replaced {w : VRef} {b : BufRef} {q : Bool} (ne : v ≠ w)
    (found : st.values[w]? = some ⟨.string b, q, false⟩) (bound : b < st.strings.length)
    (new text : List Chr) : ¬ (st.replaced v b new).Prints utName w text := by
  rintro ⟨rounds, ended⟩
  have found' : (st.replaced v b new).values[w]? = some ⟨.string b, q, false⟩ := by
    exact (List.getElem?_modify_ne _ _ ne).trans found
  have freed : (st.replaced v b new).strings[b]? = some none := by
    rw [replaced, List.getElem?_set_self]
    rw [List.length_append]
    exact Nat.lt_add_right _ bound
  have printed := ended (rounds + 1) (Nat.le_succ _)
  simp only [aklPrintValue, found', read, freed] at printed
  cases printed

/-- `append!` frees the buffer that a string shares with its copy, or with its owner. -/
theorem not_faithful_string (stored : st.Stored v t) (isString : t.IsString) :
    ¬ FaithfulCopy known utName st v := by
  cases t with
  | string text =>
      rintro ⟨bound, copies⟩
      obtain ⟨b, q, found, readEq⟩ := stored
      obtain ⟨v', st', dupEq, -, independent⟩ := copies (bound + 1) (Nat.le_succ _)
      have copyEq : aklDuplicateValue known (bound + 1) (some v) st =
          .ok (some (st.newValue (.string b)).1, (st.newValue (.string b)).2) := by
        simp only [aklDuplicateValue, found]
        rfl
      rw [copyEq] at dupEq
      cases dupEq
      have keeps := newValue_keeps (fun _ => True) st (.string b)
      have copied := newValue_found st (.string b)
      have storedV : (st.newValue (.string b)).2.StoredIn (fun _ => False) v (.string text) :=
        ⟨b, q, keeps.values _ _ found, readEq⟩
      have storedCopy : (st.newValue (.string b)).2.StoredIn (fun _ => False)
          (st.newValue (.string b)).1 (.string text) := ⟨b, false, copied, readEq⟩
      have held : (st.newValue (.string b)).2.member v = some (.string b) := by
        rw [member, keeps.values _ _ found]
        rfl
      -- the string is appended to itself
      have on : (callOn (st.newValue (.string b)).2 v v).On [v, v] := callWith_on v v
      have apart : (st.newValue (.string b)).2.Apart v (st.newValue (.string b)).1 :=
        storedV.apart storedCopy fun _ => False.elim
      have start := independent _ .refl
      have owned : b ∉ (st.newValue (.string b)).2.borrowed := fun borrowed =>
        start.1.1 (.call on (.inl rfl) storedV.allocated apart
          (show Adder.append.call _ = _ from Adder.append_borrowed on held readEq held readEq
            borrowed))
      obtain ⟨ctx', returned, storeEq⟩ := Adder.append_string on held readEq held readEq owned
      have mutates : Mutates v (st.newValue (.string b)).1 (st.newValue (.string b)).2 ctx'.store :=
        .call on (.inl rfl) storedV.allocated apart (show Adder.append.call _ = _ from returned)
      have same := ((start.2 ctx'.store).1 mutates _).mpr
        ((storedCopy.prints utName _).mpr rfl)
      have ne : v ≠ (st.newValue (.string b)).1 :=
        Nat.ne_of_lt (List.getElem?_eq_some_iff.mp found).1
      rw [storeEq] at same
      exact not_prints_replaced ne copied (List.getElem?_eq_some_iff.mp readEq).1 _ _ same
  | _ => exact isString.elim

/-- The copy of a number, string, symbol, `T`, `NIL` or list of such values prints the same
and is independent exactly when the value is not itself a string and no mark is printed
in it. -/
theorem duplicate_faithful_iff (known : Nat → Bool) (utName : Nat → Option String)
    (statics : st.HasStatics) (stored : st.Stored v t) :
    FaithfulCopy known utName st v ↔ ¬ t.IsString ∧ t.Unmarked := by
  constructor
  · exact fun faithful => ⟨fun isString => not_faithful_string stored isString faithful,
      faithful.unmarked statics stored⟩
  · rintro ⟨notString, unmarked⟩
    refine ⟨t.size, fun fuel enough => ?_⟩
    obtain ⟨v', st', dupEq, keeps, copied⟩ := stored.duplicate known statics enough
    refine ⟨v', st', dupEq, fun text => ?_, (stored.sides keeps copied notString).independent _⟩
    rw [copied.prints, stored.prints, t.render_unquoted_iff.mpr unmarked]

/-- The list `(1)`, behind its number. -/
def listOfOne : ValueStore :=
  ((init.newValue (.number 1)).2.newList.2.newValue (.list 0)).2.listAppend 0 (some 2)

theorem listOfOne_stored : listOfOne.Stored 3 (.list false (.cons (.number 1) .nil)) :=
  ⟨false, 0, _, [0], [2], rfl, trivial, rfl, rfl, nofun, ⟨⟨rfl, rfl⟩, rfl, rfl, by decide⟩,
    fun _ _ => trivial, rfl, 2, [], rfl, ⟨false, rfl⟩, rfl⟩

theorem duplicate_faithful_list :
    FaithfulCopy (fun _ => false) (fun _ => none) listOfOne 3 ↔
      ¬ (Shape.list false (.cons (.number 1) .nil)).IsString ∧
        (Shape.list false (.cons (.number 1) .nil)).Unmarked :=
  duplicate_faithful_iff (fun _ => false) (fun _ => none) ⟨rfl, rfl⟩ listOfOne_stored

/-- The quoted symbol `:a` behind the static values. -/
def quotedSymbol : ValueStore :=
  { init with values := init.values ++ [⟨.symbol (aklGetOrCreateSymbol [97]), true, false⟩] }

/-- The copy of `:a` prints `a`, and the copy of the string `a` is lost with the string. -/
theorem duplicate_not_faithful :
    ¬ FaithfulCopy (fun _ => false) (fun _ => none) quotedSymbol 2 ∧
      ¬ FaithfulCopy (fun _ => false) (fun _ => none) twoStrings 2 := by
  constructor
  · intro faithful
    have stored : quotedSymbol.Stored 2 (.symbol (aklGetOrCreateSymbol [97]) true) := rfl
    cases faithful.unmarked ⟨rfl, rfl⟩ stored
  · have stored : twoStrings.Stored 2 (.string [97]) := ⟨0, false, rfl, rfl⟩
    exact not_faithful_string stored trivial

end ValueStore

end AkLisp
