import AkLisp.List.Sharing
import AkLisp.State.Parts

/-!
# Values as trees

A value built from numbers, strings, symbols, `T`, `NIL` and lists is a tree in a store: its
headers and entries lie in a region, and it stays the tree as long as these do not change.
-/

namespace AkLisp

open Linked

mutual

/-- A value built from numbers, strings, symbols, `T`, `NIL` and lists, without the
addresses. -/
inductive Shape where
  | number (n : ℚ)
  | string (text : List Chr)
  | symbol (sym : Symbol) (isQuoted : Bool)
  | true
  | nil
  | list (isQuoted : Bool) (items : Shapes)

/-- The elements of a list. -/
inductive Shapes where
  | nil
  | cons (first : Shape) (others : Shapes)

end

/-- The number of elements. -/
def Shapes.length : Shapes → Nat
  | .nil => 0
  | .cons _ others => others.length + 1

mutual

/-- A bound on the recursion over the value. -/
def Shape.size : Shape → Nat
  | .list _ items => items.size + 1
  | _ => 1

def Shapes.size : Shapes → Nat
  | .nil => 0
  | .cons first others => first.size + others.size + 1

end

mutual

/-- What `akl_print_value` writes. -/
def Shape.render : Shape → List Chr
  | .number n => formatG n
  | .string text => code '"' :: (text ++ [code '"'])
  | .symbol sym isQuoted => if isQuoted then code ':' :: sym.sbName else sym.sbName
  | .true => "T".toList.map code
  | .nil => nilText
  | .list isQuoted items =>
      if UInt32.ofNat items.length = 0 then nilText
      else (if isQuoted then [code '\''] else []) ++ (code '(' :: (items.render ++ [code ')']))

def Shapes.render : Shapes → List Chr
  | .nil => []
  | .cons first others =>
      first.render ++ ((if others.length ≠ 0 then [code ' '] else []) ++ others.render)

end

namespace ValueStore

mutual

/-- The value is the tree, and its headers and entries are all in the region `R`. -/
def StoredIn (st : ValueStore) (R : Obj → Prop) (v : VRef) : Shape → Prop
  | .number n => ∃ q, st.values[v]? = some ⟨.number n, q, false⟩
  | .string text => ∃ b q, st.values[v]? = some ⟨.string b, q, false⟩ ∧
      st.strings[b]? = some (some text)
  | .symbol sym isQuoted => st.values[v]? = some ⟨.symbol sym, isQuoted, false⟩
  | .true => ∃ q, st.values[v]? = some ⟨.true, q, false⟩
  | .nil => ∃ q, st.values[v]? = some ⟨.nil, q, true⟩
  | .list isQuoted items => ∃ q l list as ws, st.values[v]? = some ⟨.list l, q, false⟩ ∧
      R (.list l) ∧ st.lists[l]? = some list ∧ list.isQuoted = isQuoted ∧
      (list.isNil = true → as = []) ∧ list.Reaches st.entries as ∧ (∀ a ∈ as, R (.entry a)) ∧
      as.map st.entries.data = ws.map some ∧ AllStoredIn st R ws items

def AllStoredIn (st : ValueStore) (R : Obj → Prop) : List VRef → Shapes → Prop
  | ws, .nil => ws = []
  | ws, .cons first others => ∃ w ws', ws = w :: ws' ∧ StoredIn st R w first ∧
      AllStoredIn st R ws' others

end

/-- The value is the tree, wherever its parts are. -/
def Stored (st : ValueStore) (v : VRef) (t : Shape) : Prop := st.StoredIn (fun _ => True) v t

end ValueStore

/-! ### Printing a tree -/

theorem Shapes.length_le_size : ∀ ts : Shapes, ts.length ≤ ts.size
  | .nil => Nat.le_refl 0
  | .cons first others => by
      have := others.length_le_size
      simp only [length, size]
      omega

namespace ValueStore

variable {utName : Nat → Option String} {st : ValueStore} {R : Obj → Prop}

/-- A list of values has as many elements as the tree. -/
theorem AllStoredIn.length : ∀ {ts : Shapes} {ws : List VRef}, st.AllStoredIn R ws ts →
    ws.length = ts.length
  | .nil, ws, stored => by
      have empty : ws = [] := stored
      rw [empty]
      rfl
  | .cons _ _, ws, stored => by
      obtain ⟨w, ws', rfl, -, others⟩ := stored
      rw [List.length_cons, AllStoredIn.length others, Shapes.length]

theorem AllStoredIn.length_entries {ts : Shapes} {ws : List VRef} {as : List Addr}
    (stored : st.AllStoredIn R ws ts) (dataEq : as.map st.entries.data = ws.map some) :
    as.length = ts.length := by
  rw [← stored.length]
  simpa using congrArg List.length dataEq

mutual

/-- A value that is the tree is printed as the tree. -/
theorem StoredIn.print : ∀ {t : Shape} {v : VRef} {fuel : Nat}, st.StoredIn R v t →
    t.size ≤ fuel → st.aklPrintValue utName fuel (some v) = .ok t.render
  | t, _, 0, _, enough => by cases t <;> cases enough
  | .number n, v, fuel + 1, stored, _ => by
      obtain ⟨q, found⟩ := stored
      simp [aklPrintValue, found, Shape.render, pure, Except.pure]
  | .string text, v, fuel + 1, stored, _ => by
      obtain ⟨b, q, found, readEq⟩ := stored
      simp [aklPrintValue, found, read, readEq, Shape.render, bind, Except.bind, pure, Except.pure]
  | .symbol sym isQuoted, v, fuel + 1, stored, _ => by
      have found : st.values[v]? = some ⟨.symbol sym, isQuoted, false⟩ := stored
      simp [aklPrintValue, found, Shape.render, pure, Except.pure]
  | .true, v, fuel + 1, stored, _ => by
      obtain ⟨q, found⟩ := stored
      simp [aklPrintValue, found, Shape.render, pure, Except.pure]
  | .nil, v, fuel + 1, stored, _ => by
      obtain ⟨q, found⟩ := stored
      simp [aklPrintValue, found, Shape.render, pure, Except.pure]
  | .list isQuoted items, v, fuel + 1, stored, enough => by
      obtain ⟨q, l, list, as, ws, found, -, foundList, quotedEq, nilEq, reaches, -, dataEq,
        allStored⟩ := stored
      have lengthEq : as.length = items.length := allStored.length_entries dataEq
      simp only [Shape.size, Nat.add_le_add_iff_right] at enough
      have within : as.length ≤ fuel := lengthEq ▸ items.length_le_size.trans enough
      have loop := allStored.printEntries reaches.walk dataEq enough within
      simp only [aklPrintValue, found, aklPrintList, foundList, reaches.count, lengthEq,
        Shape.render]
      by_cases empty : UInt32.ofNat items.length = 0
      · simp [empty, pure, Except.pure]
      · have notNil : ¬ list.isNil = true := by
          intro nil
          rw [← lengthEq, nilEq nil] at empty
          exact empty rfl
        simp [empty, notNil, loop, quotedEq, bind, Except.bind, pure, Except.pure]

/-- The loop of `akl_print_list` writes the elements with blanks between them. -/
theorem AllStoredIn.printEntries : ∀ {ts : Shapes} {ws : List VRef} {as : List Addr}
    {p : Option Addr} {rounds fuel : Nat}, st.AllStoredIn R ws ts → Walk st.entries.next p as →
    as.map st.entries.data = ws.map some → ts.size ≤ fuel → as.length ≤ rounds →
    ValueStore.printEntries (st.aklPrintValue utName fuel) st.entries rounds p = .ok ts.render
  | .nil, ws, as, p, rounds, fuel, stored, walk, dataEq, _, _ => by
      have empty : ws = [] := stored
      subst empty
      have none_ : as = [] := by simpa using dataEq
      subst none_
      rw [Walk.nil_iff.mp walk]
      cases rounds <;> rfl
  | .cons first others, ws, as, p, rounds, fuel, stored, walk, dataEq, enough, within => by
      obtain ⟨w, ws', rfl, storedFirst, storedOthers⟩ := stored
      cases as with
      | nil => cases dataEq
      | cons a as =>
          simp only [List.map_cons, List.cons.injEq] at dataEq
          obtain ⟨headEq, tailEq⟩ := dataEq
          obtain ⟨rfl, walk'⟩ := Walk.cons_iff.mp walk
          cases rounds with
          | zero => cases within
          | succ rounds =>
              simp only [Shapes.size] at enough
              have text : st.aklPrintValue utName fuel (some w) = .ok first.render :=
                storedFirst.print (by omega)
              have loop : ValueStore.printEntries (st.aklPrintValue utName fuel) st.entries rounds
                  (st.entries.next a) = .ok others.render :=
                storedOthers.printEntries walk' tailEq (by omega) (Nat.le_of_succ_le_succ within)
              have more : (st.entries.next a).isSome = decide (others.length ≠ 0) := by
                rw [walk'.head, ← storedOthers.length_entries tailEq]
                cases as <;> simp
              simp [ValueStore.printEntries, headEq, text, loop, more, Shapes.render, bind,
                Except.bind, pure, Except.pure]

end

/-! ### A store that grows -/

/-- What was found is still there.  Only headers and entries outside of the region `R` were
written to, and no entry has other data. -/
structure Keeps (R : Obj → Prop) (st st' : ValueStore) : Prop where
  values : ∀ (v : VRef) (val : StoreValue), st.values[v]? = some val → st'.values[v]? = some val
  strings : ∀ (b : BufRef) (text : Option (List Chr)), st.strings[b]? = some text →
    st'.strings[b]? = some text
  lists : ∀ (l : LRef) (list : AklList), R (.list l) → st.lists[l]? = some list →
    st'.lists[l]? = some list
  next : ∀ a, R (.entry a) → a < st.entries.top → st'.entries.next a = st.entries.next a
  data : ∀ a, a < st.entries.top → st'.entries.data a = st.entries.data a
  grows : ∀ o, st.Has o → st'.Has o

section

variable {R' : Obj → Prop} {st' st'' : ValueStore}

theorem Keeps.refl (R : Obj → Prop) (st : ValueStore) : st.Keeps R st :=
  ⟨fun _ _ found => found, fun _ _ found => found, fun _ _ _ found => found, fun _ _ _ => rfl,
    fun _ _ => rfl, fun _ has => has⟩

/-- Of the region only what was allocated matters. -/
theorem Keeps.mono (keeps : Keeps R' st st') (within : ∀ o, R o → st.Has o → R' o) :
    Keeps R st st' where
  values := keeps.values
  strings := keeps.strings
  lists l list inside found :=
    keeps.lists l list (within _ inside (List.getElem?_eq_some_iff.mp found).1) found
  next a inside below := keeps.next a (within _ inside below) below
  data := keeps.data
  grows := keeps.grows

/-- The second region has what was allocated of the first one from the beginning. -/
theorem Keeps.trans (first : Keeps R st st') (second : Keeps R' st' st'')
    (within : ∀ o, R o → st.Has o → R' o) : Keeps R st st'' where
  values v val found := second.values v val (first.values v val found)
  strings b text found := second.strings b text (first.strings b text found)
  lists l list inside found :=
    second.lists l list (within _ inside (List.getElem?_eq_some_iff.mp found).1)
      (first.lists l list inside found)
  next a inside below :=
    (second.next a (within _ inside below) (first.grows (.entry a) below)).trans
      (first.next a inside below)
  data a below := (second.data a (first.grows (.entry a) below)).trans (first.data a below)
  grows o has := second.grows o (first.grows o has)

mutual

/-- A tree in a region that is not written to stays the tree. -/
theorem StoredIn.keep (keeps : Keeps R st st') : ∀ {t : Shape} {v : VRef}, st.StoredIn R v t →
    st'.StoredIn R v t
  | .number _, _, ⟨q, found⟩ => ⟨q, keeps.values _ _ found⟩
  | .string _, _, ⟨b, q, found, readEq⟩ =>
      ⟨b, q, keeps.values _ _ found, keeps.strings _ _ readEq⟩
  | .symbol _ _, _, found => keeps.values _ _ found
  | .true, _, ⟨q, found⟩ => ⟨q, keeps.values _ _ found⟩
  | .nil, _, ⟨q, found⟩ => ⟨q, keeps.values _ _ found⟩
  | .list _ _, _, ⟨q, l, list, as, ws, found, insideList, foundList, quotedEq, nilEq, reaches,
      inside, dataEq, stored⟩ => by
      have kept : list.Reaches st'.entries as := by
        apply reaches.congr
        · exact fun a mem => keeps.next a (inside a mem) (reaches.below a mem)
        · exact le_of_forall_lt fun a below => keeps.grows (.entry a) below
      have dataEq' : as.map st'.entries.data = ws.map some := by
        rw [← dataEq]
        exact List.map_congr_left fun a mem => keeps.data a (reaches.below a mem)
      exact ⟨q, l, list, as, ws, keeps.values _ _ found, insideList,
        keeps.lists _ _ insideList foundList, quotedEq, nilEq, kept, inside, dataEq',
        stored.keep keeps⟩

theorem AllStoredIn.keep (keeps : Keeps R st st') : ∀ {ts : Shapes} {ws : List VRef},
    st.AllStoredIn R ws ts → st'.AllStoredIn R ws ts
  | .nil, _, stored => stored
  | .cons _ _, _, ⟨w, ws, wsEq, first, others⟩ => ⟨w, ws, wsEq, first.keep keeps, others.keep keeps⟩

end

mutual

/-- A tree lies in every region that has what is allocated of the first one. -/
theorem StoredIn.mono (within : ∀ o, R o → st.Has o → R' o) : ∀ {t : Shape} {v : VRef},
    st.StoredIn R v t → st.StoredIn R' v t
  | .number _, _, stored => stored
  | .string _, _, stored => stored
  | .symbol _ _, _, stored => stored
  | .true, _, stored => stored
  | .nil, _, stored => stored
  | .list _ _, _, ⟨q, l, list, as, ws, found, insideList, foundList, quotedEq, nilEq, reaches,
      inside, dataEq, stored⟩ =>
      ⟨q, l, list, as, ws, found, within _ insideList (List.getElem?_eq_some_iff.mp foundList).1,
        foundList, quotedEq, nilEq, reaches,
        fun a mem => within _ (inside a mem) (reaches.below a mem), dataEq, stored.mono within⟩

theorem AllStoredIn.mono (within : ∀ o, R o → st.Has o → R' o) : ∀ {ts : Shapes}
    {ws : List VRef}, st.AllStoredIn R ws ts → st.AllStoredIn R' ws ts
  | .nil, _, stored => stored
  | .cons _ _, _, ⟨w, ws, wsEq, first, others⟩ =>
      ⟨w, ws, wsEq, first.mono within, others.mono within⟩

end

end

/-! ### The parts of a tree -/

/-- A value that points to nothing is its only part. -/
theorem partOf_leaf {v : VRef} {o : Obj} (leaf : ∀ l, st.member v ≠ some (.list l))
    (part : st.PartOf o v) : o = .value v := by
  refine reach_subset (S := {o | o = .value v}) ?_ rfl part
  rintro o rfl o' points
  cases points with
  | list held => exact absurd held (leaf _)

/-- The parts of a list are its header, its entries and the parts of its elements. -/
theorem partOf_list {v : VRef} {o : Obj} {l : LRef} {list : AklList} {as : List Addr}
    {ws : List VRef} (held : st.member v = some (.list l)) (found : st.lists[l]? = some list)
    (reaches : list.Reaches st.entries as) (dataEq : as.map st.entries.data = ws.map some)
    (part : st.PartOf o v) :
    o = .value v ∨ o = .list l ∨ (∃ a ∈ as, o = .entry a) ∨ ∃ w ∈ ws, st.PartOf o w := by
  refine reach_subset (S := {o | o = .value v ∨ o = .list l ∨ (∃ a ∈ as, o = .entry a) ∨
    ∃ w ∈ ws, st.PartOf o w}) ?_ (.inl rfl) part
  rintro o (rfl | rfl | ⟨a, mem, rfl⟩ | ⟨w, mem, inner⟩) o' points
  · cases points with
    | list held' =>
        rw [held] at held'
        cases held'
        exact .inr (.inl rfl)
  · cases points with
    | head found' headEq =>
        rw [found] at found'
        cases found'
        refine .inr (.inr (.inl ⟨_, List.mem_of_head? ?_, rfl⟩))
        rw [← reaches.walk.head, headEq]
    | last found' lastEq =>
        rw [found] at found'
        cases found'
        refine .inr (.inr (.inl ⟨_, List.mem_of_getLast? ?_, rfl⟩))
        rw [← reaches.last, lastEq]
  · cases points with
    | next nextEq => exact .inr (.inr (.inl ⟨_, reaches.walk.mem_next mem nextEq, rfl⟩))
    | @data _ u dataEq' =>
        have mem' : some u ∈ ws.map some := dataEq ▸ List.mem_map.mpr ⟨a, mem, dataEq'⟩
        obtain ⟨w, inside, equal⟩ := List.mem_map.mp mem'
        cases equal
        exact .inr (.inr (.inr ⟨u, inside, .self st u⟩))
  · exact .inr (.inr (.inr ⟨w, mem, inner.step points⟩))

end ValueStore

end AkLisp
