import AkLisp.Builtins.Append
import AkLisp.State.Parts

/-!
# Values that share no list

`append!` and `insert!` write to the list they are given, to its two ends and to what they
allocate.  So what is done to one of two values that share neither a header nor an entry
does not change what the other one prints, and they still share nothing afterwards.
-/

namespace AkLisp

open Linked

/-- A header or an entry, which can be written to. -/
def Obj.IsLink : Obj → Prop
  | .value _ => False
  | .list _ => True
  | .entry _ => True

namespace ValueStore

/-- The two values have no header and no entry in common. -/
def Apart (st : ValueStore) (a b : VRef) : Prop :=
  ∀ o : Obj, o.IsLink → st.PartOf o a → ¬ st.PartOf o b

/-- Everything that belongs to the value was allocated. -/
def Allocated (st : ValueStore) (v : VRef) : Prop := ∀ o, st.PartOf o v → st.Has o

/-- What an operation on `a` can be done to: `a` itself, or a list inside it. -/
def Target (st : ValueStore) (a v : VRef) : Prop :=
  v = a ∨ st.PartOf (.value v) a ∧ ∃ l, st.member v = some (.list l)

/-- One call of `append!` or `insert!` on the value `a` or on a list inside it.  What is
added is some value that shares no list with `b`. -/
inductive Mutates (a b : VRef) : ValueStore → ValueStore → Prop
  | call {op : Adder} {ctx ctx' : StoreCall} {x v r : VRef} (on : ctx.On [x, v])
      (target : ctx.store.Target a v) (allocated : ctx.store.Allocated x)
      (apart : ctx.store.Apart x b) (returned : op.call ctx = .ok (r, ctx')) :
      Mutates a b ctx.store ctx'.store

/-- One call on either of two values. -/
def MutatesEither (a b : VRef) (st st' : ValueStore) : Prop :=
  Mutates a b st st' ∨ Mutates b a st st'

/-- Such a call that frees a buffer which belongs to others. -/
inductive FreesBorrowed (a b : VRef) : ValueStore → Prop
  | call {op : Adder} {ctx : StoreCall} {x v : VRef} (on : ctx.On [x, v])
      (target : ctx.store.Target a v) (allocated : ctx.store.Allocated x)
      (apart : ctx.store.Apart x b) (failed : op.call ctx = .error .notOwned) :
      FreesBorrowed a b ctx.store

/-- However the two values are changed, a call on one of them does not change what the
other one prints, and it frees nothing that belongs to others. -/
def Independent (utName : Nat → Option String) (st : ValueStore) (a b : VRef) : Prop :=
  ∀ st₁, Relation.ReflTransGen (MutatesEither a b) st st₁ →
    (¬ FreesBorrowed a b st₁ ∧ ¬ FreesBorrowed b a st₁) ∧ ∀ st₂,
    (Mutates a b st₁ st₂ → ∀ text, st₂.Prints utName b text ↔ st₁.Prints utName b text) ∧
    (Mutates b a st₁ st₂ → ∀ text, st₂.Prints utName a text ↔ st₁.Prints utName a text)

end ValueStore

/-! ### What a call changes -/

namespace Adder

variable {op : Adder} {st : ValueStore} {l : LRef} {list : AklList} {x v : VRef} {o o' : Obj}

theorem enter_top (op : Adder) (m : Mem VRef) (list : AklList) (x : VRef) :
    (op.enter m list x).2.1.top = m.top + 1 := by
  cases op with
  | insert => exact aklListInsertHead_top m list (some x)
  | append => exact aklListAppend_top m list (some x)

/-- No `le_next` is written but the one of the last entry. -/
theorem enter_next (op : Adder) {m : Mem VRef} {a : Addr} (old : a ≠ m.top)
    (notLast : list.liLast ≠ some a) (x : VRef) :
    (op.enter m list x).2.1.next a = m.next a := by
  cases op with
  | insert =>
      rw [enter, aklListInsertHead_next, if_neg old]
  | append => exact aklListAppend_next m list (some x) old notLast

/-- An allocated value of which neither the list nor its last entry is a part does not
change. -/
theorem addTo_agrees (op : Adder) (found : st.lists[l]? = some list) (allocated : st.Allocated v)
    (notList : ¬ st.PartOf (.list l) v)
    (notLast : ∀ a, list.liLast = some a → ¬ st.PartOf (.entry a) v) (x : VRef) :
    st.AgreesOn (op.addTo st l x) v := by
  have old : ∀ a, st.PartOf (.entry a) v → a ≠ st.entries.top := fun a part =>
    Nat.ne_of_lt (allocated _ part)
  rw [op.addTo_eq found]
  constructor
  · exact fun _ _ => rfl
  · exact fun _ _ _ _ => rfl
  · intro m part
    have ne : l ≠ m := by
      rintro rfl
      exact notList part
    exact List.getElem?_set_ne ne
  · intro a part
    exact op.enter_next (old a part) (fun lastEq => notLast a lastEq part) x
  · intro a part
    simp only [enter_data, if_neg (old a part)]

theorem append_next (m : Mem VRef) (list : AklList) (data : Option VRef) (a : Addr) :
    (aklListAppend m list data).2.1.next a =
      if list.liHead.isSome ∧ list.liLast = some a then some m.top
      else if a = m.top then none else m.next a := by
  simp only [aklListAppend]
  cases list.liHead with
  | none => simp
  | some h =>
      cases list.liLast with
      | none => simp [Mem.setNext?]
      | some c => simp [Mem.setNext?, eq_comm]

/-- A link behind the change is an old one, or it leads to the new entry, or from it to the
old head of the list. -/
theorem enter_next_eq_some (op : Adder) {m : Mem VRef} {a b : Addr}
    (nextEq : (op.enter m list x).2.1.next a = some b) :
    a ≠ m.top ∧ m.next a = some b ∨ b = m.top ∨ a = m.top ∧ list.liHead = some b := by
  cases op with
  | insert =>
      rw [enter, aklListInsertHead_next] at nextEq
      split at nextEq
      · next new => exact .inr (.inr ⟨new, nextEq⟩)
      · next old => exact .inl ⟨old, nextEq⟩
  | append =>
      rw [enter, append_next] at nextEq
      split at nextEq
      · exact .inr (.inl (Option.some.inj nextEq).symm)
      · split at nextEq
        · cases nextEq
        · next old => exact .inl ⟨old, nextEq⟩

/-- An end of the list is an old one or the new entry. -/
theorem enter_head (op : Adder) {m : Mem VRef} {a : Addr}
    (headEq : (op.enter m list x).2.2.liHead = some a) : list.liHead = some a ∨ a = m.top := by
  cases op with
  | insert =>
      right
      simp only [enter, aklListInsertHead] at headEq
      exact (Option.some.inj headEq).symm
  | append =>
      simp only [enter, aklListAppend] at headEq
      cases held : list.liHead with
      | none =>
          rw [held] at headEq
          exact .inr (Option.some.inj headEq).symm
      | some h =>
          rw [held] at headEq
          exact .inl (held ▸ headEq)

theorem enter_last (op : Adder) {m : Mem VRef} {a : Addr}
    (lastEq : (op.enter m list x).2.2.liLast = some a) : list.liLast = some a ∨ a = m.top := by
  cases op with
  | insert =>
      simp only [enter, aklListInsertHead] at lastEq
      cases held : list.liHead with
      | none =>
          rw [held] at lastEq
          exact .inr (Option.some.inj lastEq).symm
      | some h =>
          rw [held] at lastEq
          exact .inl lastEq
  | append =>
      right
      simp only [enter, aklListAppend] at lastEq
      exact (Option.some.inj lastEq).symm

/-- A pointer behind the change is an old one, or it leads to the new entry, or from it to
the value that is added or into the list. -/
theorem addTo_points (op : Adder) (found : st.lists[l]? = some list)
    (points : (op.addTo st l x).Points o o') :
    o ≠ .entry st.entries.top ∧ st.Points o o' ∨ o' = .entry st.entries.top ∨
      o = .entry st.entries.top ∧ (o' = .value x ∨ st.Points (.list l) o') := by
  -- the header the pointer comes from is the one that was there, or the changed one
  have header {m : LRef} {new : AklList}
      (foundNew : (st.lists.set l (op.enter st.entries list x).2.2)[m]? = some new) :
      st.lists[m]? = some new ∨ m = l ∧ new = (op.enter st.entries list x).2.2 := by
    rw [List.getElem?_set] at foundNew
    split at foundNew
    · next equal =>
        rw [if_pos (equal ▸ (List.getElem?_eq_some_iff.mp found).1)] at foundNew
        exact .inr ⟨equal.symm, (Option.some.inj foundNew).symm⟩
    · exact .inl foundNew
  rw [op.addTo_eq found] at points
  cases points with
  | list held => exact .inl ⟨nofun, .list held⟩
  | head foundNew headEq =>
      rcases header foundNew with old | ⟨rfl, rfl⟩
      · exact .inl ⟨nofun, .head old headEq⟩
      · rcases op.enter_head headEq with old | rfl
        · exact .inl ⟨nofun, .head found old⟩
        · exact .inr (.inl rfl)
  | last foundNew lastEq =>
      rcases header foundNew with old | ⟨rfl, rfl⟩
      · exact .inl ⟨nofun, .last old lastEq⟩
      · rcases op.enter_last lastEq with old | rfl
        · exact .inl ⟨nofun, .last found old⟩
        · exact .inr (.inl rfl)
  | next nextEq =>
      rcases op.enter_next_eq_some nextEq with ⟨ne, old⟩ | rfl | ⟨rfl, headEq⟩
      · exact .inl ⟨fun equal => ne (Obj.entry.inj equal), .next old⟩
      · exact .inr (.inl rfl)
      · exact .inr (.inr ⟨rfl, .inr (.head found headEq)⟩)
  | data dataEq =>
      simp only [enter_data] at dataEq
      split at dataEq
      · next new =>
          cases dataEq
          exact .inr (.inr ⟨congrArg _ new, .inl rfl⟩)
      · next ne => exact .inl ⟨fun equal => ne (Obj.entry.inj equal), .data dataEq⟩

end Adder

namespace ValueStore

variable {st st' st'' : ValueStore} {a b v x : VRef} {o : Obj}

theorem AgreesOn.refl (st : ValueStore) (v : VRef) : st.AgreesOn st v :=
  ⟨fun _ _ => rfl, fun _ _ _ _ => rfl, fun _ _ => rfl, fun _ _ => rfl, fun _ _ => rfl⟩

theorem AgreesOn.trans (first : st.AgreesOn st' v) (second : st'.AgreesOn st'' v) :
    st.AgreesOn st'' v where
  values w part := (second.values w (first.partOf.mpr part)).trans (first.values w part)
  strings w b part held := by
    have held' : st'.member w = some (.string b) := by rwa [member, first.values w part]
    exact (second.strings w b (first.partOf.mpr part) held').trans (first.strings w b part held)
  lists l part := (second.lists l (first.partOf.mpr part)).trans (first.lists l part)
  next a part := (second.next a (first.partOf.mpr part)).trans (first.next a part)
  data a part := (second.data a (first.partOf.mpr part)).trans (first.data a part)

/-- Every object that was allocated still is. -/
def Grows (st st' : ValueStore) : Prop := ∀ o, st.Has o → st'.Has o

theorem Allocated.of_agrees (allocated : st.Allocated v) (agrees : st.AgreesOn st' v)
    (grows : st.Grows st') : st'.Allocated v := fun o part =>
  grows o (allocated o (agrees.partOf.mp part))

/-- A new list with a value of its own changes no value that was there. -/
theorem newListValue_agrees (allocated : st.Allocated v) :
    st.AgreesOn (st.newList.2.newValue (.list st.newList.1)).2 v := by
  constructor
  · exact fun w part => List.getElem?_append_left (allocated _ part)
  · exact fun _ _ _ _ => rfl
  · exact fun l part => List.getElem?_append_left (allocated _ part)
  · exact fun _ _ => rfl
  · exact fun _ _ => rfl

theorem newListValue_grows (st : ValueStore) :
    st.Grows (st.newList.2.newValue (.list st.newList.1)).2 := by
  intro o has
  cases o with
  | value w =>
      simp only [Has, newValue, newList, List.length_append] at has ⊢
      exact Nat.lt_add_right _ has
  | list l =>
      simp only [Has, newValue, newList, List.length_append] at has ⊢
      exact Nat.lt_add_right _ has
  | entry a => exact has

theorem addTo_grows (op : Adder) (st : ValueStore) (l : LRef) (x : VRef) :
    st.Grows (op.addTo st l x) := by
  intro o has
  cases o with
  | value w => exact has
  | list m =>
      simp only [Has, Adder.addTo, List.length_set] at has ⊢
      exact has
  | entry a =>
      simp only [Has, Adder.addTo, op.enter_top] at has ⊢
      exact Nat.lt_succ_of_lt has

/-- What is done for `NIL` changes no value that was there. -/
theorem newListOf_agrees {ctx : StoreCall} (allocated : ctx.store.Allocated v) :
    ctx.store.AgreesOn (newListOf x ctx).2.store v := by
  have first := newListValue_agrees allocated
  have allocated' := allocated.of_agrees first (newListValue_grows ctx.store)
  have found : (ctx.store.newList.2.newValue (.list ctx.store.newList.1)).2.lists[
      ctx.store.lists.length]? = some aklInitList := by
    simp [newValue, newList]
  refine first.trans
    (Adder.addTo_agrees .append found allocated' ?_ (fun a last => by cases last) x)
  intro part
  exact Nat.lt_irrefl _ (allocated _ (first.partOf.mp part))

theorem newListOf_grows {ctx : StoreCall} : ctx.store.Grows (newListOf x ctx).2.store :=
  fun o has =>
  addTo_grows .append _ _ x o (newListValue_grows ctx.store o has)

/-- Two values side by side, neither of them a string. -/
structure Sides (st : ValueStore) (a b : VRef) : Prop where
  left : st.Allocated a
  right : st.Allocated b
  apart : st.Apart a b
  notString : ∀ s, st.member a ≠ some (.string s)
  notString' : ∀ s, st.member b ≠ some (.string s)

theorem Sides.symm (sides : st.Sides a b) : st.Sides b a :=
  ⟨sides.right, sides.left, fun o link part part' => sides.apart o link part' part,
    sides.notString', sides.notString⟩

theorem AgreesOn.member (agrees : st.AgreesOn st' v) : st'.member v = st.member v := by
  rw [ValueStore.member, agrees.values v (.self st v), ValueStore.member]

/-- Where neither of them changes they stay side by side. -/
theorem Sides.of_agrees (sides : st.Sides a b) (agreesA : st.AgreesOn st' a)
    (agreesB : st.AgreesOn st' b) (grows : st.Grows st') : st'.Sides a b where
  left := sides.left.of_agrees agreesA grows
  right := sides.right.of_agrees agreesB grows
  apart o link part part' := sides.apart o link (agreesA.partOf.mp part) (agreesB.partOf.mp part')
  notString s := by
    rw [agreesA.member]
    exact sides.notString s
  notString' s := by
    rw [agreesB.member]
    exact sides.notString' s

/-- The parts of a value behind the change: old ones, those of the value that was added and
the new entry. -/
theorem partOf_addTo {op : Adder} {l : LRef} {list : AklList} (found : st.lists[l]? = some list)
    (inside : st.PartOf (.list l) a) (part : (op.addTo st l x).PartOf o a) :
    st.PartOf o a ∨ st.PartOf o x ∨ o = .entry st.entries.top := by
  refine reach_subset (S := {o | st.PartOf o a ∨ st.PartOf o x ∨ o = .entry st.entries.top})
    ?_ (.inl (.self st a)) part
  intro o mem o' points
  rcases op.addTo_points found points with ⟨ne, old⟩ | rfl | ⟨rfl, rfl | fromList⟩
  · rcases mem with partA | partX | new
    · exact .inl (partA.step old)
    · exact .inr (.inl (partX.step old))
    · exact absurd new ne
  · exact .inr (.inr rfl)
  · exact .inr (.inl (.self st x))
  · exact .inl (inside.step fromList)

/-- A value is added to a list of `a`: `b` does not change, and the two stay side by side. -/
theorem Sides.addTo (sides : st.Sides a b) {op : Adder} {l : LRef}
    (inside : st.PartOf (.list l) a) (allocated : st.Allocated x) (apart : st.Apart x b) :
    st.AgreesOn (op.addTo st l x) b ∧ (op.addTo st l x).Sides a b := by
  have bound : l < st.lists.length := sides.left _ inside
  have found : st.lists[l]? = some st.lists[l] := List.getElem?_eq_getElem bound
  have agrees : st.AgreesOn (op.addTo st l x) b := by
    apply op.addTo_agrees found sides.right (sides.apart _ trivial inside)
    intro e lastEq
    exact sides.apart _ trivial (inside.step (.last found lastEq))
  have grows := addTo_grows op st l x
  have parts {o : Obj} (part : (op.addTo st l x).PartOf o a) := partOf_addTo found inside part
  refine ⟨agrees, ?_, sides.right.of_agrees agrees grows, ?_, sides.notString, sides.notString'⟩
  · intro o part
    rcases parts part with old | added | rfl
    · exact grows o (sides.left o old)
    · exact grows o (allocated o added)
    · simp only [Has, Adder.addTo, op.enter_top]
      exact Nat.lt_succ_self _
  · intro o link part part'
    have partB := agrees.partOf.mp part'
    rcases parts part with old | added | rfl
    · exact sides.apart o link old partB
    · exact apart o link added partB
    · exact Nat.lt_irrefl _ (sides.right _ partB)

/-- A call on `a` does not change `b`, and the two stay side by side. -/
theorem Sides.mutates (sides : st.Sides a b) (mutates : Mutates a b st st') :
    st.AgreesOn st' b ∧ st'.Sides a b := by
  obtain ⟨on, target, allocated, apart, returned⟩ := mutates
  rename_i op ctx ctx' x v r
  have unchanged (storeEq : ctx'.store = ctx.store) :
      ctx.store.AgreesOn ctx'.store b ∧ ctx'.store.Sides a b := by
    rw [storeEq]
    exact ⟨.refl _ b, sides⟩
  cases held : ctx.store.member v with
  | none =>
      rw [op.call_wild on held] at returned
      cases returned
  | some m =>
      cases m with
      | list l =>
          obtain ⟨ctx₁, callEq, storeEq, -⟩ := op.call_list on held
          rw [callEq] at returned
          cases returned
          rw [storeEq]
          have inside : ctx.store.PartOf (.list l) a := by
            rcases target with rfl | ⟨part, -⟩
            · exact (PartOf.self _ _).step (.list held)
            · exact part.step (.list held)
          exact sides.addTo inside allocated apart
      | nil =>
          obtain ⟨ctx₁, same, callEq⟩ := op.call_nil on held
          rw [callEq] at returned
          have storeEq : ctx'.store = (newListOf x ctx₁).2.store := by
            rw [Except.ok.inj returned]
          rw [storeEq, ← same.store]
          rw [← same.store] at sides
          have agrees := newListOf_agrees (x := x) sides.right
          exact ⟨agrees, sides.of_agrees (newListOf_agrees sides.left) agrees newListOf_grows⟩
      | string s =>
          rcases target with rfl | ⟨-, l, list⟩
          · exact absurd held (sides.notString s)
          · rw [held] at list
            cases list
      | _ =>
          obtain ⟨ctx₁, callEq, storeEq⟩ := op.call_other on held nofun nofun nofun
          rw [callEq] at returned
          cases returned
          exact unchanged storeEq

/-- A value that is not a string has no buffer to free. -/
theorem Sides.not_freesBorrowed (sides : st.Sides a b) : ¬ FreesBorrowed a b st := by
  rintro ⟨on, target, -, -, failed⟩
  rename_i op ctx x v
  cases held : ctx.store.member v with
  | none =>
      rw [op.call_wild on held] at failed
      cases failed
  | some m =>
      cases m with
      | list l =>
          rcases op.call_list on held with ⟨ctx₁, callEq, -⟩
          cases callEq.symm.trans failed
      | nil =>
          rcases op.call_nil on held with ⟨ctx₁, -, callEq⟩
          cases callEq.symm.trans failed
      | string s =>
          rcases target with rfl | ⟨-, l, list⟩
          · exact absurd held (sides.notString s)
          · rw [held] at list
            cases list
      | _ =>
          rcases op.call_other on held nofun nofun nofun with ⟨ctx₁, callEq, -⟩
          cases callEq.symm.trans failed

/-- In a run on both of them each call changes one of them only. -/
theorem Sides.independent (sides : st.Sides a b) (utName : Nat → Option String) :
    st.Independent utName a b := by
  intro st₁ run
  have sides₁ : st₁.Sides a b := by
    induction run with
    | refl => exact sides
    | tail _ step ih =>
        rcases step with left | right
        · exact (ih.mutates left).2
        · exact (ih.symm.mutates right).2.symm
  refine ⟨⟨sides₁.not_freesBorrowed, sides₁.symm.not_freesBorrowed⟩, fun st₂ => ⟨?_, ?_⟩⟩
  · intro mutates text
    exact (sides₁.mutates mutates).1.prints text
  · intro mutates text
    exact (sides₁.symm.mutates mutates).1.prints text

end ValueStore

end AkLisp
