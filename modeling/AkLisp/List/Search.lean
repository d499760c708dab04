import AkLisp.Lexer.Token
import AkLisp.List.Sharing

/-!
# Searching a list by value

`akl_list_find` walks a list with a comparison function, and `akl_list_remove`
takes out what it finds.  The test of the loop guards the write of the position
only; the `return` behind it ends the first round, so the entry found is the
first one of the list, whether or not it compares equal.
-/

namespace AkLisp

open Linked

universe u v

variable {α : Type u} {κ : Type v}

/-- `akl_list_find`.  `ind` is what the caller's `*ind` holds, `none` for a null
pointer. -/
def aklListFind (m : Mem α) (list : AklList) (cmpFn : Option α → Option κ → Int)
    (data : Option κ) (ind : Option UInt32) : Option Addr × Option UInt32 :=
  match list.liHead with
  | none => (none, ind)
  | some ent =>
      -- the first round, with `i` still 0; there is no second one
      (some ent, if cmpFn (m.data ent) data = 0 then ind.map fun _ => 0 else ind)

/-- `akl_list_remove` -/
def aklListRemove (m : Mem α) (list : AklList) (cmpFn : Option α → Option κ → Int)
    (ptr : Option κ) : Except Fault (Option Addr × Mem α × AklList) :=
  match ptr with
  | none => throw .assertion
  | some ptr =>
      let (ent, _) := aklListFind m list cmpFn (some ptr) none
      return aklListRemoveEntry m list ent

/-- The data of the entry compares equal to the key. -/
def equalTo (m : Mem α) (cmpFn : Option α → Option κ → Int) (key : Option κ) (a : Addr) : Bool :=
  cmpFn (m.data a) key == 0

/-- What searching and removing by value should do to a list of the entries
`as`. -/
structure SearchesByValue (m : Mem α) (list : AklList) (as : List Addr)
    (cmpFn : Option α → Option κ → Int) (key : Option κ) (ind : Option UInt32) : Prop where
  /-- the first entry that compares equal is found, with its position -/
  found : ∀ i, as.findIdx? (equalTo m cmpFn key) = some i →
    (aklListFind m list cmpFn key ind).1 = as[i]? ∧
      (ind.isSome → (aklListFind m list cmpFn key ind).2.map UInt32.toNat = some i)
  absent : as.findIdx? (equalTo m cmpFn key) = none → (aklListFind m list cmpFn key ind).1 = none
  /-- exactly that entry is taken out -/
  removed : ∃ m' list', aklListRemove m list cmpFn key =
      .ok (as.find? (equalTo m cmpFn key), m', list') ∧
    list'.Denotes m' (as.eraseP (equalTo m cmpFn key)) ∧ m'.data = m.data ∧
    (as.findIdx? (equalTo m cmpFn key) = none → m' = m ∧ list' = list)

section

variable {m : Mem α} {list : AklList} {as : List Addr} {cmpFn : Option α → Option κ → Int}

theorem aklListFind_nil (denotes : list.Denotes m []) (key : Option κ) (ind : Option UInt32) :
    aklListFind m list cmpFn key ind = (none, ind) := by
  have headEq : list.liHead = none := denotes.head
  rw [aklListFind, headEq]

/-- Whatever the comparison says, the entry found is the first one. -/
theorem aklListFind_cons {a : Addr} (denotes : list.Denotes m (a :: as)) (key : Option κ)
    (ind : Option UInt32) : aklListFind m list cmpFn key ind =
      (some a, if equalTo m cmpFn key a then ind.map fun _ => 0 else ind) := by
  have headEq : list.liHead = some a := denotes.head
  simp [aklListFind, headEq, equalTo]

theorem aklListRemove_cons {a : Addr} (denotes : list.Denotes m (a :: as)) (key : κ) :
    aklListRemove m list cmpFn (some key) = .ok (some a, m.unlink a, list.without m a) := by
  simp only [aklListRemove, aklListFind_cons denotes, aklListRemoveEntry_some]
  rfl

/-- An entry that does not compare equal is found all the same. -/
theorem SearchesByValue.head_equal {a : Addr} {key : Option κ} {ind : Option UInt32}
    (searches : SearchesByValue m list (a :: as) cmpFn key ind)
    (denotes : list.Denotes m (a :: as)) : equalTo m cmpFn key a := by
  by_contra different
  rw [Bool.not_eq_true] at different
  have skipped : (a :: as).findIdx? (equalTo m cmpFn key) =
      (as.findIdx? (equalTo m cmpFn key)).map (· + 1) := by
    rw [List.findIdx?_cons, different]
    rfl
  cases position : as.findIdx? (equalTo m cmpFn key) with
  | none =>
      have notFound := searches.absent (by rw [skipped, position]; rfl)
      rw [aklListFind_cons denotes] at notFound
      cases notFound
  | some i =>
      obtain ⟨foundEq, -⟩ := searches.found (i + 1) (by rw [skipped, position]; rfl)
      rw [aklListFind_cons denotes, List.getElem?_cons_succ] at foundEq
      exact (List.nodup_cons.mp denotes.nodup).1 (List.mem_of_getElem? foundEq.symm)

theorem searchesByValue_nil (denotes : list.Denotes m []) (key : κ) (ind : Option UInt32) :
    SearchesByValue m list [] cmpFn (some key) ind where
  found i position := by cases position
  absent _ := by rw [aklListFind_nil denotes]
  removed := by
    refine ⟨m, list, ?_, denotes, rfl, fun _ => ⟨rfl, rfl⟩⟩
    simp only [aklListRemove, aklListFind_nil denotes]
    rfl

theorem searchesByValue_cons {a : Addr} (denotes : list.Denotes m (a :: as)) {key : κ}
    (equal : equalTo m cmpFn (some key) a) (ind : Option UInt32) :
    SearchesByValue m list (a :: as) cmpFn (some key) ind where
  found i position := by
    rw [List.findIdx?_cons, equal] at position
    cases position
    rw [aklListFind_cons denotes, if_pos equal]
    constructor
    · rfl
    · intro given
      cases ind with
      | none => cases given
      | some old => rfl
  absent position := by
    rw [List.findIdx?_cons, equal] at position
    cases position
  removed := by
    refine ⟨m.unlink a, list.without m a, ?_, ?_, Mem.unlink_data m a, ?_⟩
    · rw [aklListRemove_cons denotes, List.find?_cons_of_pos equal]
    · rw [List.eraseP_cons_of_pos equal]
      exact AklList.Denotes.without (show list.Denotes m ([] ++ a :: as) from denotes)
    · intro position
      rw [List.findIdx?_cons, equal] at position
      cases position

end

/-- Searching and removing by value do what they should exactly when the list is
empty or its first entry compares equal to the key, which is not `NULL`. -/
theorem searches_by_value {m : Mem α} {list : AklList} {as : List Addr}
    (denotes : list.Denotes m as) (cmpFn : Option α → Option κ → Int) (key : Option κ)
    (ind : Option UInt32) :
    SearchesByValue m list as cmpFn key ind ↔
      key ≠ none ∧ ∀ a, as.head? = some a → cmpFn (m.data a) key = 0 := by
  constructor
  · intro searches
    constructor
    · rintro rfl
      obtain ⟨m', list', removed, -⟩ := searches.removed
      cases removed
    · intro a head
      cases as with
      | nil => cases head
      | cons b as =>
          cases head
          simpa [equalTo] using searches.head_equal denotes
  · rintro ⟨given, first⟩
    cases key with
    | none => exact absurd rfl given
    | some key =>
        cases as with
        | nil => exact searchesByValue_nil denotes key ind
        | cons a as =>
            apply searchesByValue_cons denotes
            simpa [equalTo] using first a rfl

/-- The comparison function of the tests. -/
def numberFinder (p1 p2 : Option Int) : Int :=
  if p1 = p2 then 0 else 1

/-- In a list of one number that number is found. -/
theorem searches_by_value_first :
    SearchesByValue (appendValues Mem.empty aklInitList [42]).1
      (appendValues Mem.empty aklInitList [42]).2 [0] numberFinder (some 42) (some 7) :=
  (searches_by_value ((AklList.Denotes.aklInitList Mem.empty).append (some 42)) numberFinder
    (some 42) (some 7)).mpr ⟨by decide, by
      intro a head
      cases head
      rfl⟩

/-- In a list of two numbers a search for the second one finds the first one. -/
theorem searches_by_value_second :
    (appendValues Mem.empty aklInitList [1, 42]).2.Denotes
        (appendValues Mem.empty aklInitList [1, 42]).1 [0, 1] ∧
      ¬ SearchesByValue (appendValues Mem.empty aklInitList [1, 42]).1
        (appendValues Mem.empty aklInitList [1, 42]).2 [0, 1] numberFinder (some 42) (some 7) := by
  constructor
  · exact ((AklList.Denotes.aklInitList Mem.empty).append (some 1)).append (some 42)
  · intro searches
    have foundEq := (searches.found 1 rfl).1
    cases foundEq

end AkLisp
