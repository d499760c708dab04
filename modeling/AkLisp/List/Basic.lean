import AkLisp.Linked.Walk

/-!
# The linked list of the interpreter

One kind of doubly linked list serves as evaluation stack, argument frame,
instruction list, label table, error list and Lisp list.  The operations are
those of `list.c`; an entry is a node of a node memory and `NULL` is `none`.
A header `Denotes` a sequence of entries when they are chained between its two
ends and counted by it, the count being a 32-bit unsigned integer.
-/

namespace AkLisp

open Linked

universe u

/-- List header (`struct akl_list`).  `liParent` names the containing list. -/
structure AklList where
  liHead : Option Addr
  liLast : Option Addr
  liParent : Option Nat
  liCount : UInt32
  isQuoted : Bool
  isNil : Bool
  deriving DecidableEq

/-- `akl_init_list`. -/
def aklInitList : AklList :=
  ⟨none, none, none, 0, false, false⟩

instance : Inhabited AklList := ⟨aklInitList⟩

variable {α : Type u}

/-- `akl_list_append`: a new entry behind the last one. -/
def aklListAppend (m : Mem α) (list : AklList) (data : Option α) : Addr × Mem α × AklList :=
  let ent := m.top
  let m := m.alloc data
  let (m, list) :=
    match list.liHead with
    | none => (m, { list with liHead := some ent })
    | some _ => ((m.setNext? list.liLast (some ent)).setPrev ent list.liLast, list)
  (ent, m, { list with liLast := some ent, liCount := list.liCount + 1, isNil := false })

@[simp]
theorem aklListAppend_top (m : Mem α) (list : AklList) (data : Option α) :
    (aklListAppend m list data).2.1.top = m.top + 1 := by
  simp only [aklListAppend]
  cases list.liHead <;> cases list.liLast <;> rfl

@[simp]
theorem aklListAppend_data (m : Mem α) (list : AklList) (data : Option α) (a : Addr) :
    (aklListAppend m list data).2.1.data a = if a = m.top then data else m.data a := by
  simp only [aklListAppend]
  cases list.liHead <;> cases list.liLast <;> simp [Mem.setNext?]

@[simp]
theorem aklListAppend_count (m : Mem α) (list : AklList) (data : Option α) :
    (aklListAppend m list data).2.2.liCount = list.liCount + 1 := by
  simp only [aklListAppend]
  cases list.liHead <;> rfl

/-- Appending writes a `next` field of no other entry than the last one. -/
theorem aklListAppend_next (m : Mem α) (list : AklList) (data : Option α) {a : Addr}
    (old : a ≠ m.top) (notLast : list.liLast ≠ some a) :
    (aklListAppend m list data).2.1.next a = m.next a := by
  simp only [aklListAppend]
  cases list.liHead with
  | none => simp [old]
  | some b =>
      cases lastEq : list.liLast with
      | none => simp [Mem.setNext?, old]
      | some c =>
          have ne : a ≠ c := by
            rintro rfl
            exact notLast lastEq
          simp [Mem.setNext?, old, ne]

theorem aklListAppend_prev (m : Mem α) (list : AklList) (data : Option α) {a : Addr}
    (old : a ≠ m.top) : (aklListAppend m list data).2.1.prev a = m.prev a := by
  simp only [aklListAppend]
  cases list.liHead with
  | none => simp [old]
  | some b => cases list.liLast <;> simp [Mem.setNext?, old]

/-- `akl_list_insert_head`: a new entry before the first one. -/
def aklListInsertHead (m : Mem α) (list : AklList) (data : Option α) : Addr × Mem α × AklList :=
  let ent := m.top
  let m := m.alloc data
  let (m, list) :=
    match list.liHead with
    | none => (m, { list with liLast := some ent })
    | some _ => ((m.setPrev? list.liHead (some ent)).setNext ent list.liHead, list)
  (ent, m, { list with liHead := some ent, liCount := list.liCount + 1, isNil := false })

@[simp]
theorem aklListInsertHead_top (m : Mem α) (list : AklList) (data : Option α) :
    (aklListInsertHead m list data).2.1.top = m.top + 1 := by
  simp only [aklListInsertHead]
  cases list.liHead <;> rfl

@[simp]
theorem aklListInsertHead_count (m : Mem α) (list : AklList) (data : Option α) :
    (aklListInsertHead m list data).2.2.liCount = list.liCount + 1 := by
  simp only [aklListInsertHead]
  cases list.liHead <;> rfl

@[simp]
theorem aklListInsertHead_data (m : Mem α) (list : AklList) (data : Option α) (a : Addr) :
    (aklListInsertHead m list data).2.1.data a = if a = m.top then data else m.data a := by
  simp only [aklListInsertHead]
  cases list.liHead <;> simp [Mem.setPrev?]

/-- Inserting at the head writes the `next` field of the new entry only. -/
theorem aklListInsertHead_next (m : Mem α) (list : AklList) (data : Option α) (a : Addr) :
    (aklListInsertHead m list data).2.1.next a = if a = m.top then list.liHead else m.next a := by
  simp only [aklListInsertHead]
  by_cases new : a = m.top
  · cases list.liHead <;> simp [Mem.setPrev?, new]
  · cases list.liHead <;> simp [Mem.setPrev?, new]

/-- `akl_list_head`. -/
def aklListHead (m : Mem α) (list : AklList) : Option α :=
  list.liHead.bind m.data

/-- `akl_list_last`. -/
def aklListLast (m : Mem α) (list : AklList) : Option α :=
  list.liLast.bind m.data

/-- `akl_list_shift_entry`: the new head loses its `le_prev` and the count goes
down whether or not there was an entry. -/
def aklListShiftEntry (m : Mem α) (list : AklList) : Option Addr × Mem α × AklList :=
  let ohead := list.liHead
  let nhead := ohead.bind m.next
  let m := m.setPrev? nhead none
  let list := { list with liHead := nhead }
  let list := if ohead = list.liLast then { list with liLast := nhead } else list
  (ohead, m, { list with liCount := list.liCount - 1 })

@[simp]
theorem aklListShiftEntry_data (m : Mem α) (list : AklList) :
    (aklListShiftEntry m list).2.1.data = m.data := by
  simp only [aklListShiftEntry]
  cases list.liHead.bind m.next <;> rfl

/-- `akl_list_remove_entry`. -/
def aklListRemoveEntry (m : Mem α) (list : AklList) (ent : Option Addr) :
    Option Addr × Mem α × AklList :=
  match ent with
  | none => (none, m, list)
  | some a =>
      let prev := m.prev a
      let next := m.next a
      let m := m.setNext? prev next
      let m := m.setPrev? next prev
      let list := if list.liHead = some a then { list with liHead := next } else list
      let list := if list.liLast = some a then { list with liLast := prev } else list
      (some a, m, { list with liCount := list.liCount - 1 })

/-- The header `akl_list_remove_entry` leaves behind. -/
def AklList.without (list : AklList) (m : Mem α) (a : Addr) : AklList where
  liHead := if list.liHead = some a then m.next a else list.liHead
  liLast := if list.liLast = some a then m.prev a else list.liLast
  liParent := list.liParent
  liCount := list.liCount - 1
  isQuoted := list.isQuoted
  isNil := list.isNil

@[simp]
theorem aklListRemoveEntry_some (m : Mem α) (list : AklList) (a : Addr) :
    aklListRemoveEntry m list (some a) = (some a, m.unlink a, list.without m a) := by
  simp only [aklListRemoveEntry, AklList.without, Mem.unlink]
  split <;> split <;> rfl

/-- `akl_list_pop_entry`. -/
def aklListPopEntry (m : Mem α) (list : AklList) : Option Addr × Mem α × AklList :=
  match list.liLast with
  | none => (none, m, list)
  | some a => aklListRemoveEntry m list (some a)

/-- `akl_list_pop`. -/
def aklListPop (m : Mem α) (list : AklList) : Option α × Mem α × AklList :=
  let (ent, m, list) := aklListPopEntry m list
  (ent.bind m.data, m, list)

/-- The forward walk of `akl_list_index_entry`, `index` steps from `ent`. -/
def indexForward (m : Mem α) (ent : Addr) : Nat → Option Addr
  | 0 => some ent
  | index + 1 =>
      match m.next ent with
      | none => none
      | some ent => indexForward m ent index

/-- The backward walk of `akl_list_index_entry`. -/
def indexBackward (m : Mem α) (ent : Addr) : Nat → Option Addr
  | 0 => some ent
  | index + 1 =>
      match m.prev ent with
      | none => none
      | some ent => indexBackward m ent index

/-- `akl_list_index_entry`: `index` counts from the head, a negative one from
the last entry. -/
def aklListIndexEntry (m : Mem α) (list : AklList) : Int → Option Addr
  | .ofNat index => if list.liHead = none then none else list.liHead.bind fun ent =>
      indexForward m ent index
  | .negSucc index => if list.liHead = none then none else list.liLast.bind fun ent =>
      indexBackward m ent index

/-- `akl_list_index`, `akl_list_index_value`. -/
def aklListIndex (m : Mem α) (list : AklList) (index : Int) : Option α :=
  (aklListIndexEntry m list index).bind m.data

/-- The header denotes exactly the entries `as`. -/
structure AklList.Denotes (m : Mem α) (list : AklList) (as : List Addr) : Prop where
  nodup : as.Nodup
  below : ∀ a ∈ as, a < m.top
  chained : Chained m none as none
  head : list.liHead = as.head?
  last : list.liLast = as.getLast?
  count : list.liCount = UInt32.ofNat as.length

namespace AklList.Denotes

variable {m : Mem α} {list : AklList} {as : List Addr}

theorem aklInitList (m : Mem α) : AklList.Denotes m AkLisp.aklInitList [] where
  nodup := List.nodup_nil
  below := by simp
  chained := trivial
  head := rfl
  last := rfl
  count := rfl

/-- A header denotes one list of entries only. -/
theorem unique {bs : List Addr} (denotes : list.Denotes m as) (denotes' : list.Denotes m bs) :
    as = bs :=
  denotes.chained.unique denotes'.chained (denotes.head.symm.trans denotes'.head)

theorem walkForward (denotes : list.Denotes m as) : Walk m.next list.liHead as := by
  rw [denotes.head]
  exact denotes.chained.walk_next

theorem walkBackward (denotes : list.Denotes m as) :
    Walk m.prev list.liLast as.reverse := by
  rw [denotes.last]
  exact denotes.chained.walk_prev

theorem top_notMem (denotes : list.Denotes m as) : m.top ∉ as :=
  fun mem => Nat.lt_irrefl _ (denotes.below _ mem)

/-- Appending adds the entry `m.top` at the end. -/
theorem append (denotes : list.Denotes m as) (data : Option α) :
    (aklListAppend m list data).2.2.Denotes (aklListAppend m list data).2.1 (as ++ [m.top]) := by
  have notMem := denotes.top_notMem
  have alloced := denotes.chained.alloc denotes.below data
  rcases List.eq_nil_or_concat as with rfl | ⟨init, lastA, rfl⟩
  · have headEq : list.liHead = none := by simpa using denotes.head
    have countEq : list.liCount = 0 := by simpa using denotes.count
    simp only [aklListAppend, headEq]
    refine ⟨by simp, by simp, by simp, by simp, by simp, ?_⟩
    simp [countEq]
  · rw [List.concat_eq_append] at *
    have lastEq : list.liLast = some lastA := by simpa using denotes.last
    obtain ⟨headA, headEq⟩ : ∃ a, list.liHead = some a := by
      cases init with
      | nil => exact ⟨lastA, by simpa using denotes.head⟩
      | cons a init => exact ⟨a, by simpa using denotes.head⟩
    have lastNe : m.top ≠ lastA := by
      rintro rfl
      simp at notMem
    have lastNotMem : lastA ∉ init := by
      intro mem
      exact (List.nodup_append.mp denotes.nodup).2.2 lastA mem lastA (by simp) rfl
    simp only [aklListAppend, headEq, lastEq, Mem.setNext?]
    refine ⟨?_, ?_, ?_, ?_, by simp, ?_⟩
    · rw [List.nodup_append]
      refine ⟨denotes.nodup, by simp, ?_⟩
      rintro a mem b memB rfl
      rw [List.mem_singleton] at memB
      exact notMem (memB ▸ mem)
    · intro a mem
      rcases List.mem_append.mp mem with mem | mem
      · exact Nat.lt_succ_of_lt (denotes.below a mem)
      · rw [List.mem_singleton.mp mem]
        exact Nat.lt_succ_self _
    · rw [chained_append]
      refine ⟨?_, by simp, by simp [lastNe], trivial⟩
      refine (alloced.setNext_last lastNotMem _).congr (fun _ _ => rfl) ?_
      intro a mem
      have ne : a ≠ m.top := fun equal => notMem (equal ▸ mem)
      simp [ne]
    · rw [← headEq, denotes.head]
      cases init <;> rfl
    · simp only [denotes.count, List.length_append, UInt32.ofNat_add]
      rfl

/-- Inserting at the head adds the entry `m.top` in front. -/
theorem insertHead (denotes : list.Denotes m as) (data : Option α) :
    (aklListInsertHead m list data).2.2.Denotes (aklListInsertHead m list data).2.1
      (m.top :: as) := by
  have notMem := denotes.top_notMem
  have alloced := denotes.chained.alloc denotes.below data
  cases as with
  | nil =>
      have headEq : list.liHead = none := denotes.head
      have countEq : list.liCount = 0 := denotes.count
      simp only [aklListInsertHead, headEq]
      constructor <;> simp [countEq]
  | cons headA as =>
      have headEq : list.liHead = some headA := denotes.head
      have headNe : headA ≠ m.top := by
        rintro rfl
        simp at notMem
      have headNotMem : headA ∉ as := (List.nodup_cons.mp denotes.nodup).1
      simp only [aklListInsertHead, headEq, Mem.setPrev?]
      constructor
      · exact List.nodup_cons.mpr ⟨notMem, denotes.nodup⟩
      · intro a mem
        rcases List.mem_cons.mp mem with rfl | mem
        · exact Nat.lt_succ_self _
        · exact Nat.lt_succ_of_lt (denotes.below a mem)
      · refine ⟨by simp [Ne.symm headNe], by simp, ?_⟩
        refine (alloced.setPrev_head headNotMem _).congr ?_ (fun _ _ => rfl)
        intro a mem
        have ne : a ≠ m.top := fun equal => notMem (equal ▸ mem)
        simp [ne]
      · rfl
      · rw [List.getLast?_cons_cons]
        exact denotes.last
      · simp only [denotes.count, List.length_cons, UInt32.ofNat_add]
        rfl

/-- Shifting takes the first entry away. -/
theorem shift {a : Addr} (denotes : list.Denotes m (a :: as)) :
    (aklListShiftEntry m list).2.2.Denotes (aklListShiftEntry m list).2.1 as := by
  have headEq : list.liHead = some a := denotes.head
  have notMem : a ∉ as := (List.nodup_cons.mp denotes.nodup).1
  have nextEq : m.next a = as.head? := by simpa using denotes.chained.2.1
  have countEq : list.liCount - 1 = UInt32.ofNat as.length := by
    rw [denotes.count, List.length_cons, UInt32.ofNat_add]
    simp
  simp only [aklListShiftEntry, headEq, Option.bind_some, nextEq]
  cases as with
  | nil =>
      have lastEq : list.liLast = some a := denotes.last
      simp only [lastEq]
      constructor <;> simp [countEq]
  | cons b as =>
      have lastEq : list.liLast = (b :: as).getLast? := by
        rw [denotes.last, List.getLast?_cons_cons]
      have lastNe : some a ≠ list.liLast := by
        rw [lastEq]
        intro equal
        exact notMem (List.mem_of_getLast? equal.symm)
      have headNotMem : b ∉ as := (List.nodup_cons.mp (List.nodup_cons.mp denotes.nodup).2).1
      simp only [if_neg lastNe]
      constructor
      · exact (List.nodup_cons.mp denotes.nodup).2
      · exact fun c mem => denotes.below c (List.mem_cons_of_mem a mem)
      · exact denotes.chained.2.2.setPrev_head headNotMem none
      · rfl
      · exact lastEq
      · exact countEq

/-- Removing an inner entry by unlinking it leaves the others in order. -/
theorem without {xs ys : List Addr} {a : Addr} (denotes : list.Denotes m (xs ++ a :: ys)) :
    (list.without m a).Denotes (m.unlink a) (xs ++ ys) := by
  have prevA : m.prev a = xs.getLast? := by simpa using denotes.chained.prev_at
  have nextA : m.next a = ys.head? := by simpa using denotes.chained.next_at
  have notX : a ∉ xs := fun mem =>
    (List.nodup_append.mp denotes.nodup).2.2 a mem a (by simp) rfl
  have notY : a ∉ ys := (List.nodup_cons.mp (List.nodup_append.mp denotes.nodup).2.1).1
  refine ⟨?_, ?_, denotes.chained.unlink denotes.nodup, ?_, ?_, ?_⟩
  · exact denotes.nodup.sublist (by simp)
  · intro b mem
    rw [Mem.unlink_top]
    refine denotes.below b ?_
    rcases List.mem_append.mp mem with mem | mem <;> simp [mem]
  · simp only [AklList.without]
    cases xs with
    | nil =>
        have headEq : list.liHead = some a := by simpa using denotes.head
        simp [headEq, nextA]
    | cons b xs =>
        have headEq : list.liHead = some b := by simpa using denotes.head
        have ne : b ≠ a := by
          rintro rfl
          simp at notX
        simp [headEq, ne]
  · simp only [AklList.without]
    rcases List.eq_nil_or_concat ys with rfl | ⟨init, lastY, rfl⟩
    · have lastEq : list.liLast = some a := by simpa using denotes.last
      simp [lastEq, prevA]
    · rw [List.concat_eq_append] at *
      have lastEq : list.liLast = some lastY := by
        rw [denotes.last]
        simp [List.getLast?_append, List.getLast?_cons]
      have ne : lastY ≠ a := by
        rintro rfl
        simp at notY
      simp [lastEq, ne, List.getLast?_append]
  · simp only [AklList.without]
    rw [denotes.count]
    simp [← Nat.add_assoc]

end AklList.Denotes

end AkLisp
