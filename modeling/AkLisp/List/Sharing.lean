import AkLisp.List.Basic
import AkLisp.Linked.Walk
import Mathlib.Data.List.Infix

/-!
# Lists that share their entries

`akl_cdr` gives the tail of a list a header of its own over the entries of the
list it is taken from, and `append!` and `insert!` change a list in place.  A
header is coherent when it counts the entries reached from its head and names
the last of them.  An operation on one list changes another one only when it
appends behind an entry that ends the other list too.
-/

namespace AkLisp

open Linked

universe u

variable {α : Type u}

/-- `akl_cdr`, `akl_list_tail`: a new header over the entries behind the first. -/
def aklCdr (m : Mem α) (l : AklList) : Option AklList :=
  if l.isNil ∨ l.liCount = 0 then none
  else
    let nhead := { aklInitList with liCount := l.liCount - 1 }
    if nhead.liCount ≤ 0 then some { nhead with isNil := true }
    else some { nhead with liHead := l.liHead.bind m.next, liLast := l.liLast }

/-- The loop of `list` over its arguments. -/
def appendValues (m : Mem α) (list : AklList) : List α → Mem α × AklList
  | [] => (m, list)
  | v :: vs =>
      let (_, m, list) := aklListAppend m list (some v)
      appendValues m list vs

/-- The lists obtained so far, with the memory of their entries. -/
structure ListHeap (α : Type u) where
  mem : Mem α
  lists : List AklList

/-- No list has been made yet. -/
def ListHeap.empty : ListHeap α := ⟨Mem.empty, []⟩

/-- What a program does with lists; `i` is the list it is done to.  `create`
stands for `list`, a quoted list, and `append!` or `insert!` to `NIL`. -/
inductive ListOp (α : Type u) where
  | create (vs : List α) (isQuoted : Bool)
  | tail (i : Nat)
  | append (i : Nat) (v : α)
  | insert (i : Nat) (v : α)

/-- One operation, in the words of `akl_fn_list`, `akl_fn_ls_tail`,
`akl_fn_ls_append` and `akl_fn_ls_insert`. -/
def ListHeap.apply (h : ListHeap α) : ListOp α → ListHeap α
  | .create vs isQuoted =>
      let (mem, list) := appendValues h.mem aklInitList vs
      ⟨mem, h.lists ++ [{ list with isQuoted := isQuoted }]⟩
  | .tail i =>
      match h.lists[i]?.bind (aklCdr h.mem) with
      | none => h
      | some l => ⟨h.mem, h.lists ++ [{ l with isQuoted := true }]⟩
  | .append i v =>
      match h.lists[i]? with
      | none => h
      | some list =>
          let (_, mem, list) := aklListAppend h.mem list (some v)
          ⟨mem, h.lists.set i list⟩
  | .insert i v =>
      match h.lists[i]? with
      | none => h
      | some list =>
          let (_, mem, list) := aklListInsertHead h.mem list (some v)
          ⟨mem, h.lists.set i list⟩

/-- A run of operations. -/
def ListHeap.run (h : ListHeap α) (ops : List (ListOp α)) : ListHeap α :=
  ops.foldl ListHeap.apply h

/-- The header counts the entries reached from its head and names the last. -/
structure AklList.Reaches (m : Mem α) (list : AklList) (as : List Addr) : Prop where
  walk : Walk m.next list.liHead as
  last : list.liLast = as.getLast?
  count : list.liCount = UInt32.ofNat as.length
  below : ∀ a ∈ as, a < m.top

namespace AklList.Reaches

variable {m : Mem α} {list other : AklList} {as bs : List Addr}

theorem aklInitList (m : Mem α) : AklList.Reaches m AkLisp.aklInitList [] :=
  ⟨rfl, rfl, rfl, by simp⟩

/-- Neither the quoting nor the nil flag matters. -/
theorem flags (reaches : list.Reaches m as) (parent : Option Nat) (isQuoted isNil : Bool) :
    AklList.Reaches m ⟨list.liHead, list.liLast, parent, list.liCount, isQuoted, isNil⟩ as :=
  ⟨reaches.walk, reaches.last, reaches.count, reaches.below⟩

/-- The memory may change wherever the list has no entry. -/
theorem congr {m' : Mem α} (reaches : list.Reaches m as)
    (same : ∀ a ∈ as, m'.next a = m.next a) (grows : m.top ≤ m'.top) : list.Reaches m' as :=
  ⟨reaches.walk.congr same, reaches.last, reaches.count,
    fun a mem => Nat.lt_of_lt_of_le (reaches.below a mem) grows⟩

theorem append (reaches : list.Reaches m as) (data : Option α) :
    (aklListAppend m list data).2.2.Reaches (aklListAppend m list data).2.1 (as ++ [m.top]) := by
  have old : ∀ a ∈ as, a ≠ m.top := fun a mem => Nat.ne_of_lt (reaches.below a mem)
  have headEq := reaches.walk.head
  have grown : ∀ a ∈ as ++ [m.top], a < m.top + 1 := by
    intro a mem
    rcases List.mem_append.mp mem with inside | new
    · exact Nat.lt_succ_of_lt (reaches.below a inside)
    · rw [List.mem_singleton.mp new]
      exact Nat.lt_succ_self _
  have countEq : (aklListAppend m list data).2.2.liCount =
      UInt32.ofNat (as ++ [m.top]).length := by
    rw [aklListAppend_count, reaches.count, List.length_append, UInt32.ofNat_add]
    rfl
  cases as using List.reverseRecOn with
  | nil =>
      have headNone : list.liHead = none := headEq
      constructor
      · simp [aklListAppend, headNone]
      · rfl
      · exact countEq
      · rw [aklListAppend_top]
        exact grown
  | append_singleton init lastA =>
      have lastEq : list.liLast = some lastA := by
        rw [reaches.last, List.getLast?_concat]
      obtain ⟨headA, headSome⟩ : ∃ a, list.liHead = some a := by
        rw [headEq]
        cases init with
        | nil => exact ⟨lastA, rfl⟩
        | cons a init => exact ⟨a, rfl⟩
      have lastNe : lastA ≠ m.top := old lastA (by simp)
      have lastNotMem : lastA ∉ init := by
        intro mem
        exact (List.nodup_append.mp reaches.walk.nodup).2.2 lastA mem lastA (by simp) rfl
      constructor
      · simp only [aklListAppend, headSome, lastEq, Mem.setNext?]
        rw [← headSome]
        apply reaches.walk.concat
        · intro b mem
          have ne : b ≠ lastA := fun equal => lastNotMem (equal ▸ mem)
          have older : b ≠ m.top := old b (List.mem_append_left _ mem)
          simp [ne, older]
        · simp
        · simp [Ne.symm lastNe]
      · rw [List.getLast?_concat]
        rfl
      · exact countEq
      · rw [aklListAppend_top]
        exact grown

/-- Appending to a list leaves a list with another last entry alone. -/
theorem append_other (reaches : list.Reaches m as) (reaches' : other.Reaches m bs)
    (apart : list.liLast = none ∨ other.liLast ≠ list.liLast) (data : Option α) :
    other.Reaches (aklListAppend m list data).2.1 bs := by
  apply reaches'.congr
  · intro b mem
    apply aklListAppend_next m list data
    · exact Nat.ne_of_lt (reaches'.below b mem)
    · intro lastEq
      rcases apart with none | ne
      · rw [lastEq] at none
        cases none
      · -- a common entry would make the ends agree
        apply ne
        have inside : b ∈ as := List.mem_of_getLast? (reaches.last ▸ lastEq)
        rw [reaches'.last, reaches.last]
        exact reaches'.walk.getLast?_eq reaches.walk mem inside
  · rw [aklListAppend_top]
    exact Nat.le_succ _

theorem insertHead (reaches : list.Reaches m as) (data : Option α) :
    (aklListInsertHead m list data).2.2.Reaches (aklListInsertHead m list data).2.1
      (m.top :: as) := by
  have headEq := reaches.walk.head
  have old : ∀ a ∈ as, a ≠ m.top := fun a mem => Nat.ne_of_lt (reaches.below a mem)
  constructor
  · constructor
    · rfl
    · rw [aklListInsertHead_next, if_pos rfl]
      apply reaches.walk.congr
      intro a mem
      rw [aklListInsertHead_next, if_neg (old a mem)]
  · cases as with
    | nil =>
        have headNone : list.liHead = none := headEq
        simp only [aklListInsertHead, headNone]
        rfl
    | cons a as =>
        have headSome : list.liHead = some a := headEq
        simp only [aklListInsertHead, headSome]
        exact reaches.last
  · rw [aklListInsertHead_count, reaches.count, List.length_cons, UInt32.ofNat_add]
    rfl
  · intro a mem
    rw [aklListInsertHead_top]
    rcases List.mem_cons.mp mem with rfl | inside
    · exact Nat.lt_succ_self _
    · exact Nat.lt_succ_of_lt (reaches.below a inside)

/-- Inserting at the head of a list leaves every other list alone. -/
theorem insertHead_other (reaches' : other.Reaches m bs) (list : AklList) (data : Option α) :
    other.Reaches (aklListInsertHead m list data).2.1 bs := by
  apply reaches'.congr
  · intro b mem
    rw [aklListInsertHead_next, if_neg (Nat.ne_of_lt (reaches'.below b mem))]
  · rw [aklListInsertHead_top]
    exact Nat.le_succ _

/-- The new header reaches entries of the list it was taken from. -/
theorem cdr (reaches : list.Reaches m as) {l : AklList} (tail : aklCdr m list = some l) :
    ∃ bs, l.Reaches m bs := by
  unfold aklCdr at tail
  split at tail
  · cases tail
  · next notEmpty =>
      simp only at tail
      split at tail
      · next small =>
          cases tail
          have zero : list.liCount - 1 = 0 := by simpa using small
          exact ⟨[], rfl, rfl, zero, by simp⟩
      · next large =>
          cases tail
          cases as with
          | nil =>
              have zero : list.liCount = 0 := reaches.count
              exact absurd (Or.inr zero) notEmpty
          | cons a as =>
              have headEq : list.liHead = some a := reaches.walk.1
              have countEq : list.liCount - 1 = UInt32.ofNat as.length := by
                rw [reaches.count, List.length_cons, UInt32.ofNat_add]
                simp
              refine ⟨as, ?_, ?_, countEq, ?_⟩
              · simp only [headEq, Option.bind_some]
                exact reaches.walk.2
              · have nonempty : as ≠ [] := by
                  rintro rfl
                  apply large
                  simp only [countEq]
                  exact UInt32.le_refl _
                simp only [reaches.last]
                rw [List.getLast?_cons, List.getLast?_eq_some_getLast nonempty]
                rfl
              · exact fun b mem => reaches.below b (List.mem_cons_of_mem a mem)

end AklList.Reaches

/-- The arguments of `list` go behind what the list already has, and no other
list notices. -/
theorem appendValues_reaches {m : Mem α} {list : AklList} {as : List Addr}
    (reaches : list.Reaches m as) (vs : List α) :
    (∃ as', (appendValues m list vs).2.Reaches (appendValues m list vs).1 as') ∧
      ∀ other bs, AklList.Reaches m other bs →
        (list.liLast = none ∨ other.liLast ≠ list.liLast) →
        AklList.Reaches (appendValues m list vs).1 other bs ∧
          ∀ b ∈ bs, (appendValues m list vs).1.data b = m.data b := by
  induction vs generalizing m list as with
  | nil => exact ⟨⟨as, reaches⟩, fun _ _ reaches' _ => ⟨reaches', fun _ _ => rfl⟩⟩
  | cons v vs ih =>
      obtain ⟨grown, others⟩ := ih (reaches.append (some v))
      constructor
      · exact grown
      · intro other bs reaches' apart
        have lastNe : other.liLast ≠ some m.top := by
          rw [reaches'.last]
          intro equal
          exact Nat.lt_irrefl _ (reaches'.below m.top (List.mem_of_getLast? equal))
        obtain ⟨kept, dataKept⟩ :=
          others other bs (reaches.append_other reaches' apart (some v)) (Or.inr lastNe)
        constructor
        · exact kept
        · intro b mem
          rw [appendValues, dataKept b mem, aklListAppend_data,
            if_neg (Nat.ne_of_lt (reaches'.below b mem))]

namespace ListHeap

/-- Every list obtained so far is coherent. -/
def Coherent (h : ListHeap α) : Prop :=
  ∀ (i : Nat) (list : AklList), h.lists[i]? = some list → ∃ as, list.Reaches h.mem as

/-- Every list still has the entries it had, in the same order and with the
same data. -/
def Keeps (h h' : ListHeap α) : Prop :=
  ∀ (i : Nat) (list : AklList) (as : List Addr), h.lists[i]? = some list →
    list.Reaches h.mem as →
    ∃ list' as', h'.lists[i]? = some list' ∧ list'.Reaches h'.mem as' ∧ as.Sublist as' ∧
      ∀ a ∈ as, h'.mem.data a = h.mem.data a

/-- No other list ends in the last entry of a list something is appended to. -/
def OwnsEnd (h : ListHeap α) : ListOp α → Prop
  | .append i _ => ∀ (list : AklList) (j : Nat) (other : AklList), h.lists[i]? = some list →
      j ≠ i → h.lists[j]? = some other → list.liLast = none ∨ other.liLast ≠ list.liLast
  | _ => True

/-- Every `append!` of the run goes to a list that owns its end. -/
def Apart (h : ListHeap α) : List (ListOp α) → Prop
  | [] => True
  | op :: ops => h.OwnsEnd op ∧ (h.apply op).Apart ops

variable {h h' h'' : ListHeap α}

theorem Keeps.refl (h : ListHeap α) : h.Keeps h := fun _ list as found reaches =>
  ⟨list, as, found, reaches, List.Sublist.refl as, fun _ _ => rfl⟩

theorem Keeps.trans (first : h.Keeps h') (second : h'.Keeps h'') : h.Keeps h'' := by
  intro i list as found reaches
  obtain ⟨list', as', found', reaches', sublist, same⟩ := first i list as found reaches
  obtain ⟨list'', as'', found'', reaches'', sublist', same'⟩ :=
    second i list' as' found' reaches'
  refine ⟨list'', as'', found'', reaches'', sublist.trans sublist', ?_⟩
  intro a mem
  rw [same' a (sublist.subset mem), same a mem]

/-- A further list over unchanged ones. -/
theorem Keeps.extend {mem : Mem α} (new : AklList)
    (kept : ∀ list as, AklList.Reaches h.mem list as →
      AklList.Reaches mem list as ∧ ∀ a ∈ as, mem.data a = h.mem.data a) :
    h.Keeps ⟨mem, h.lists ++ [new]⟩ := by
  intro i list as found reaches
  obtain ⟨reaches', same⟩ := kept list as reaches
  refine ⟨list, as, ?_, reaches', List.Sublist.refl as, same⟩
  rw [List.getElem?_append_left (List.getElem?_eq_some_iff.mp found).1]
  exact found

/-- One list changed in place over unchanged ones. -/
theorem Keeps.set {mem : Mem α} {i : Nat} {old new : AklList} {as as' : List Addr}
    (present : h.lists[i]? = some old) (reaches : old.Reaches h.mem as)
    (reaches' : new.Reaches mem as') (sublist : as.Sublist as')
    (same : ∀ a ∈ as, mem.data a = h.mem.data a)
    (kept : ∀ j list bs, j ≠ i → h.lists[j]? = some list → AklList.Reaches h.mem list bs →
      AklList.Reaches mem list bs ∧ ∀ b ∈ bs, mem.data b = h.mem.data b) :
    h.Keeps ⟨mem, h.lists.set i new⟩ := by
  intro j list bs found reachesList
  have bound := (List.getElem?_eq_some_iff.mp present).1
  by_cases equal : j = i
  · subst equal
    rw [present] at found
    cases found
    rw [reachesList.walk.unique reaches.walk]
    refine ⟨new, as', ?_, reaches', sublist, same⟩
    exact List.getElem?_set_self bound
  · obtain ⟨reachesKept, sameKept⟩ := kept j list bs equal found reachesList
    refine ⟨list, bs, ?_, reachesKept, List.Sublist.refl bs, sameKept⟩
    rw [← found]
    exact List.getElem?_set_ne (Ne.symm equal)

/-- Keeping what there is, an extension is coherent when the new list is. -/
theorem Coherent.extend {mem : Mem α} {new : AklList} {as : List Addr} (coherent : h.Coherent)
    (keeps : h.Keeps ⟨mem, h.lists ++ [new]⟩) (reaches : new.Reaches mem as) :
    Coherent ⟨mem, h.lists ++ [new]⟩ := by
  intro i list found
  by_cases bound : i < h.lists.length
  · obtain ⟨bs, reaches'⟩ := coherent i h.lists[i] (List.getElem?_eq_getElem bound)
    obtain ⟨list', bs', found', reachesNow, -, -⟩ :=
      keeps i _ bs (List.getElem?_eq_getElem bound) reaches'
    rw [found] at found'
    cases found'
    exact ⟨bs', reachesNow⟩
  · rw [List.getElem?_append_right (Nat.le_of_not_lt bound), List.getElem?_singleton] at found
    split at found
    · cases found
      exact ⟨as, reaches⟩
    · cases found

/-- A heap that keeps its lists and has no others is coherent. -/
theorem Coherent.set {mem : Mem α} {i : Nat} {new : AklList} (coherent : h.Coherent)
    (keeps : h.Keeps ⟨mem, h.lists.set i new⟩) : Coherent ⟨mem, h.lists.set i new⟩ := by
  intro j list found
  have bound : j < h.lists.length := by
    have := (List.getElem?_eq_some_iff.mp found).1
    rwa [List.length_set] at this
  obtain ⟨bs, reaches⟩ := coherent j h.lists[j] (List.getElem?_eq_getElem bound)
  obtain ⟨list', bs', found', reachesNow, -, -⟩ :=
    keeps j _ bs (List.getElem?_eq_getElem bound) reaches
  rw [found] at found'
  cases found'
  exact ⟨bs', reachesNow⟩

/-- What one operation does to the lists there are. -/
theorem Coherent.keeps_apply (coherent : h.Coherent) (op : ListOp α) (owns : h.OwnsEnd op) :
    h.Keeps (h.apply op) := by
  cases op with
  | create vs isQuoted =>
      apply Keeps.extend
      intro list as reaches
      exact (appendValues_reaches (AklList.Reaches.aklInitList h.mem) vs).2 list as reaches
        (Or.inl rfl)
  | tail i =>
      simp only [apply]
      cases h.lists[i]?.bind (aklCdr h.mem) with
      | none => exact Keeps.refl h
      | some l => exact Keeps.extend _ fun list as reaches => ⟨reaches, fun _ _ => rfl⟩
  | append i v =>
      simp only [apply]
      cases present : h.lists[i]? with
      | none => exact Keeps.refl h
      | some list =>
          obtain ⟨as, reaches⟩ := coherent i list present
          apply Keeps.set present reaches (reaches.append (some v)) (List.sublist_append_left as _)
          · intro a mem
            rw [aklListAppend_data, if_neg (Nat.ne_of_lt (reaches.below a mem))]
          · intro j other bs ne found reaches'
            constructor
            · exact reaches.append_other reaches' (owns list j other present ne found) (some v)
            · intro b mem
              rw [aklListAppend_data, if_neg (Nat.ne_of_lt (reaches'.below b mem))]
  | insert i v =>
      simp only [apply]
      cases present : h.lists[i]? with
      | none => exact Keeps.refl h
      | some list =>
          obtain ⟨as, reaches⟩ := coherent i list present
          apply Keeps.set present reaches (reaches.insertHead (some v))
            (List.sublist_cons_self _ as)
          · intro a mem
            rw [aklListInsertHead_data, if_neg (Nat.ne_of_lt (reaches.below a mem))]
          · intro j other bs ne found reaches'
            constructor
            · exact reaches'.insertHead_other list (some v)
            · intro b mem
              rw [aklListInsertHead_data, if_neg (Nat.ne_of_lt (reaches'.below b mem))]

/-- One operation preserves coherence when it keeps the lists there are. -/
theorem Coherent.apply (coherent : h.Coherent) (op : ListOp α) (owns : h.OwnsEnd op) :
    (h.apply op).Coherent := by
  have keeps := coherent.keeps_apply op owns
  cases op with
  | create vs isQuoted =>
      obtain ⟨as, reaches⟩ := (appendValues_reaches (AklList.Reaches.aklInitList h.mem) vs).1
      exact coherent.extend keeps (reaches.flags _ _ _)
  | tail i =>
      simp only [ListHeap.apply] at keeps ⊢
      cases tailEq : h.lists[i]?.bind (aklCdr h.mem) with
      | none => exact coherent
      | some l =>
          rw [tailEq] at keeps
          obtain ⟨list, present, cdrEq⟩ := Option.bind_eq_some_iff.mp tailEq
          obtain ⟨as, reaches⟩ := coherent i list present
          obtain ⟨bs, reachesTail⟩ := reaches.cdr cdrEq
          exact coherent.extend keeps (reachesTail.flags _ _ _)
  | append i v =>
      simp only [ListHeap.apply] at keeps ⊢
      cases present : h.lists[i]? with
      | none => exact coherent
      | some list =>
          rw [present] at keeps
          exact coherent.set keeps
  | insert i v =>
      simp only [ListHeap.apply] at keeps ⊢
      cases present : h.lists[i]? with
      | none => exact coherent
      | some list =>
          rw [present] at keeps
          exact coherent.set keeps

/-- What a run does to the lists there are. -/
theorem Coherent.run (coherent : h.Coherent) (ops : List (ListOp α)) (apart : h.Apart ops) :
    (h.run ops).Coherent ∧ h.Keeps (h.run ops) := by
  induction ops generalizing h with
  | nil => exact ⟨coherent, Keeps.refl h⟩
  | cons op ops ih =>
      obtain ⟨owns, others⟩ := apart
      obtain ⟨coherent', keeps⟩ := ih (coherent.apply op owns) others
      exact ⟨coherent', (coherent.keeps_apply op owns).trans keeps⟩

theorem apart_append {ops ops' : List (ListOp α)} :
    h.Apart (ops ++ ops') ↔ h.Apart ops ∧ (h.run ops).Apart ops' := by
  induction ops generalizing h with
  | nil => exact (and_iff_right trivial).symm
  | cons op ops ih =>
      rw [List.cons_append, Apart, Apart, ih, and_assoc]
      rfl

/-- The entries behind the end are the same whichever of the lists ending there
is appended to. -/
theorem aklListAppend_mem_eq (m : Mem α) {list other : AklList} (data : Option α)
    (heads : list.liHead.isSome = other.liHead.isSome) (ends : list.liLast = other.liLast) :
    (aklListAppend m list data).2.1 = (aklListAppend m other data).2.1 := by
  simp only [aklListAppend, ends]
  cases headEq : list.liHead with
  | none =>
      cases headEq' : other.liHead with
      | none => rfl
      | some b => simp [headEq, headEq'] at heads
  | some a =>
      cases headEq' : other.liHead with
      | none => simp [headEq, headEq'] at heads
      | some b => rfl

/-- Appending behind an end that two lists share leaves the other one with too
small a count and an entry behind its last one. -/
theorem Coherent.append_shared (coherent : h.Coherent) (op : ListOp α) (shared : ¬ h.OwnsEnd op) :
    ¬ (h.apply op).Coherent := by
  cases op with
  | create vs isQuoted => exact absurd trivial shared
  | tail i => exact absurd trivial shared
  | insert i v => exact absurd trivial shared
  | append i v =>
      simp only [OwnsEnd, not_forall, not_or, not_not] at shared
      obtain ⟨list, j, other, present, ne, found, nonempty, ends⟩ := shared
      obtain ⟨as, reaches⟩ := coherent i list present
      obtain ⟨bs, reaches'⟩ := coherent j other found
      intro coherent'
      simp only [ListHeap.apply, present] at coherent'
      obtain ⟨cs, now⟩ := coherent' j other (by rw [List.getElem?_set_ne (Ne.symm ne), found])
      have headSome : ∀ {l : AklList} {es : List Addr}, l.Reaches h.mem es → l.liLast ≠ none →
          l.liHead.isSome = true := by
        intro l es reachesL lastNe
        rw [reachesL.walk.head]
        rw [reachesL.last] at lastNe
        cases es with
        | nil => exact absurd rfl lastNe
        | cons e es => rfl
      have otherHead : other.liHead.isSome = true := headSome reaches' (ends ▸ nonempty)
      have memEq := aklListAppend_mem_eq h.mem (some v)
        ((headSome reaches nonempty).trans otherHead.symm) ends.symm
      have grown := (reaches'.append (some v)).walk
      have headEq : (aklListAppend h.mem other (some v)).2.2.liHead = other.liHead := by
        obtain ⟨b, isSome⟩ := Option.isSome_iff_exists.mp otherHead
        simp only [aklListAppend, isSome]
      rw [headEq, ← memEq] at grown
      have longer : cs = bs ++ [h.mem.top] := now.walk.unique grown
      have lastEq := now.last
      rw [longer, List.getLast?_concat, reaches'.last] at lastEq
      exact Nat.lt_irrefl _ (reaches'.below _ (List.mem_of_getLast? lastEq))

end ListHeap

/-- In a run that appends only to lists that own their end every list stays
coherent and keeps its entries; and the next operation preserves this exactly
when it, too, respects the ends. -/
theorem shared_lists_coherent (before after : List (ListOp α))
    (apart : (ListHeap.empty : ListHeap α).Apart (before ++ after)) :
    ((ListHeap.empty.run before).run after).Coherent ∧
      (ListHeap.empty.run before).Keeps ((ListHeap.empty.run before).run after) ∧
      ∀ op, (((ListHeap.empty.run before).run after).apply op).Coherent ↔
        ((ListHeap.empty.run before).run after).OwnsEnd op := by
  obtain ⟨apartBefore, apartAfter⟩ := ListHeap.apart_append.mp apart
  have empty : (ListHeap.empty : ListHeap α).Coherent := by
    intro i list found
    cases found
  obtain ⟨coherent, -⟩ := empty.run before apartBefore
  obtain ⟨coherent', keeps⟩ := coherent.run after apartAfter
  refine ⟨coherent', keeps, ?_⟩
  intro op
  constructor
  · intro coherentNext
    by_contra shared
    exact coherent'.append_shared op shared coherentNext
  · exact coherent'.apply op

/-- A list of two and its tail; the tail is then taken again. -/
theorem shared_lists_coherent_tails :
    ((ListHeap.empty.run [.create [1, 2] true, .tail 0]).run [.tail 1] : ListHeap Nat).Coherent :=
  (shared_lists_coherent [.create [1, 2] true, .tail 0] [.tail 1]
    ⟨trivial, trivial, trivial, trivial⟩).1

/-- After `3` is appended to a list of two, its tail counts one entry and
reaches two; and what was appended to the tail is lost when something is
appended to the list. -/
theorem shared_lists_incoherent :
    ¬ (ListHeap.empty.run [.create [1, 2] true, .tail 0, .append 0 3] : ListHeap Nat).Coherent ∧
      ¬ (ListHeap.empty.run [.create [1, 2] true, .tail 0, .append 1 3] : ListHeap Nat).Keeps
        (ListHeap.empty.run [.create [1, 2] true, .tail 0, .append 1 3, .append 0 4]) := by
  constructor
  · intro coherent
    obtain ⟨as, reaches⟩ := coherent 1 _ rfl
    have longer : as = [1, 2] := by
      apply reaches.walk.unique
      exact ⟨rfl, rfl, rfl⟩
    have counted := reaches.count
    rw [longer] at counted
    cases counted
  · intro keeps
    obtain ⟨list, as, found, reaches, sublist, -⟩ := keeps 1 _ [1, 2] rfl
      ⟨⟨rfl, rfl, rfl⟩, rfl, rfl, by decide⟩
    cases found
    have lost : as = [1, 3] := by
      apply reaches.walk.unique
      exact ⟨rfl, rfl, rfl⟩
    rw [lost] at sublist
    exact absurd sublist (by decide)

end AkLisp
