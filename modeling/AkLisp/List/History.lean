import AkLisp.List.Basic
import AkLisp.Linked.Walk

/-!
# Everything the list operations can build

`Built m list cells` says that a list was brought from `akl_init_list` into its
present shape by appending, inserting at the head, removing, popping and
shifting, in any order; `cells` is what these operations describe.  Each
operation has one lemma, and the representation of the list follows from them
by induction on the history.
-/

namespace AkLisp

open Linked

universe u

variable {α : Type u}

/-- The sequence of entries, each with its data, that a history of operations
describes, next to the memory and the header the operations leave. -/
inductive Built : Mem α → AklList → List (Addr × Option α) → Prop
  /-- `akl_init_list`. -/
  | init (m : Mem α) : Built m aklInitList []
  /-- `akl_list_append`. -/
  | append {m list cells} (data : Option α) (before : Built m list cells) :
      Built (aklListAppend m list data).2.1 (aklListAppend m list data).2.2
        (cells ++ [((aklListAppend m list data).1, data)])
  /-- `akl_list_insert_head`. -/
  | insertHead {m list cells} (data : Option α) (before : Built m list cells) :
      Built (aklListInsertHead m list data).2.1 (aklListInsertHead m list data).2.2
        (((aklListInsertHead m list data).1, data) :: cells)
  /-- `akl_list_remove_entry` of an entry of the list. -/
  | removeEntry {m list front cell behind} (before : Built m list (front ++ cell :: behind)) :
      Built (aklListRemoveEntry m list (some cell.1)).2.1
        (aklListRemoveEntry m list (some cell.1)).2.2 (front ++ behind)
  /-- `akl_list_pop_entry`, on an empty list too. -/
  | popEntry {m list cells} (before : Built m list cells) :
      Built (aklListPopEntry m list).2.1 (aklListPopEntry m list).2.2 cells.dropLast
  /-- `akl_list_shift_entry` of a list that is not empty. -/
  | shiftEntry {m list cell cells} (before : Built m list (cell :: cells)) :
      Built (aklListShiftEntry m list).2.1 (aklListShiftEntry m list).2.2 cells

/-- The list holds exactly these entries with these data. -/
structure AklList.Stores (m : Mem α) (list : AklList) (cells : List (Addr × Option α)) :
    Prop where
  denotes : list.Denotes m (cells.map Prod.fst)
  data : ∀ cell ∈ cells, m.data cell.1 = cell.2

namespace AklList.Stores

variable {m : Mem α} {list : AklList} {cells : List (Addr × Option α)}

/-- The entries of a list are older than the next allocation. -/
theorem ne_top (stores : list.Stores m cells) {cell : Addr × Option α} (mem : cell ∈ cells) :
    cell.1 ≠ m.top := by
  intro equal
  exact stores.denotes.top_notMem (equal ▸ List.mem_map_of_mem mem)

/-- What a list stores is determined. -/
theorem unique {cells' : List (Addr × Option α)} (stores : list.Stores m cells)
    (stores' : list.Stores m cells') : cells = cells' := by
  have addrs : cells.map Prod.fst = cells'.map Prod.fst :=
    stores.denotes.unique stores'.denotes
  have contents {cells : List (Addr × Option α)} (stores : list.Stores m cells) :
      cells = (cells.map Prod.fst).map fun a => (a, m.data a) := by
    have same : ∀ cell ∈ cells, (cell.1, m.data cell.1) = id cell :=
      fun cell mem => Prod.ext rfl (stores.data cell mem)
    rw [List.map_map]
    exact ((List.map_congr_left same).trans (List.map_id cells)).symm
  rw [contents stores, contents stores', addrs]

theorem append (stores : list.Stores m cells) (data : Option α) :
    (aklListAppend m list data).2.2.Stores (aklListAppend m list data).2.1
      (cells ++ [(m.top, data)]) := by
  constructor
  · rw [List.map_append]
    exact stores.denotes.append data
  · intro cell mem
    rw [aklListAppend_data]
    rcases List.mem_append.mp mem with old | new
    · rw [if_neg (stores.ne_top old), stores.data cell old]
    · rw [List.mem_singleton.mp new, if_pos rfl]

theorem insertHead (stores : list.Stores m cells) (data : Option α) :
    (aklListInsertHead m list data).2.2.Stores (aklListInsertHead m list data).2.1
      ((m.top, data) :: cells) := by
  constructor
  · rw [List.map_cons]
    exact stores.denotes.insertHead data
  · intro cell mem
    rw [aklListInsertHead_data]
    rcases List.mem_cons.mp mem with rfl | old
    · rw [if_pos rfl]
    · rw [if_neg (stores.ne_top old), stores.data cell old]

theorem remove {front behind : List (Addr × Option α)} {cell : Addr × Option α}
    (stores : list.Stores m (front ++ cell :: behind)) :
    (aklListRemoveEntry m list (some cell.1)).2.2.Stores
      (aklListRemoveEntry m list (some cell.1)).2.1 (front ++ behind) := by
  rw [aklListRemoveEntry_some]
  constructor
  · have inner := stores.denotes
    rw [List.map_append, List.map_cons] at inner
    rw [List.map_append]
    exact inner.without
  · intro other mem
    rw [Mem.unlink_data]
    apply stores.data other
    rcases List.mem_append.mp mem with inFront | inBehind
    · exact List.mem_append_left _ inFront
    · exact List.mem_append_right _ (List.mem_cons_of_mem _ inBehind)

theorem pop (stores : list.Stores m cells) :
    (aklListPopEntry m list).2.2.Stores (aklListPopEntry m list).2.1 cells.dropLast := by
  have lastEq := stores.denotes.last
  cases cells using List.reverseRecOn with
  | nil =>
      have empty : list.liLast = none := lastEq
      simp only [aklListPopEntry, empty]
      exact stores
  | append_singleton cells cell =>
      rw [List.map_append, List.map_singleton, List.getLast?_concat] at lastEq
      simp only [aklListPopEntry, lastEq]
      rw [List.dropLast_concat, ← List.append_nil cells]
      exact stores.remove

theorem shift {cell : Addr × Option α} (stores : list.Stores m (cell :: cells)) :
    (aklListShiftEntry m list).2.2.Stores (aklListShiftEntry m list).2.1 cells := by
  constructor
  · exact stores.denotes.shift
  · intro other mem
    rw [aklListShiftEntry_data]
    exact stores.data other (List.mem_cons_of_mem _ mem)

end AklList.Stores

/-- The history invariant. -/
theorem Built.stores {m : Mem α} {list : AklList} {cells : List (Addr × Option α)}
    (built : Built m list cells) : list.Stores m cells := by
  induction built with
  | init m => exact ⟨AklList.Denotes.aklInitList m, by simp⟩
  | append data before ih => exact ih.append data
  | insertHead data before ih => exact ih.insertHead data
  | removeEntry before ih => exact ih.remove
  | popEntry before ih => exact ih.pop
  | shiftEntry before ih => exact ih.shift

/-- A list denotes exactly the sequence its operations describe: the two walks,
the count and the two ends all agree with it. -/
theorem built_represents {m : Mem α} {list : AklList} {cells : List (Addr × Option α)}
    (built : Built m list cells) :
    Walk m.next list.liHead (cells.map Prod.fst) ∧
      Walk m.prev list.liLast (cells.map Prod.fst).reverse ∧
      (∀ cell ∈ cells, m.data cell.1 = cell.2) ∧
      list.liCount = UInt32.ofNat cells.length ∧
      list.liHead = cells.head?.map Prod.fst ∧
      list.liLast = cells.getLast?.map Prod.fst := by
  have stores := built.stores
  have denotes := stores.denotes
  refine ⟨denotes.walkForward, denotes.walkBackward, stores.data, ?_, ?_, ?_⟩
  · rw [denotes.count, List.length_map]
  · rw [denotes.head, List.head?_map]
  · rw [denotes.last, List.getLast?_map]

/-- Two entries are appended and the first of them is removed again. -/
theorem built_represents_removed :
    let m := (aklListAppend (Mem.empty : Mem Nat) aklInitList (some 7)).2.1
    let list := (aklListAppend (Mem.empty : Mem Nat) aklInitList (some 7)).2.2
    let m' := (aklListAppend m list (some 8)).2.1
    let list' := (aklListAppend m list (some 8)).2.2
    let (_, m'', list'') := aklListRemoveEntry m' list' (some 0)
    Walk m''.next list''.liHead [1] ∧ Walk m''.prev list''.liLast [1] ∧ list''.liCount = 1 := by
  intro m list m' list'
  have two : Built m' list' ([] ++ (0, some 7) :: [(1, some 8)]) :=
    .append (some 8) (.append (some 7) (.init Mem.empty))
  have represents := built_represents two.removeEntry
  exact ⟨represents.1, represents.2.1, represents.2.2.2.1⟩

end AkLisp
