import AkLisp.Builtins.Compare
import AkLisp.Linked.Walk
import AkLisp.List.Basic

/-!
# Iterators over a list

An iterator points to the entry whose data the next step returns.  The tests
`akl_list_it_has_next` and `akl_list_it_has_prev` look at the entry behind that one, so
that a loop over them stops in front of the last entry.
-/

namespace AkLisp

open Linked

/-- `akl_list_it_begin`, of a list that is not `NULL` -/
def aklListItBegin (l : AklList) : Option Addr := l.liHead

/-- `akl_list_it_end` -/
def aklListItEnd (l : AklList) : Option Addr := l.liLast

/-- `akl_list_it_has_prev` -/
def aklListItHasPrev (m : Mem VRef) (it : Option Addr) : Bool :=
  (it.bind m.prev).isSome

/-- `akl_list_it_prev`: the data at the iterator, and the iterator in front of it. -/
def aklListItPrev (m : Mem VRef) (it : Option Addr) : Option VRef × Option Addr :=
  (it.bind m.data, it.bind m.prev)

/-- What the loop `while (has(it)) step(&it)` returns, one `step` after the other; `none`
when the rounds do not suffice. -/
def whileHas (has : Option Addr → Bool) (step : Option Addr → Option VRef × Option Addr) :
    Nat → Option Addr → Option (List (Option VRef))
  | 0, _ => none
  | rounds + 1, it =>
      if has it then
        let (p, it) := step it
        (whileHas has step rounds it).map fun ps => p :: ps
      else some []

/-- The loop over `akl_list_it_next` -/
def forwardLoop (m : Mem VRef) (rounds : Nat) (list : AklList) : Option (List (Option VRef)) :=
  whileHas (aklListItHasNext m) (aklListItNext m) rounds (aklListItBegin list)

/-- The loop over `akl_list_it_prev` -/
def backwardLoop (m : Mem VRef) (rounds : Nat) (list : AklList) : Option (List (Option VRef)) :=
  whileHas (aklListItHasPrev m) (aklListItPrev m) rounds (aklListItEnd list)

/-- A loop that looks one link ahead returns the data of every entry but the last one. -/
theorem whileHas_walk {link : Addr → Option Addr} {data : Addr → Option VRef} {p : Option Addr}
    {as : List Addr} {rounds : Nat} (walk : Walk link p as) (enough : as.length < rounds) :
    whileHas (fun it => (it.bind link).isSome) (fun it => (it.bind data, it.bind link)) rounds p =
      some (as.dropLast.map data) := by
  induction as generalizing p rounds with
  | nil =>
      cases rounds with
      | zero => cases enough
      | succ rounds =>
          rw [Walk.nil_iff.mp walk]
          rfl
  | cons a as ih =>
      obtain ⟨rfl, others⟩ := walk
      cases rounds with
      | zero => cases enough
      | succ rounds =>
          have rest := ih others (Nat.lt_of_succ_lt_succ enough)
          simp only [whileHas, Option.bind_some, rest]
          cases as with
          | nil =>
              rw [Walk.nil_iff.mp others]
              rfl
          | cons b as =>
              rw [others.head]
              rfl

/-- More rounds do not change what a loop returns. -/
theorem whileHas_mono {rounds : Nat} {has : Option Addr → Bool}
    {step : Option Addr → Option VRef × Option Addr} {it : Option Addr} {ps : List (Option VRef)}
    {more : Nat} (ended : whileHas has step rounds it = some ps) (le : rounds ≤ more) :
    whileHas has step more it = some ps := by
  induction rounds generalizing it ps more with
  | zero => cases ended
  | succ rounds ih =>
      obtain ⟨more, rfl⟩ : ∃ n, more = n + 1 := ⟨more - 1, by omega⟩
      rw [whileHas] at ended ⊢
      split
      · next ahead =>
          rw [if_pos ahead] at ended
          obtain ⟨others, endedRest, rfl⟩ := Option.map_eq_some_iff.mp ended
          simp only [ih endedRest (Nat.le_of_succ_le_succ le), Option.map_some]
      · next done =>
          rwa [if_neg done] at ended

/-- So it returns the data of every entry only where there is none. -/
theorem whileHas_covers_iff {link : Addr → Option Addr} {data : Addr → Option VRef}
    {p : Option Addr} {as : List Addr} (walk : Walk link p as) :
    (∃ rounds, whileHas (fun it => (it.bind link).isSome)
      (fun it => (it.bind data, it.bind link)) rounds p = some (as.map data)) ↔ as = [] := by
  constructor
  · rintro ⟨rounds, ended⟩
    have longer := whileHas_mono ended (Nat.le_max_left rounds (as.length + 1))
    rw [whileHas_walk walk (Nat.le_max_right rounds (as.length + 1))] at longer
    have lengths := congrArg List.length (Option.some.inj longer)
    simp only [List.length_map, List.length_dropLast] at lengths
    exact List.length_eq_zero_iff.mp (by omega)
  · rintro rfl
    exact ⟨1, whileHas_walk walk (Nat.lt_succ_self 0)⟩

variable {m : Mem VRef} {list : AklList} {as : List Addr}

/-- Both loops end and return every element once, in order and in reverse order. -/
structure IteratorsCover (m : Mem VRef) (list : AklList) (as : List Addr) : Prop where
  forward : ∃ rounds, forwardLoop m rounds list = some (as.map m.data)
  backward : ∃ rounds, backwardLoop m rounds list = some (as.reverse.map m.data)

theorem forward_covers_iff (denotes : list.Denotes m as) :
    (∃ rounds, forwardLoop m rounds list = some (as.map m.data)) ↔ as = [] :=
  whileHas_covers_iff denotes.walkForward

theorem backward_covers_iff (denotes : list.Denotes m as) :
    (∃ rounds, backwardLoop m rounds list = some (as.reverse.map m.data)) ↔ as = [] := by
  rw [← List.reverse_eq_nil_iff]
  exact whileHas_covers_iff denotes.walkBackward

/-- The loops over the iterators of a list cover it exactly when it is empty. -/
theorem iterators_cover_iff (denotes : list.Denotes m as) :
    IteratorsCover m list as ↔ as = [] := by
  constructor
  · intro cover
    exact (forward_covers_iff denotes).mp cover.forward
  · intro empty
    exact ⟨(forward_covers_iff denotes).mpr empty, (backward_covers_iff denotes).mpr empty⟩

theorem iterators_cover_empty : IteratorsCover Mem.empty aklInitList [] ↔ ([] : List Addr) = [] :=
  iterators_cover_iff (AklList.Denotes.aklInitList Mem.empty)

/-- Of a list of one element neither loop returns it. -/
theorem iterators_miss_one :
    let (_, m, list) := aklListAppend (Mem.empty : Mem VRef) aklInitList (some 7)
    list.Denotes m [0] ∧ ¬ IteratorsCover m list [0] := by
  have denotes := (AklList.Denotes.aklInitList (Mem.empty : Mem VRef)).append (some 7)
  refine ⟨denotes, fun cover => ?_⟩
  cases (forward_covers_iff denotes).mp cover.forward

end AkLisp
