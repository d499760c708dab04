import Mathlib.Data.List.Basic
import Mathlib.Order.Basic

/-!
# Ordered sets of nodes

A search tree compares a key with its nodes and goes left, goes right or stops.  What
it finds and where it inserts depends only on where the key falls among the nodes in
order.  An implementation is lawful when it acts there; the rules for finding and
inserting under a three-way comparison follow for every lawful implementation.
-/

namespace AkLisp.Ordered

universe u v

variable {ε : Type u} {κ : Type v}

/-- A three-way comparison that orders its arguments. -/
structure IsOrder (cmp : κ → κ → Int) : Prop where
  swap : ∀ a b, (cmp a b).sign = -(cmp b a).sign
  trans : ∀ {a b c}, cmp a b ≤ 0 → cmp b c ≤ 0 → cmp a c ≤ 0

namespace IsOrder

variable {cmp : κ → κ → Int} {a b c : κ}

theorem neg_iff (order : IsOrder cmp) : cmp a b < 0 ↔ 0 < cmp b a := by
  rw [← Int.sign_eq_neg_one_iff_neg, ← Int.sign_eq_one_iff_pos, order.swap a b]
  omega

theorem lt_of_lt_of_le (order : IsOrder cmp) (first : cmp a b < 0) (second : cmp b c ≤ 0) :
    cmp a c < 0 := by
  by_contra notLess
  have back : cmp c a ≤ 0 := by
    by_contra greater
    exact notLess (order.neg_iff.mpr (Int.not_le.mp greater))
  have between := order.trans second back
  have greater := order.neg_iff.mp first
  omega

theorem lt_of_le_of_lt (order : IsOrder cmp) (first : cmp a b ≤ 0) (second : cmp b c < 0) :
    cmp a c < 0 := by
  by_contra notLess
  have back : cmp c a ≤ 0 := by
    by_contra greater
    exact notLess (order.neg_iff.mpr (Int.not_le.mp greater))
  have between := order.trans back first
  have greater := order.neg_iff.mp second
  omega

end IsOrder

/-- The keys of the nodes increase. -/
def Sorted (cmp : κ → κ → Int) (key : ε → κ) (xs : List ε) : Prop :=
  xs.Pairwise fun x y => cmp (key x) (key y) < 0

theorem Sorted.congr {cmp : κ → κ → Int} {key key' : ε → κ} {xs : List ε}
    (sorted : Sorted cmp key xs) (same : ∀ x ∈ xs, key' x = key x) : Sorted cmp key' xs := by
  apply List.Pairwise.imp_of_mem _ sorted
  intro x y memX memY less
  rwa [same x memX, same y memY]

/-- Where a key falls among nodes in order: behind `before`, in front of `behind`, and
on the node `here` if there is one.  `at x` is the comparison of the key with `x`. -/
structure SplitsAt (compare : ε → Int) (xs before here behind : List ε) : Prop where
  parts : xs = before ++ here ++ behind
  above : ∀ x ∈ before, 0 < compare x
  equal : ∀ x ∈ here, compare x = 0
  below : ∀ x ∈ behind, compare x < 0
  single : here.length ≤ 1

/-- A key falls somewhere among sorted nodes. -/
theorem Sorted.splits {cmp : κ → κ → Int} (order : IsOrder cmp) {key : ε → κ} {xs : List ε}
    (sorted : Sorted cmp key xs) (k : κ) :
    ∃ before here behind, SplitsAt (fun x => cmp k (key x)) xs before here behind := by
  induction xs with
  | nil => exact ⟨[], [], [], ⟨rfl, by simp, by simp, by simp, by simp⟩⟩
  | cons x xs ih =>
      obtain ⟨least, sorted⟩ := List.pairwise_cons.mp sorted
      rcases Int.lt_trichotomy (cmp k (key x)) 0 with less | equal | greater
      · refine ⟨[], [], x :: xs, ⟨rfl, by simp, by simp, ?_, by simp⟩⟩
        intro y mem
        rcases List.mem_cons.mp mem with rfl | mem
        · exact less
        · exact order.lt_of_lt_of_le less (Int.le_of_lt (least y mem))
      · refine ⟨[], [x], xs, ⟨rfl, by simp, by simpa using equal, ?_, by simp⟩⟩
        exact fun y mem => order.lt_of_le_of_lt (Int.le_of_eq equal) (least y mem)
      · obtain ⟨before, here, behind, splits⟩ := ih sorted
        refine ⟨x :: before, here, behind, ⟨?_, ?_, splits.equal, splits.below, splits.single⟩⟩
        · rw [splits.parts]
          rfl
        · intro y mem
          rcases List.mem_cons.mp mem with rfl | mem
          · exact greater
          · exact splits.above y mem

/-- The operations of a search tree.  `find` and `insert` get the comparison of the key
with a node; `insert` gives the node it has found in place of the new one, if any. -/
structure SetImpl (ε : Type u) where
  Tree : Type u
  empty : Tree
  elems : Tree → List ε
  find : (ε → Int) → Tree → Option ε
  insert : (ε → Int) → ε → Tree → Option ε × Tree

/-- The operations act at the place where the key falls. -/
structure SetImpl.Lawful (impl : SetImpl ε) : Prop where
  elems_empty : impl.elems impl.empty = []
  find_eq : ∀ {compare t before here behind},
    SplitsAt compare (impl.elems t) before here behind → impl.find compare t = here.head?
  insert_new : ∀ {compare t before behind} (x : ε),
    SplitsAt compare (impl.elems t) before [] behind →
      impl.elems (impl.insert compare x t).2 = before ++ x :: behind
  insert_old : ∀ {compare t before y behind} (x : ε),
    SplitsAt compare (impl.elems t) before [y] behind → impl.insert compare x t = (some y, t)

/-- A sorted list as a search tree. -/
def listImpl (ε : Type u) : SetImpl ε where
  Tree := List ε
  empty := []
  elems xs := xs
  find compare xs := (xs.dropWhile fun x => 0 < compare x).head?.filter fun x => compare x = 0
  insert compare x xs :=
    let before := xs.takeWhile fun x => 0 < compare x
    let others := xs.dropWhile fun x => 0 < compare x
    match others.head?.filter fun x => compare x = 0 with
    | some y => (some y, xs)
    | none => (none, before ++ x :: others)

theorem SplitsAt.dropWhile {compare : ε → Int} {xs before here behind : List ε}
    (splits : SplitsAt compare xs before here behind) :
    xs.takeWhile (fun x => 0 < compare x) = before ∧
      xs.dropWhile (fun x => 0 < compare x) = here ++ behind := by
  have rest : ∀ x ∈ (here ++ behind).head?, ¬ 0 < compare x := by
    intro x head
    rcases List.mem_append.mp (List.mem_of_head? head) with mem | mem
    · rw [splits.equal x mem]
      exact Int.lt_irrefl 0
    · exact Int.lt_asymm (splits.below x mem)
  rw [splits.parts, List.append_assoc]
  constructor
  · rw [List.takeWhile_append_of_pos (by simpa using splits.above)]
    cases others : here ++ behind with
    | nil => simp
    | cons x others =>
        rw [others] at rest
        simp [rest x rfl]
  · rw [List.dropWhile_append_of_pos (by simpa using splits.above)]
    cases others : here ++ behind with
    | nil => rfl
    | cons x others =>
        rw [others] at rest
        simp [rest x rfl]

theorem SplitsAt.head {compare : ε → Int} {xs before here behind : List ε}
    (splits : SplitsAt compare xs before here behind) :
    ((here ++ behind).head?.filter fun x => compare x = 0) = here.head? := by
  cases here with
  | nil =>
      cases behind with
      | nil => rfl
      | cons x behind => simp [Int.ne_of_lt (splits.below x List.mem_cons_self)]
  | cons x here => simp [splits.equal x List.mem_cons_self]

theorem listImpl_find {compare : ε → Int} {xs before here behind : List ε}
    (splits : SplitsAt compare xs before here behind) :
    (listImpl ε).find compare xs = here.head? := by
  simp only [listImpl, splits.dropWhile.2, splits.head]

theorem listImpl_insert {compare : ε → Int} {xs before here behind : List ε} (x : ε)
    (splits : SplitsAt compare xs before here behind) :
    (listImpl ε).insert compare x xs =
      match here.head? with
      | some y => (some y, xs)
      | none => (none, before ++ x :: (here ++ behind)) := by
  simp only [listImpl, splits.dropWhile.1, splits.dropWhile.2, splits.head]

theorem listImpl_lawful (ε : Type u) : (listImpl ε).Lawful where
  elems_empty := rfl
  find_eq splits := listImpl_find splits
  insert_new x splits := congrArg Prod.snd (listImpl_insert x splits)
  insert_old x splits := listImpl_insert x splits

namespace SetImpl.Lawful

variable {impl : SetImpl ε} {cmp : κ → κ → Int} {key : ε → κ} {compare : ε → Int} {t : impl.Tree}

theorem splits (order : IsOrder cmp) (sorted : Sorted cmp key (impl.elems t)) {k : κ}
    (agrees : ∀ x ∈ impl.elems t, compare x = cmp k (key x)) :
    ∃ before here behind, SplitsAt compare (impl.elems t) before here behind := by
  obtain ⟨before, here, behind, place⟩ := sorted.splits order k
  refine ⟨before, here, behind, ⟨place.parts, ?_, ?_, ?_, place.single⟩⟩
  · intro x mem
    rw [agrees x (by rw [place.parts]; simp [mem])]
    exact place.above x mem
  · intro x mem
    rw [agrees x (by rw [place.parts]; simp [mem])]
    exact place.equal x mem
  · intro x mem
    rw [agrees x (by rw [place.parts]; simp [mem])]
    exact place.below x mem

/-- What is found is the node with an equal key. -/
theorem find_iff (lawful : impl.Lawful) (order : IsOrder cmp)
    (sorted : Sorted cmp key (impl.elems t)) {k : κ}
    (agrees : ∀ x ∈ impl.elems t, compare x = cmp k (key x)) {x : ε} :
    impl.find compare t = some x ↔ x ∈ impl.elems t ∧ cmp k (key x) = 0 := by
  obtain ⟨before, here, behind, place⟩ := splits order sorted agrees
  rw [lawful.find_eq place]
  constructor
  · intro found
    have mem := List.mem_of_head? found
    have inside : x ∈ impl.elems t := by
      rw [place.parts]
      simp [mem]
    exact ⟨inside, (agrees x inside).symm.trans (place.equal x mem)⟩
  · rintro ⟨inside, zero⟩
    rw [← agrees x inside] at zero
    rw [place.parts, List.mem_append, List.mem_append] at inside
    rcases inside with (mem | mem) | mem
    · have := place.above x mem
      omega
    · have single := place.single
      cases here with
      | nil => cases mem
      | cons y others =>
          have only : others = [] := by
            apply List.length_eq_zero_iff.mp
            simp only [List.length_cons] at single
            omega
          rw [only, List.mem_singleton] at mem
          rw [mem]
          rfl
    · have := place.below x mem
      omega

/-- A node with a key of its own is added in its place. -/
theorem insert_new_sorted (lawful : impl.Lawful) (order : IsOrder cmp)
    (sorted : Sorted cmp key (impl.elems t)) {x : ε}
    (agrees : ∀ y ∈ impl.elems t, compare y = cmp (key x) (key y))
    (different : ∀ y ∈ impl.elems t, cmp (key x) (key y) ≠ 0) :
    Sorted cmp key (impl.elems (impl.insert compare x t).2) ∧
      ∀ y, y ∈ impl.elems (impl.insert compare x t).2 ↔ y = x ∨ y ∈ impl.elems t := by
  obtain ⟨before, here, behind, place⟩ := splits order sorted agrees
  have empty : here = [] := by
    apply List.eq_nil_iff_forall_not_mem.mpr
    intro y mem
    have inside : y ∈ impl.elems t := by
      rw [place.parts]
      simp [mem]
    exact different y inside ((agrees y inside).symm.trans (place.equal y mem))
  subst empty
  have parts : impl.elems t = before ++ behind := by simpa using place.parts
  rw [lawful.insert_new x place]
  constructor
  · rw [Sorted, parts, List.pairwise_append] at sorted
    obtain ⟨sortedBefore, sortedBehind, apart⟩ := sorted
    rw [Sorted, List.pairwise_append]
    refine ⟨sortedBefore, List.pairwise_cons.mpr ⟨?_, sortedBehind⟩, ?_⟩
    · intro y mem
      have less := place.below y mem
      rwa [agrees y (by rw [parts]; simp [mem])] at less
    · intro y mem z memZ
      have greater := place.above y mem
      rw [agrees y (by rw [parts]; simp [mem])] at greater
      have less := order.neg_iff.mpr greater
      rcases List.mem_cons.mp memZ with rfl | memZ
      · exact less
      · exact apart y mem z memZ
  · intro y
    rw [parts, List.mem_append, List.mem_cons, List.mem_append]
    tauto

end SetImpl.Lawful

end AkLisp.Ordered
