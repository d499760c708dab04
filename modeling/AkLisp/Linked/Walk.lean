import AkLisp.Linked.Memory
import Mathlib.Data.List.Induction
import Mathlib.Data.List.Perm.Subperm

/-!
# Walks along one link field

`Walk step p as` says that following `step` from the pointer `p` visits exactly
the nodes `as` and then meets a null pointer.  A walk is determined by its
start.  A chain is a walk along `next` from its first node and a walk along
`prev` from its last one.
-/

namespace AkLisp.Linked

universe u

/-- Following `step` from `p` visits the nodes `as` and ends. -/
def Walk (step : Addr → Option Addr) : Option Addr → List Addr → Prop
  | p, [] => p = none
  | p, a :: as => p = some a ∧ Walk step (step a) as

/-- The node `k` steps behind `a`. -/
def follow (step : Addr → Option Addr) (a : Addr) : Nat → Option Addr
  | 0 => some a
  | k + 1 =>
      match step a with
      | none => none
      | some b => follow step b k

/-- The first node that passes a test, within `fuel` steps from `p`. -/
def findAlong (step : Addr → Option Addr) (test : Addr → Bool) : Nat → Option Addr → Option Addr
  | 0, _ => none
  | _ + 1, none => none
  | fuel + 1, some a => if test a then some a else findAlong step test fuel (step a)

namespace Walk

variable {step step' : Addr → Option Addr} {p : Option Addr} {as bs : List Addr}

@[simp]
theorem nil_iff : Walk step p [] ↔ p = none := Iff.rfl

@[simp]
theorem cons_iff {a : Addr} : Walk step p (a :: as) ↔ p = some a ∧ Walk step (step a) as :=
  Iff.rfl

theorem head (walk : Walk step p as) : p = as.head? := by
  cases as with
  | nil => exact walk
  | cons a as => exact walk.1

/-- A walk is determined by its start. -/
theorem unique (walk : Walk step p as) (walk' : Walk step p bs) : as = bs := by
  induction as generalizing p bs with
  | nil =>
      cases bs with
      | nil => rfl
      | cons b bs =>
          have start := walk'.1
          rw [nil_iff.mp walk] at start
          cases start
  | cons a as ih =>
      have start : p = some a := walk.1
      subst start
      cases bs with
      | nil => cases walk'
      | cons b bs =>
          cases walk'.1
          rw [ih walk.2 walk'.2]

/-- A walk reads the field of its own nodes only. -/
theorem congr (walk : Walk step p as) (same : ∀ a ∈ as, step' a = step a) :
    Walk step' p as := by
  induction as generalizing p with
  | nil => exact walk
  | cons a as ih =>
      constructor
      · exact walk.1
      · rw [same a List.mem_cons_self]
        exact ih walk.2 fun b mem => same b (List.mem_cons_of_mem a mem)

/-- Behind an inner node the walk goes on with the nodes behind it. -/
theorem behind {xs ys : List Addr} {a : Addr} (walk : Walk step p (xs ++ a :: ys)) :
    Walk step (step a) ys := by
  induction xs generalizing p with
  | nil => exact walk.2
  | cons x xs ih => exact ih walk.2

/-- Every step from a node of the walk leads to one of its nodes. -/
theorem mem_next {a b : Addr} (walk : Walk step p as) (mem : a ∈ as) (next : step a = some b) :
    b ∈ as := by
  obtain ⟨xs, ys, rfl⟩ := List.append_of_mem mem
  have rest := walk.behind.head
  rw [next] at rest
  exact List.mem_append_right _ (List.mem_cons_of_mem a (List.mem_of_head? rest.symm))

/-- Steps from the start of a walk count its nodes. -/
theorem follow {a : Addr} (walk : Walk step (some a) as) (k : Nat) :
    Linked.follow step a k = as[k]? := by
  induction k generalizing a as with
  | zero =>
      cases as with
      | nil => cases walk
      | cons b as =>
          cases walk.1
          rfl
  | succ k ih =>
      cases as with
      | nil => cases walk
      | cons b as =>
          cases walk.1
          rw [Linked.follow, List.getElem?_cons_succ]
          cases next : step a with
          | none =>
              have start := walk.2.head
              rw [next] at start
              rw [List.head?_eq_none_iff.mp start.symm]
              rfl
          | some b => exact ih (next ▸ walk.2)

/-- Searching along a walk finds the first of its nodes that passes the test. -/
theorem findAlong (walk : Walk step p as) (test : Addr → Bool) {fuel : Nat}
    (enough : as.length ≤ fuel) : Linked.findAlong step test fuel p = as.find? test := by
  induction as generalizing p fuel with
  | nil =>
      rw [nil_iff.mp walk]
      cases fuel <;> rfl
  | cons a as ih =>
      obtain ⟨rfl, others⟩ := walk
      cases fuel with
      | zero => cases enough
      | succ fuel =>
          rw [Linked.findAlong, List.find?_cons, ih others (Nat.le_of_succ_le_succ enough)]
          cases test a <;> rfl

/-- A walk that ends visits no node twice. -/
theorem nodup (walk : Walk step p as) : as.Nodup := by
  induction as generalizing p with
  | nil => exact List.nodup_nil
  | cons a as ih =>
      rw [List.nodup_cons]
      constructor
      · -- otherwise the rest of the walk is a proper part of itself
        intro mem
        obtain ⟨xs, ys, equal⟩ := List.append_of_mem mem
        have again : Walk step (step a) ys := by
          have inner := walk.2
          rw [equal] at inner
          exact inner.behind
        have short := congrArg List.length (walk.2.unique again)
        rw [equal, List.length_append, List.length_cons] at short
        omega
      · exact ih walk.2

/-- A walk below a bound has at most that many nodes. -/
theorem length_le {n : Nat} (walk : Walk step p as) (below : ∀ a ∈ as, a < n) :
    as.length ≤ n := by
  have subset : as ⊆ List.range n := fun a mem => List.mem_range.mpr (below a mem)
  have short := (walk.nodup.subperm subset).length_le
  rwa [List.length_range] at short

/-- Two walks with a common node end in the same node. -/
theorem getLast?_eq {q : Option Addr} {a : Addr} (walk : Walk step p as)
    (walk' : Walk step q bs) (mem : a ∈ as) (mem' : a ∈ bs) : as.getLast? = bs.getLast? := by
  obtain ⟨xs, ys, rfl⟩ := List.append_of_mem mem
  obtain ⟨xs', ys', rfl⟩ := List.append_of_mem mem'
  rw [walk.behind.unique walk'.behind]
  simp [List.getLast?_append, List.getLast?_cons]

/-- A node hung behind the last node is visited at the end. -/
theorem concat {a e : Addr} (walk : Walk step p (as ++ [a])) (same : ∀ b ∈ as, step' b = step b)
    (linked : step' a = some e) (ends : step' e = none) : Walk step' p (as ++ [a] ++ [e]) := by
  induction as generalizing p with
  | nil => exact ⟨walk.1, linked, ends⟩
  | cons b as ih =>
      constructor
      · exact walk.1
      · rw [same b List.mem_cons_self]
        exact ih walk.2 fun c mem => same c (List.mem_cons_of_mem b mem)

end Walk

variable {α : Type u} {m : Mem α} {as : List Addr}

theorem Chained.walk_next {p : Option Addr} (linked : Chained m p as none) :
    Walk m.next as.head? as := by
  induction as generalizing p with
  | nil => rfl
  | cons a as ih =>
      obtain ⟨-, next, others⟩ := linked
      rw [Option.or_none] at next
      constructor
      · rfl
      · rw [next]
        exact ih others

theorem Chained.walk_prev {q : Option Addr} (linked : Chained m none as q) :
    Walk m.prev as.getLast? as.reverse := by
  induction as using List.reverseRecOn generalizing q with
  | nil => rfl
  | append_singleton as a ih =>
      rw [chained_append] at linked
      obtain ⟨others, prev, -, -⟩ := linked
      rw [Option.or_none] at prev
      rw [List.reverse_append, List.getLast?_concat]
      constructor
      · rfl
      · rw [prev]
        exact ih others

end AkLisp.Linked
