import Mathlib.Data.List.Basic
import Mathlib.Logic.Function.Basic

/-!
# Doubly linked chains in a node memory

A node memory keeps the `next`, `prev` and `data` fields of its nodes as three
separate maps, so that a write to one field leaves the other two alone by
definition.  `Chained` says that a list of addresses is chained in both
directions between two given outer neighbours; it splits at every `++`, it
reads only the fields of its own nodes, and it survives the unlinking of one
of them.
-/

namespace AkLisp.Linked

universe u

/-- Address of a node.  A null pointer is `none : Option Addr`. -/
abbrev Addr := Nat

/-- Field-wise node memory.  Addresses from `top` on have not been handed out. -/
@[ext]
structure Mem (α : Type u) where
  next : Addr → Option Addr
  prev : Addr → Option Addr
  data : Addr → Option α
  top : Addr

namespace Mem

variable {α : Type u}

/-- The memory in which no node has been allocated. -/
def empty : Mem α :=
  ⟨fun _ => none, fun _ => none, fun _ => none, 0⟩

instance : Inhabited (Mem α) := ⟨empty⟩

def setNext (m : Mem α) (a : Addr) (p : Option Addr) : Mem α :=
  { m with next := Function.update m.next a p }

def setPrev (m : Mem α) (a : Addr) (p : Option Addr) : Mem α :=
  { m with prev := Function.update m.prev a p }

/-- The address the next allocation hands out is `m.top`; its fields start out
null except for the data. -/
def alloc (m : Mem α) (d : Option α) : Mem α where
  next := Function.update m.next m.top none
  prev := Function.update m.prev m.top none
  data := Function.update m.data m.top d
  top := m.top + 1

/-- Write a `next` field through a pointer that may be null. -/
def setNext? (m : Mem α) : Option Addr → Option Addr → Mem α
  | none, _ => m
  | some a, p => m.setNext a p

/-- Write a `prev` field through a pointer that may be null. -/
def setPrev? (m : Mem α) : Option Addr → Option Addr → Mem α
  | none, _ => m
  | some a, p => m.setPrev a p

/-- Connect the neighbours of `a` with each other.  The fields of `a` itself
keep pointing to them. -/
def unlink (m : Mem α) (a : Addr) : Mem α :=
  (m.setNext? (m.prev a) (m.next a)).setPrev? (m.next a) (m.prev a)

@[simp] theorem setNext_prev (m : Mem α) (a : Addr) (p : Option Addr) :
    (m.setNext a p).prev = m.prev := rfl

@[simp] theorem setNext_data (m : Mem α) (a : Addr) (p : Option Addr) :
    (m.setNext a p).data = m.data := rfl

@[simp] theorem setNext_top (m : Mem α) (a : Addr) (p : Option Addr) :
    (m.setNext a p).top = m.top := rfl

@[simp] theorem setPrev_next (m : Mem α) (a : Addr) (p : Option Addr) :
    (m.setPrev a p).next = m.next := rfl

@[simp] theorem setPrev_data (m : Mem α) (a : Addr) (p : Option Addr) :
    (m.setPrev a p).data = m.data := rfl

@[simp] theorem setPrev_top (m : Mem α) (a : Addr) (p : Option Addr) :
    (m.setPrev a p).top = m.top := rfl

@[simp] theorem setNext_next (m : Mem α) (a b : Addr) (p : Option Addr) :
    (m.setNext a p).next b = if b = a then p else m.next b := by
  simp [setNext, Function.update_apply]

@[simp] theorem setPrev_prev (m : Mem α) (a b : Addr) (p : Option Addr) :
    (m.setPrev a p).prev b = if b = a then p else m.prev b := by
  simp [setPrev, Function.update_apply]

@[simp] theorem alloc_next (m : Mem α) (d : Option α) (b : Addr) :
    (m.alloc d).next b = if b = m.top then none else m.next b := by
  simp [alloc, Function.update_apply]

@[simp] theorem alloc_prev (m : Mem α) (d : Option α) (b : Addr) :
    (m.alloc d).prev b = if b = m.top then none else m.prev b := by
  simp [alloc, Function.update_apply]

@[simp] theorem alloc_data (m : Mem α) (d : Option α) (b : Addr) :
    (m.alloc d).data b = if b = m.top then d else m.data b := by
  simp [alloc, Function.update_apply]

@[simp] theorem alloc_top (m : Mem α) (d : Option α) : (m.alloc d).top = m.top + 1 := rfl

@[simp] theorem unlink_data (m : Mem α) (a : Addr) : (m.unlink a).data = m.data := by
  unfold unlink
  cases m.prev a <;> cases m.next a <;> rfl

@[simp] theorem unlink_top (m : Mem α) (a : Addr) : (m.unlink a).top = m.top := by
  unfold unlink
  cases m.prev a <;> cases m.next a <;> rfl

theorem unlink_next (m : Mem α) (a b : Addr) :
    (m.unlink a).next b = if m.prev a = some b then m.next a else m.next b := by
  unfold unlink
  cases m.prev a <;> cases m.next a <;> simp [setNext?, setPrev?, eq_comm]

theorem unlink_prev (m : Mem α) (a b : Addr) :
    (m.unlink a).prev b = if m.next a = some b then m.prev a else m.prev b := by
  unfold unlink
  cases m.prev a <;> cases m.next a <;> simp [setNext?, setPrev?, eq_comm]

end Mem

variable {α : Type u}

/-- The nodes `as` are chained in this order: `prev` of the first is `p`,
`next` of the last is `q`, and in between both fields name the neighbours. -/
def Chained (m : Mem α) : Option Addr → List Addr → Option Addr → Prop
  | _, [], _ => True
  | p, a :: as, q => m.prev a = p ∧ m.next a = as.head?.or q ∧ Chained m (some a) as q

@[simp] theorem chained_nil (m : Mem α) (p q : Option Addr) : Chained m p [] q := trivial

@[simp] theorem chained_cons (m : Mem α) (p q : Option Addr) (a : Addr) (as : List Addr) :
    Chained m p (a :: as) q ↔
      m.prev a = p ∧ m.next a = as.head?.or q ∧ Chained m (some a) as q :=
  Iff.rfl

/-- A chain splits at every inner boundary. -/
theorem chained_append (m : Mem α) (p q : Option Addr) (as bs : List Addr) :
    Chained m p (as ++ bs) q ↔
      Chained m p as (bs.head?.or q) ∧ Chained m (as.getLast?.or p) bs q := by
  induction as generalizing p with
  | nil => simp
  | cons a as ih =>
      have last_eq : (a :: as).getLast?.or p = as.getLast?.or (some a) := by
        cases as with
        | nil => rfl
        | cons b bs => simp [List.getLast?_cons]
      rw [List.cons_append, chained_cons, chained_cons, ih, last_eq]
      cases as with
      | nil => simp [and_assoc]
      | cons b bs => simp [and_assoc]

/-- A chain depends on the fields of its own nodes only. -/
theorem Chained.congr {m m' : Mem α} {p q : Option Addr} {as : List Addr}
    (linked : Chained m p as q)
    (next_eq : ∀ a ∈ as, m'.next a = m.next a)
    (prev_eq : ∀ a ∈ as, m'.prev a = m.prev a) : Chained m' p as q := by
  induction as generalizing p with
  | nil => trivial
  | cons a as ih =>
      obtain ⟨headPrev, headNext, rest⟩ := linked
      refine ⟨?_, ?_, ih rest ?_ ?_⟩
      · rw [prev_eq a List.mem_cons_self, headPrev]
      · rw [next_eq a List.mem_cons_self, headNext]
      · exact fun b mem => next_eq b (List.mem_cons_of_mem a mem)
      · exact fun b mem => prev_eq b (List.mem_cons_of_mem a mem)

/-- Allocation does not touch chains of nodes allocated before. -/
theorem Chained.alloc {m : Mem α} {p q : Option Addr} {as : List Addr}
    (linked : Chained m p as q) (below : ∀ a ∈ as, a < m.top) (d : Option α) :
    Chained (m.alloc d) p as q := by
  refine linked.congr ?_ ?_ <;> intro a mem <;> simp [Nat.ne_of_lt (below a mem)]

/-- Redirecting the `next` field of the last node changes the right end. -/
theorem Chained.setNext_last {m : Mem α} {p q : Option Addr} {as : List Addr} {a : Addr}
    (linked : Chained m p (as ++ [a]) q) (notMem : a ∉ as) (q' : Option Addr) :
    Chained (m.setNext a q') p (as ++ [a]) q' := by
  rw [chained_append] at linked ⊢
  obtain ⟨init, headPrev, _, _⟩ := linked
  refine ⟨init.congr ?_ (fun _ _ => rfl), headPrev, by simp, trivial⟩
  intro b mem
  have ne : b ≠ a := fun equal => notMem (equal ▸ mem)
  simp [ne]

/-- Redirecting the `prev` field of the first node changes the left end. -/
theorem Chained.setPrev_head {m : Mem α} {p q : Option Addr} {as : List Addr} {a : Addr}
    (linked : Chained m p (a :: as) q) (notMem : a ∉ as) (p' : Option Addr) :
    Chained (m.setPrev a p') p' (a :: as) q := by
  obtain ⟨_, headNext, rest⟩ := linked
  refine ⟨by simp, headNext, rest.congr (fun _ _ => rfl) ?_⟩
  intro b mem
  have ne : b ≠ a := fun equal => notMem (equal ▸ mem)
  simp [ne]

/-- The fields of a node inside a chain name its neighbours. -/
theorem Chained.prev_at {m : Mem α} {p q : Option Addr} {xs ys : List Addr} {a : Addr}
    (linked : Chained m p (xs ++ a :: ys) q) : m.prev a = xs.getLast?.or p :=
  ((chained_append m p q xs (a :: ys)).mp linked).2.1

theorem Chained.next_at {m : Mem α} {p q : Option Addr} {xs ys : List Addr} {a : Addr}
    (linked : Chained m p (xs ++ a :: ys) q) : m.next a = ys.head?.or q :=
  ((chained_append m p q xs (a :: ys)).mp linked).2.2.1

/-- A chain to the end is determined by its first node. -/
theorem Chained.unique {m : Mem α} {p p' : Option Addr} {as bs : List Addr}
    (linked : Chained m p as none) (linked' : Chained m p' bs none)
    (head : as.head? = bs.head?) : as = bs := by
  induction as generalizing p p' bs with
  | nil =>
      cases bs with
      | nil => rfl
      | cons b bs => cases head
  | cons a as ih =>
      cases bs with
      | nil => cases head
      | cons b bs =>
          cases head
          obtain ⟨-, next, others⟩ := linked
          obtain ⟨-, next', others'⟩ := linked'
          rw [next, Option.or_none, Option.or_none] at next'
          rw [ih others others' next']

/-- Unlinking an inner node of a whole chain leaves the chain of the others. -/
theorem Chained.unlink {m : Mem α} {xs ys : List Addr} {a : Addr}
    (linked : Chained m none (xs ++ a :: ys) none) (nodup : (xs ++ a :: ys).Nodup) :
    Chained (m.unlink a) none (xs ++ ys) none := by
  have prevA : m.prev a = xs.getLast? := by simpa using linked.prev_at
  have nextA : m.next a = ys.head? := by simpa using linked.next_at
  rw [chained_append] at linked ⊢
  obtain ⟨left, -, -, right⟩ := linked
  have disjoint : ∀ b ∈ xs, b ∉ ys := fun b memX memY =>
    (List.nodup_append.mp nodup).2.2 b memX b (List.mem_cons_of_mem a memY) rfl
  constructor
  · -- the left part: only the `next` field of its last node has changed
    rcases List.eq_nil_or_concat xs with rfl | ⟨init, lastX, rfl⟩
    · trivial
    · rw [List.concat_eq_append] at *
      have lastEq : m.prev a = some lastX := by simpa using prevA
      have notMem : lastX ∉ init := by
        intro mem
        have := (List.nodup_append.mp (List.nodup_append.mp nodup).1).2.2 lastX mem lastX
        simp at this
      refine (left.setNext_last notMem (ys.head?.or none)).congr ?_ ?_
      · intro b _
        by_cases equal : b = lastX
        · simp [Mem.unlink_next, lastEq, nextA, equal]
        · simp [Mem.unlink_next, lastEq, equal, Ne.symm equal]
      · intro b mem
        have ne : m.next a ≠ some b := by
          rw [nextA]
          intro equal
          exact disjoint b mem (List.mem_of_head? equal)
        simp [Mem.unlink_prev, ne]
  · -- the right part: only the `prev` field of its first node has changed
    cases ys with
    | nil => trivial
    | cons headY tailY =>
        have headEq : m.next a = some headY := by simpa using nextA
        have notMem : headY ∉ tailY := by
          have := (List.nodup_append.mp nodup).2.1
          simp only [List.nodup_cons] at this
          exact this.2.1
        refine (right.setPrev_head notMem (xs.getLast?.or none)).congr ?_ ?_
        · intro b mem
          have ne : m.prev a ≠ some b := by
            rw [prevA]
            intro equal
            exact disjoint b (List.mem_of_getLast? equal) mem
          simp [Mem.unlink_next, ne]
        · intro b _
          by_cases equal : b = headY
          · simp [Mem.unlink_prev, headEq, prevA, equal]
          · simp [Mem.unlink_prev, headEq, equal, Ne.symm equal]

/-- No node of a chain without repetition is its own neighbour. -/
theorem Chained.prev_ne_self {m : Mem α} {xs ys : List Addr} {a : Addr} {q : Option Addr}
    (linked : Chained m none (xs ++ a :: ys) q) (nodup : (xs ++ a :: ys).Nodup) :
    m.prev a ≠ some a := by
  have notX : a ∉ xs := fun mem => (List.nodup_append.mp nodup).2.2 a mem a (by simp) rfl
  rw [linked.prev_at]
  intro equal
  exact notX (List.mem_of_getLast? (by simpa using equal))

theorem Chained.next_ne_self {m : Mem α} {xs ys : List Addr} {a : Addr} {p : Option Addr}
    (linked : Chained m p (xs ++ a :: ys) none) (nodup : (xs ++ a :: ys).Nodup) :
    m.next a ≠ some a := by
  have notY : a ∉ ys := (List.nodup_cons.mp (List.nodup_append.mp nodup).2.1).1
  rw [linked.next_at]
  intro equal
  exact notY (List.mem_of_head? (by simpa using equal))

/-- Unlinking the same node again changes nothing, because its own fields still
name its old neighbours. -/
theorem Mem.unlink_unlink {m : Mem α} {a : Addr} (prev_ne : m.prev a ≠ some a)
    (next_ne : m.next a ≠ some a) : (m.unlink a).unlink a = m.unlink a := by
  have nextSelf : (m.unlink a).next a = m.next a := by simp [Mem.unlink_next, prev_ne]
  have prevSelf : (m.unlink a).prev a = m.prev a := by simp [Mem.unlink_prev, next_ne]
  refine Mem.ext ?_ ?_ (by simp) (by simp)
  · funext b
    rw [Mem.unlink_next (m.unlink a), nextSelf, prevSelf, Mem.unlink_next]
    split <;> rfl
  · funext b
    rw [Mem.unlink_prev (m.unlink a), nextSelf, prevSelf, Mem.unlink_prev]
    split <;> rfl

/-- Unlinking a node repairs the `prev` field of the node behind it. -/
theorem Mem.unlink_setPrev? {m : Mem α} {a : Addr} (next_ne : m.next a ≠ some a)
    (p : Option Addr) : (m.setPrev? (m.next a) p).unlink a = m.unlink a := by
  cases nextA : m.next a with
  | none => rfl
  | some b =>
      have ne : a ≠ b := by
        rintro rfl
        exact next_ne nextA
      refine Mem.ext ?_ ?_ (by simp [Mem.setPrev?]) (by simp [Mem.setPrev?])
      · funext c
        simp [Mem.setPrev?, Mem.unlink_next, ne]
      · funext c
        by_cases equal : b = c
        · subst equal
          simp [Mem.setPrev?, Mem.unlink_prev, nextA, ne]
        · simp [Mem.setPrev?, Mem.unlink_prev, nextA, equal, Ne.symm equal]

end AkLisp.Linked
