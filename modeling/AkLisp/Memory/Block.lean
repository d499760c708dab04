import Mathlib.Data.List.Basic
import Mathlib.Tactic.Linarith
import Mathlib.Tactic.Ring

/-!
# Blocks of memory

A block is a sequence of cells, some of which have no determinate contents.  Cells are
written and read in ranges; the slots of an array are ranges of one length, side by side.
-/

namespace AkLisp.Memory

universe u

/-- The cells of an allocated block; `none` is a cell without determinate contents. -/
abbrev Block (α : Type u) := List (Option α)

namespace Block

variable {α : Type u}

/-- The cells from `off` on become those of `data`. -/
def store (b : Block α) (off : Nat) (data : Block α) : Block α :=
  b.take off ++ data ++ b.drop (off + data.length)

/-- The `n` cells from `off` on. -/
def load (b : Block α) (off n : Nat) : Block α := (b.drop off).take n

/-- The block gets a new length: what it keeps of its cells does not change, and the new
cells are not determinate. -/
def resize (b : Block α) (n : Nat) : Block α := b.take n ++ List.replicate (n - b.length) none

/-- Copying `n` cells of `data` into the block, unless a cell outside of one of them is
used. -/
def copy (b : Block α) (off : Nat) (data : Block α) (n : Nat) : Option (Block α) :=
  if off + n ≤ b.length ∧ n ≤ data.length then some (b.store off (data.take n)) else none

section

variable {b data : Block α} {off p n : Nat}

theorem length_store (room : off + data.length ≤ b.length) :
    (b.store off data).length = b.length := by
  simp only [store, List.length_append, List.length_take, List.length_drop]
  omega

theorem getElem?_store (room : off + data.length ≤ b.length) (p : Nat) :
    (b.store off data)[p]? =
      if off ≤ p ∧ p < off + data.length then data[p - off]? else b[p]? := by
  have front : (b.take off).length = off := by
    rw [List.length_take]
    omega
  rw [store, List.append_assoc, List.getElem?_append, front]
  split
  · next before =>
      rw [if_neg (by omega), List.getElem?_take_of_lt before]
  · next behind =>
      rw [List.getElem?_append]
      split
      · rw [if_pos (by omega)]
      · rw [if_neg (by omega), List.getElem?_drop]
        congr 1
        omega

theorem getElem?_load (b : Block α) (off n p : Nat) :
    (b.load off n)[p]? = if p < n then b[off + p]? else none := by
  rw [load, List.getElem?_take, List.getElem?_drop]

@[simp]
theorem length_resize (b : Block α) (n : Nat) : (b.resize n).length = n := by
  simp only [resize, List.length_append, List.length_take, List.length_replicate]
  omega

theorem getElem?_resize (b : Block α) (n p : Nat) :
    (b.resize n)[p]? = if p < n then (b[p]? <|> some none) else none := by
  rw [resize, List.getElem?_append, List.length_take]
  split
  · next below =>
      rw [if_pos (by omega), List.getElem?_take_of_lt (by omega),
        List.getElem?_eq_getElem (by omega)]
      rfl
  · next above =>
      split
      · rw [List.getElem?_replicate, if_pos (by omega), List.getElem?_eq_none (by omega)]
        rfl
      · rw [List.getElem?_replicate, if_neg (by omega)]

/-- What is written is read. -/
theorem load_store_self (room : off + data.length ≤ b.length) :
    (b.store off data).load off data.length = data := by
  apply List.ext_getElem?
  intro p
  rw [getElem?_load, getElem?_store room]
  split
  · rw [if_pos (by omega)]
    congr 1
    omega
  · rw [List.getElem?_eq_none (by omega)]

/-- Other ranges do not change. -/
theorem load_store_of_disjoint (room : off + data.length ≤ b.length) {off' n : Nat}
    (disjoint : off' + n ≤ off ∨ off + data.length ≤ off') :
    (b.store off data).load off' n = b.load off' n := by
  apply List.ext_getElem?
  intro p
  rw [getElem?_load, getElem?_load]
  split
  · rw [getElem?_store room, if_neg (by omega)]
  · rfl

/-- What both lengths cover is kept. -/
theorem load_resize (room : off + n ≤ b.length) {m : Nat} (kept : off + n ≤ m) :
    (b.resize m).load off n = b.load off n := by
  apply List.ext_getElem?
  intro p
  rw [getElem?_load, getElem?_load]
  split
  · rw [getElem?_resize, if_pos (by omega), List.getElem?_eq_getElem (by omega)]
    rfl
  · rfl

end

end Block

/-! ### Arrays -/

variable {α : Type u}

/-- The first slots of length `k` hold the elements. -/
def Slots (k : Nat) (b : Block α) (xs : List (List α)) : Prop :=
  ∀ i x, xs[i]? = some x → b.load (i * k) k = x.map some

namespace Slots

variable {k : Nat} {b : Block α} {xs ys : List (List α)} {x : List α}

theorem nil (k : Nat) (b : Block α) : Slots k b [] := nofun

/-- The first elements are there as well. -/
theorem of_append (slots : Slots k b (xs ++ ys)) : Slots k b xs := by
  intro i x found
  have bound := (List.getElem?_eq_some_iff.mp found).1
  exact slots i x (by rw [List.getElem?_append_left bound, found])

/-- Slots in front of `n` elements lie in front of slot `n`. -/
theorem end_le {i n : Nat} (below : i < n) (k : Nat) : i * k + k ≤ n * k := by
  rw [← Nat.succ_mul]
  exact Nat.mul_le_mul_right k below

/-- An element is written behind the others. -/
theorem concat (slots : Slots k b xs) (room : xs.length * k + k ≤ b.length)
    (size : x.length = k) : Slots k (b.store (xs.length * k) (x.map some)) (xs ++ [x]) := by
  have inside : xs.length * k + (x.map some).length ≤ b.length := by
    rwa [List.length_map, size]
  intro i y found
  rcases Nat.lt_trichotomy i xs.length with before | rfl | behind
  · rw [List.getElem?_append_left before] at found
    rw [Block.load_store_of_disjoint inside (.inl (end_le before k)), slots i y found]
  · rw [List.getElem?_concat_length] at found
    cases found
    have self := Block.load_store_self inside
    rwa [List.length_map, size] at self
  · have outside : (xs ++ [x]).length ≤ i := by
      rw [List.length_append]
      exact behind
    rw [List.getElem?_eq_none outside] at found
    cases found

/-- The block may grow, or shrink as long as the elements fit. -/
theorem resize (slots : Slots k b xs) (room : xs.length * k ≤ b.length) {n : Nat}
    (kept : xs.length * k ≤ n) : Slots k (b.resize n) xs := by
  intro i x found
  have inside := end_le (List.getElem?_eq_some_iff.mp found).1 k
  rw [Block.load_resize (inside.trans room) (inside.trans kept), slots i x found]

/-- Writing behind the elements does not change them. -/
theorem store_behind_iff {off : Nat} {data : Block α} (room : off + data.length ≤ b.length)
    (behind : xs.length * k ≤ off) : Slots k (b.store off data) xs ↔ Slots k b xs := by
  have same {i : Nat} {x : List α} (found : xs[i]? = some x) :
      (b.store off data).load (i * k) k = b.load (i * k) k :=
    Block.load_store_of_disjoint room
      (.inl ((end_le (List.getElem?_eq_some_iff.mp found).1 k).trans behind))
  constructor
  · exact fun slots i x found => same found ▸ slots i x found
  · exact fun slots i x found => (same found).trans (slots i x found)

/-- The cells of an element. -/
theorem cell (slots : Slots k b xs) {i j : Nat} (found : xs[i]? = some x) (inside : j < k) :
    b[i * k + j]? = (x.map some)[j]? := by
  rw [← slots i x found, Block.getElem?_load, if_pos inside]

/-- The block determines the elements. -/
theorem unique (slots : Slots k b xs) (slots' : Slots k b ys) (same : xs.length = ys.length) :
    xs = ys := by
  apply List.ext_getElem same
  intro i below below'
  have equal := slots i _ (List.getElem?_eq_getElem below)
  rw [slots' i _ (List.getElem?_eq_getElem below')] at equal
  exact (List.map_injective_iff.mpr (Option.some_injective α) equal).symm

/-- All cells of the elements are determinate. -/
theorem determinate (slots : Slots k b xs) (room : xs.length * k ≤ b.length) {q : Nat}
    (inside : q < xs.length * k) : ∃ a, b[q]? = some (some a) := by
  have positive : 0 < k := Nat.pos_of_lt_mul_left inside
  have below : q / k < xs.length := Nat.div_lt_of_lt_mul (by rwa [Nat.mul_comm])
  have found : xs[q / k]? = some xs[q / k] := List.getElem?_eq_getElem below
  have cell := slots.cell found (Nat.mod_lt q positive)
  rw [Nat.mul_comm, Nat.div_add_mod, List.getElem?_eq_getElem (inside.trans_le room),
    List.getElem?_map] at cell
  obtain ⟨a, -, equal⟩ := Option.map_eq_some_iff.mp cell.symm
  exact ⟨a, by rw [List.getElem?_eq_getElem (inside.trans_le room), equal]⟩

/-- Only the first cells of an element are written. -/
theorem set_front (slots : Slots k b xs) (room : xs.length * k ≤ b.length) {w : Nat}
    {data : List α} (found : xs[w]? = some x) (size : x.length = k) (short : data.length ≤ k) :
    Slots k (b.store (w * k) (data.map some)) (xs.set w (data ++ x.drop data.length)) := by
  have below := (List.getElem?_eq_some_iff.mp found).1
  have inside : w * k + (data.map some).length ≤ b.length := by
    rw [List.length_map]
    exact ((Nat.add_le_add_left short _).trans (end_le below k)).trans room
  intro i y found'
  rcases Nat.lt_trichotomy i w with before | rfl | behind
  · rw [List.getElem?_set_ne (Nat.ne_of_gt before)] at found'
    rw [Block.load_store_of_disjoint inside (.inl (end_le before k)), slots i y found']
  · rw [List.getElem?_set_self below] at found'
    cases found'
    apply List.ext_getElem?
    intro p
    rw [Block.getElem?_load]
    split
    · next within =>
        rw [Block.getElem?_store inside, List.length_map, List.map_append]
        split
        · rw [List.getElem?_append_left (by rw [List.length_map]; omega)]
          congr 1
          omega
        · rw [slots.cell found within, List.getElem?_append_right (by rw [List.length_map]; omega),
            List.length_map, List.map_drop, List.getElem?_drop]
          congr 1
          omega
    · rw [List.getElem?_eq_none]
      rw [List.length_map, List.length_append, List.length_drop]
      omega
  · rw [List.getElem?_set_ne (Nat.ne_of_lt behind)] at found'
    have apart : w * k + (data.map some).length ≤ i * k := by
      rw [List.length_map]
      exact (Nat.add_le_add_left short _).trans (end_le behind k)
    rw [Block.load_store_of_disjoint inside (.inr apart), slots i y found']

/-- The elements behind the first ones are those that another block begins with. -/
theorem append_iff {b' : Block α} (other : Slots k b' ys) :
    Slots k b (xs ++ ys) ↔ Slots k b xs ∧
      ∀ q < ys.length * k, b[xs.length * k + q]? = b'[q]? := by
  constructor
  · intro slots
    refine ⟨slots.of_append, fun q inside => ?_⟩
    have positive : 0 < k := Nat.pos_of_lt_mul_left inside
    have below : q / k < ys.length := Nat.div_lt_of_lt_mul (by rwa [Nat.mul_comm])
    have found : ys[q / k]? = some ys[q / k] := List.getElem?_eq_getElem below
    have found' : (xs ++ ys)[xs.length + q / k]? = some ys[q / k] := by
      rw [List.getElem?_append_right (Nat.le_add_right _ _), Nat.add_sub_cancel_left, found]
    have equal := slots.cell found' (Nat.mod_lt q positive)
    rw [← other.cell found (Nat.mod_lt q positive)] at equal
    rwa [Nat.add_mul, Nat.add_assoc, Nat.mul_comm (q / k), Nat.div_add_mod] at equal
  · rintro ⟨slots, same⟩ i y found
    by_cases before : i < xs.length
    · rw [List.getElem?_append_left before] at found
      exact slots i y found
    · obtain ⟨j, rfl⟩ := Nat.exists_eq_add_of_le (Nat.le_of_not_lt before)
      rw [List.getElem?_append_right (Nat.le_add_right _ _), Nat.add_sub_cancel_left] at found
      rw [← other j y found]
      apply List.ext_getElem?
      intro p
      rw [Block.getElem?_load, Block.getElem?_load]
      split
      · have inside := end_le (List.getElem?_eq_some_iff.mp found).1 k
        rw [Nat.add_mul, Nat.add_assoc]
        exact same _ (by omega)
      · rfl

/-- All elements are runs of one cell. -/
theorem replicate_iff {m : Nat} {a : α} :
    Slots k b (List.replicate m (List.replicate k a)) ↔ ∀ q < m * k, b[q]? = some (some a) := by
  constructor
  · intro slots q inside
    have positive : 0 < k := Nat.pos_of_lt_mul_left inside
    have below : q / k < m := Nat.div_lt_of_lt_mul (by rwa [Nat.mul_comm])
    have found : (List.replicate m (List.replicate k a))[q / k]? = some (List.replicate k a) := by
      rw [List.getElem?_replicate, if_pos below]
    have cell := slots.cell found (Nat.mod_lt q positive)
    rwa [Nat.mul_comm, Nat.div_add_mod, List.map_replicate, List.getElem?_replicate,
      if_pos (Nat.mod_lt q positive)] at cell
  · intro same i x found
    rw [List.getElem?_replicate] at found
    split at found
    · next below =>
        cases found
        apply List.ext_getElem?
        intro p
        rw [Block.getElem?_load, List.map_replicate, List.getElem?_replicate]
        split
        · have inside := end_le below k
          exact same _ (by omega)
        · rfl
    · cases found

end Slots

end AkLisp.Memory
