import AkLisp.Gc.Placement

/-!
# What a new pool starts with

`akl_gc_pool_create` clears two bytes of the eight of a bitmap, which otherwise
consists of what the memory held before.  The pool starts with every slot free
exactly when the other six bytes were zero, and then requests take its slots one
after the other.
-/

namespace AkLisp

open Linked

universe u

variable {σ : Type u}

/-- After `akl_gc_pool_create` no slot of the pool is in use, and the next 64 requests
for the type get its 64 slots. -/
def StartsFree (marked : σ → Ref → Bool) (g : GcState σ) (tid : Nat)
    (freemap : Nat → BitVec 32) : Prop :=
  let (g', pool) := aklGcPoolCreate g tid freemap
  (∀ ind < 64, g'.inUse ⟨pool, ind⟩ = false) ∧
    ∀ requests : List GcRequest, requests.length = 64 → (∀ r ∈ requests, r.1 = tid) →
      ∃ slots : List Nat, slots.Perm (List.range 64) ∧
        (aklGcMallocs marked g' requests).2 = slots.map fun ind => (tid, ⟨pool, ind⟩)

/-- No slot is in use exactly when the bitmap is zero. -/
theorem aklGcPoolInUse_none_iff (p : GcPool) :
    (∀ ind < 64, aklGcPoolInUse p ind = false) ↔ p.gpFreemap 0 = 0 ∧ p.gpFreemap 1 = 0 := by
  constructor
  · intro free
    constructor
    · apply BitVec.eq_of_getLsbD_eq
      intro j bound
      have clear := free j (by omega)
      rw [aklGcPoolInUse_eq, Nat.div_eq_of_lt bound, Nat.mod_eq_of_lt bound] at clear
      rw [clear]
      exact BitVec.getLsbD_zero.symm
    · apply BitVec.eq_of_getLsbD_eq
      intro j bound
      have clear := free (32 + j) (by omega)
      have word : (32 + j) / 32 = 1 := by omega
      have bit : (32 + j) % 32 = j := by omega
      rw [aklGcPoolInUse_eq, word, bit] at clear
      rw [clear]
      exact BitVec.getLsbD_zero.symm
  · rintro ⟨first, second⟩ ind bound
    have word : ind / 32 = 0 ∨ ind / 32 = 1 := by omega
    rw [aklGcPoolInUse_eq]
    rcases word with word | word
    · rw [word, first]
      exact BitVec.getLsbD_zero
    · rw [word, second]
      exact BitVec.getLsbD_zero

/-- What the cleared bytes leave. -/
theorem clearedFreemap_zero_iff (freemap : Nat → BitVec 32) :
    clearedFreemap freemap 0 = 0 ∧ clearedFreemap freemap 1 = 0 ↔
      freemap 0 >>> 16 = 0 ∧ freemap 1 = 0 := by
  have clear (j : Nat) : (0 : BitVec 32).getLsbD j = false := BitVec.getLsbD_zero
  have masked : ∀ j < 32, (0xFFFF0000#32).getLsbD j = decide (16 ≤ j) := by decide
  have upper (w : BitVec 32) : w &&& 0xFFFF0000#32 = 0 ↔ w >>> 16 = 0 := by
    constructor
    · intro zero
      apply BitVec.eq_of_getLsbD_eq
      intro j bound
      rw [BitVec.getLsbD_ushiftRight, clear]
      by_cases inside : 16 + j < 32
      · have bit := congrArg (fun v => v.getLsbD (16 + j)) zero
        rw [BitVec.getLsbD_and, masked _ inside, decide_eq_true (Nat.le_add_right 16 j),
          Bool.and_true] at bit
        rw [bit, clear]
      · exact BitVec.getLsbD_of_ge w (16 + j) (Nat.not_lt.mp inside)
    · intro zero
      apply BitVec.eq_of_getLsbD_eq
      intro j bound
      rw [BitVec.getLsbD_and, clear, masked j bound]
      by_cases low : 16 ≤ j
      · have bit := congrArg (fun v => v.getLsbD (j - 16)) zero
        rw [BitVec.getLsbD_ushiftRight, Nat.add_sub_cancel' low] at bit
        rw [bit, clear, Bool.false_and]
      · rw [decide_eq_false low, Bool.and_false]
  simp only [clearedFreemap, Function.update_self, ne_eq, one_ne_zero, not_false_eq_true,
    Function.update_of_ne, upper]

theorem Filling.mallocs {g : GcState σ} {tid n : Nat} {pool : Addr}
    (filling : Filling g tid pool n) (marked : σ → Ref → Bool) {requests : List GcRequest}
    (room : n + requests.length ≤ 64) (same : ∀ r ∈ requests, r.1 = tid) :
    (aklGcMallocs marked g requests).2 =
      (List.range' n requests.length).map fun ind => (tid, ⟨pool, ind⟩) := by
  induction requests generalizing g n with
  | nil => rfl
  | cons request requests ih =>
      obtain ⟨u, unset⟩ := request
      obtain rfl : u = tid := same _ List.mem_cons_self
      rw [List.length_cons] at room
      have bound : n < 64 := by omega
      have others := ih (filling.next bound) (by omega) fun r mem =>
        same r (List.mem_cons_of_mem _ mem)
      rw [aklGcMallocs, filling.malloc bound, List.length_cons, List.range'_succ, List.map_cons,
        ← others]

/-- The new pool is the last one of its type, with nothing in use. -/
theorem aklGcPoolCreate_filling (g : GcState σ) (tid : Nat) {freemap : Nat → BitVec 32}
    (free : ∀ ind < 64, (aklGcPoolCreate g tid freemap).1.inUse ⟨g.top, ind⟩ = false) :
    Filling (aklGcPoolCreate g tid freemap).1 tid g.top 0 where
  head := by
    rw [aklGcPoolCreate_types, if_pos rfl]
    simp
  last := by rw [aklGcPoolCreate_types, if_pos rfl]
  counted := by
    refine .of_free ?_ free
    rw [aklGcPoolCreate_pools, if_pos rfl]
  filled := by
    intro ind small
    rw [free ind small]
    rfl

/-- A new pool starts with every slot free exactly when the six bytes of the bitmap that
are not cleared were zero. -/
theorem pool_starts_free_iff (marked : σ → Ref → Bool) (g : GcState σ) (tid : Nat)
    (freemap : Nat → BitVec 32) :
    StartsFree marked g tid freemap ↔ freemap 0 >>> 16 = 0 ∧ freemap 1 = 0 := by
  have created : (∀ ind < 64, (aklGcPoolCreate g tid freemap).1.inUse ⟨g.top, ind⟩ = false) ↔
      freemap 0 >>> 16 = 0 ∧ freemap 1 = 0 := by
    rw [← clearedFreemap_zero_iff]
    simp only [GcState.inUse]
    rw [aklGcPoolInUse_none_iff, aklGcPoolCreate_pools, if_pos rfl]
  constructor
  · rintro ⟨free, -⟩
    exact created.mp free
  · intro zero
    have free := created.mpr zero
    refine ⟨free, fun requests length same => ⟨List.range 64, .refl _, ?_⟩⟩
    have served := (aklGcPoolCreate_filling g tid free).mallocs marked (by omega) same
    rw [length, ← List.range_eq_range'] at served
    exact served

/-- Recycled memory in which every bit is set. -/
theorem recycled_pool_starts_used :
    ¬StartsFree (fun marks : Ref → Bool => marks) (aklGcInit [none] fun _ => false) 0
      fun _ => BitVec.allOnes 32 := by
  rintro ⟨free, -⟩
  exact absurd (free 16 (by decide)) (by decide)

end AkLisp
