import AkLisp.Linked.Walk

/-!
# Iterating while the entries are released

`AKL_LIST_FOREACH_SAFE` reads the successor of an entry before its body runs, so that the
body may release the entry.  It takes a successor `NULL` for the end of the loop, and so
the body does not run for the last entry.
-/

namespace AkLisp

open Linked

universe u

variable {σ : Type u}

/-- The loop of `AKL_LIST_FOREACH_SAFE(elem, list, tmp)` from `elem` on, at most `fuel`
rounds: the entries for which its body has run, and the state it leaves.  `next` reads
`le_next` in a state. -/
def foreachSafe (next : σ → Addr → Option Addr) (body : σ → Addr → σ) :
    Nat → Option Addr → σ → List Addr × σ
  | 0, _, s => ([], s)
  | _ + 1, none, s => ([], s)
  | fuel + 1, some elem, s =>
      match next s elem with
      | none => ([], s)
      | some tmp =>
          let (visited, s) := foreachSafe next body fuel (some tmp) (body s elem)
          (elem :: visited, s)

/-- The body may write to the entry it runs for, and it leaves the links of the others. -/
def KeepsOthers (next : σ → Addr → Option Addr) (body : σ → Addr → σ) : Prop :=
  ∀ s a b, b ≠ a → next (body s a) b = next s b

/-- The body runs for every entry but the last one, in order. -/
theorem foreachSafe_eq {next : σ → Addr → Option Addr} {body : σ → Addr → σ}
    (keeps : KeepsOthers next body) {as : List Addr} {p : Option Addr} {s : σ}
    (walk : Walk (next s) p as) {fuel : Nat} (enough : as.length ≤ fuel) :
    foreachSafe next body fuel p s = (as.dropLast, as.dropLast.foldl body s) := by
  induction as generalizing p s fuel with
  | nil =>
      rw [Walk.nil_iff.mp walk]
      cases fuel <;> rfl
  | cons a as ih =>
      have distinct := walk.nodup
      obtain ⟨rfl, others⟩ := walk
      cases fuel with
      | zero => cases enough
      | succ fuel =>
          rw [foreachSafe]
          cases as with
          | nil =>
              rw [Walk.nil_iff.mp others]
              rfl
          | cons b as =>
              rw [others.head]
              have same : ∀ c ∈ b :: as, next (body s a) c = next s c := by
                intro c mem
                apply keeps
                rintro rfl
                exact (List.nodup_cons.mp distinct).1 mem
              have rest := ih ((others.head ▸ others).congr same) (Nat.le_of_succ_le_succ enough)
              simp only [List.head?_cons] at rest ⊢
              rw [rest]
              rfl

end AkLisp
