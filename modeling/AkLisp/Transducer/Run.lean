import Mathlib.Data.List.Basic

/-!
# Transducers

A transducer reads symbols one by one, emits some output at each of them, and
flushes what it still holds at the end.  Its output on a word splits at every place
of the word, so two words that differ in one symbol are compared from the state in
front of that symbol on.
-/

namespace AkLisp

universe u

/-- A machine that emits output while it reads a word and at its end. -/
structure Transducer (α σ β : Type u) where
  step : σ → α → List β × σ
  flush : σ → List β

namespace Transducer

variable {α σ β : Type u} (t : Transducer α σ β)

/-- The state behind a word. -/
def state (s : σ) (word : List α) : σ := word.foldl (fun s a => (t.step s a).2) s

/-- What is emitted while a word is read. -/
def emitted : σ → List α → List β
  | _, [] => []
  | s, a :: word => (t.step s a).1 ++ emitted (t.step s a).2 word

/-- The whole output on a word. -/
def output : σ → List α → List β
  | s, [] => t.flush s
  | s, a :: word => (t.step s a).1 ++ output (t.step s a).2 word

/-- Somewhere in the word the state, the next symbol and what stands behind it are
as described. -/
def Meets (found : σ → α → List α → Prop) (s : σ) (word : List α) : Prop :=
  ∃ before a after, word = before ++ a :: after ∧ found (t.state s before) a after

variable {t} {s : σ} {a : α}

@[simp]
theorem state_nil : t.state s [] = s :=
  rfl

@[simp]
theorem state_cons (word : List α) : t.state s (a :: word) = t.state (t.step s a).2 word :=
  rfl

@[simp]
theorem output_nil : t.output s [] = t.flush s :=
  rfl

theorem output_cons (word : List α) :
    t.output s (a :: word) = (t.step s a).1 ++ t.output (t.step s a).2 word :=
  rfl

/-- The output splits at every place of the word. -/
theorem output_append (before after : List α) :
    t.output s (before ++ after) = t.emitted s before ++ t.output (t.state s before) after := by
  induction before generalizing s with
  | nil => rfl
  | cons a before ih =>
      rw [List.cons_append, output_cons, ih, emitted, state_cons, List.append_assoc]

variable {found : σ → α → List α → Prop}

theorem not_meets_nil : ¬t.Meets found s [] := by
  rintro ⟨before, a, after, wordEq, -⟩
  simp at wordEq

theorem meets_cons (word : List α) :
    t.Meets found s (a :: word) ↔ found s a word ∨ t.Meets found (t.step s a).2 word := by
  constructor
  · rintro ⟨before, b, after, wordEq, holds⟩
    cases before with
    | nil =>
        cases wordEq
        exact .inl holds
    | cons c before =>
        cases wordEq
        exact .inr ⟨before, b, after, rfl, holds⟩
  · rintro (holds | ⟨before, b, after, rfl, holds⟩)
    · exact ⟨[], a, word, rfl, holds⟩
    · exact ⟨a :: before, b, after, rfl, holds⟩

instance meetsDecidable [∀ s a after, Decidable (found s a after)] (s : σ) :
    ∀ word, Decidable (t.Meets found s word)
  | [] => .isFalse not_meets_nil
  | a :: word =>
      have := meetsDecidable (t.step s a).2 word
      decidable_of_iff _ (meets_cons word).symm

end Transducer

end AkLisp
