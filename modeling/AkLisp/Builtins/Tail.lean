import AkLisp.Builtins.Sequence

/-!
# Tails of lists

The tail of a list has a header of its own over the same entries.  Looked at from its
head it is the list without the first element; but the first of its entries still
names the one in front of it, and an empty tail is marked as nil, which indexing
asserts against.  The value that holds the header is never marked as nil.
-/

namespace AkLisp

open Linked

/-! ### Recursion over tails -/

/-- `tail` was applied a number of times. -/
inductive Tails (d : Data) (v : VRef) : Nat → Data → VRef → Prop
  | zero : Tails d v 0 d v
  | succ {k d' w ctx t ctx'} (before : Tails d v k d' w) (dataEq : ctx.data = d')
      (on : ctx.On [w]) (tailEq : aklFnLsTail ctx = (t, ctx')) : Tails d v (k + 1) ctx'.data t

theorem Tails.exists (d : Data) (v : VRef) (k : Nat) : ∃ d' w, Tails d v k d' w := by
  induction k with
  | zero => exact ⟨d, v, Tails.zero⟩
  | succ k ih =>
      obtain ⟨d', w, tails⟩ := ih
      obtain ⟨ctx, dataEq, on⟩ := CallState.On.exists_call d' [w] (by simp)
      exact ⟨_, _, Tails.succ tails dataEq on rfl⟩

/-- The tails of a list as long as it has elements. -/
theorem Tails.list {d d' : Data} {v w : VRef} {pre as : List Addr} {k : Nat}
    (value : ListValue d v pre as) (tails : Tails d v k d' w) (inside : k ≤ as.length) :
    ListValue d' w (pre ++ as.take k) (as.drop k) ∧ (0 < k → d'.isNil (some w) = false) := by
  induction tails with
  | zero =>
      constructor
      · simpa using value
      · exact fun positive => absurd positive (Nat.lt_irrefl 0)
  | @succ k d' w ctx t ctx' before dataEq on tailEq ih =>
      subst dataEq
      have current := (ih (Nat.le_of_succ_le inside)).1
      rw [List.drop_eq_getElem_cons (Nat.lt_of_succ_le inside)] at current
      obtain ⟨t', ctx'', tailEq', value', clear, -⟩ := current.tail on
      rw [tailEq] at tailEq'
      cases tailEq'
      constructor
      · rw [List.append_assoc, List.take_append_getElem] at value'
        exact value'
      · exact fun _ => clear

/-- The tails of a string as long as it has characters. -/
theorem Tails.string {d d' : Data} {v w : VRef} {text : List Chr} {k : Nat}
    (value : d.payload v = some (.string text)) (tails : Tails d v k d' w)
    (inside : k ≤ text.length) :
    d'.payload w = some (.string (text.drop k)) ∧ (0 < k → d'.isNil (some w) = false) := by
  induction tails with
  | zero =>
      constructor
      · simpa using value
      · exact fun positive => absurd positive (Nat.lt_irrefl 0)
  | @succ k d' w ctx t ctx' before dataEq on tailEq ih =>
      subst dataEq
      have current := (ih (Nat.le_of_succ_le inside)).1
      obtain ⟨ctx₁, popEq, -, same⟩ := CallState.On.pop (show ctx.On ([] ++ [w]) from on)
      rw [← same.data] at current
      have positive : (text.drop k).length > 0 := by
        rw [List.length_drop]
        omega
      simp only [aklFnLsTail, popEq, current, if_pos positive, List.tail_drop] at tailEq
      cases tailEq
      constructor
      · exact Data.newValue_payload_self _ _
      · intro _
        simp [Data.isNil]

/-- `nil?` answers `T` or `NIL`. -/
def NilAnswers (d : Data) (v : VRef) (answer : VRef) : Prop :=
  ∀ ctx : CallState, ctx.data = d → ctx.On [v] → (aklFnIsnil ctx).1 = answer

theorem nilAnswers_iff (d : Data) (v : VRef) (answer : VRef) :
    NilAnswers d v answer ↔ (if d.isNil (some v) then Data.aklTrue else Data.aklNil) = answer := by
  have popped : ∀ ctx : CallState, ctx.data = d → ctx.On [v] →
      (aklFnIsnil ctx).1 = if d.isNil (some v) then Data.aklTrue else Data.aklNil := by
    intro ctx dataEq on
    obtain ⟨ctx₁, popEq, -, same⟩ := CallState.On.pop (show ctx.On ([] ++ [v]) from on)
    simp only [aklFnIsnil, popEq, same.data, dataEq]
  constructor
  · intro answers
    obtain ⟨ctx, dataEq, on⟩ := CallState.On.exists_call d [v] (by simp)
    rw [← popped ctx dataEq on]
    exact answers ctx dataEq on
  · intro equal ctx dataEq on
    rw [popped ctx dataEq on, equal]

/-- A recursion over the tails of a value of `n` elements ends at the right one. -/
def TailsReachNil (d : Data) (v : VRef) (n : Nat) : Prop :=
  ∀ k d' w, Tails d v k d' w →
    (k < n → NilAnswers d' w Data.aklNil) ∧ (k = n → NilAnswers d' w Data.aklTrue)

/-- A list or a string of `n` elements. -/
def SequenceOf (d : Data) (v : VRef) (n : Nat) : Prop :=
  (∃ pre as, ListValue d v pre as ∧ as.length = n) ∨
    ∃ text, d.payload v = some (.string text) ∧ text.length = n

/-- When all elements are taken off the value is not marked as nil. -/
theorem SequenceOf.exhausted {d : Data} {v : VRef} {n : Nat} (sequence : SequenceOf d v n)
    (positive : 1 ≤ n) : ∃ d' w, Tails d v n d' w ∧ ¬ NilAnswers d' w Data.aklTrue := by
  obtain ⟨d', w, tails⟩ := Tails.exists d v n
  have clear : d'.isNil (some w) = false := by
    rcases sequence with ⟨pre, as, value, rfl⟩ | ⟨text, value, rfl⟩
    · exact (tails.list value (Nat.le_refl _)).2 positive
    · exact (tails.string value (Nat.le_refl _)).2 positive
  refine ⟨d', w, tails, ?_⟩
  rw [nilAnswers_iff, clear]
  decide

/-- For no list and no string `nil?` answers `T` when the last element is taken off. -/
theorem tails_never_nil {d : Data} {v : VRef} {n : Nat} (sequence : SequenceOf d v n)
    (positive : 1 ≤ n) : ¬ TailsReachNil d v n := by
  intro reachNil
  obtain ⟨d', w, tails, notNil⟩ := sequence.exhausted positive
  exact notNil ((reachNil n d' w tails).2 rfl)

/-- The value of a string of one character. -/
def oneCharacter : Data :=
  { Data.init with values := [⟨.string [97], false, false⟩] }

theorem tails_never_nil_character : ¬ TailsReachNil oneCharacter 0 1 :=
  tails_never_nil (Or.inr ⟨[97], rfl, rfl⟩) (by decide)

/-- `nil?` says `NIL` of the tail of a string of one character. -/
theorem character_tail_not_nil :
    SequenceOf oneCharacter 0 1 ∧ ¬ TailsReachNil oneCharacter 0 1 := by
  have sequence : SequenceOf oneCharacter 0 1 := Or.inr ⟨[97], rfl, rfl⟩
  constructor
  · exact sequence
  · intro reachNil
    obtain ⟨d', w, tails, notNil⟩ := sequence.exhausted (by decide)
    exact notNil ((reachNil 1 d' w tails).2 rfl)

/-! ### Tails as sequences -/

/-- The tail of a list never acts as the list without its first element. -/
theorem tail_never_acts {ctx : CallState} {v : VRef} {pre as : List Addr} {ws : List VRef}
    (value : ListValue ctx.data v pre as) (nonempty : as ≠ [])
    (dataEq : as.map ctx.data.entries.data = ws.map some) (on : ctx.On [v]) :
    ¬ ActsAs (aklFnLsTail ctx).2.data (aklFnLsTail ctx).1 ws.tail := by
  obtain ⟨a, others, rfl⟩ := List.exists_cons_of_ne_nil nonempty
  obtain ⟨t, ctx', tailEq, value', -, entriesEq⟩ := value.tail on
  rw [tailEq]
  cases ws with
  | nil => cases dataEq
  | cons w ws =>
      have dataEq' : others.map ctx'.data.entries.data = ws.map some := by
        rw [entriesEq]
        exact (List.cons.inj dataEq).2
      rw [List.tail_cons, value'.actsAs_iff dataEq']
      rintro ⟨-, empty⟩
      exact absurd empty (by simp)

/-- The numbers 1 and 2, and the list of the two. -/
def oneAndTwo : Data where
  values := [⟨.number 1, false, false⟩, ⟨.number 2, false, false⟩, ⟨.list 0, false, false⟩]
  entries := (appendValues Mem.empty aklInitList [0, 1]).1
  lists := [(appendValues Mem.empty aklInitList [0, 1]).2]
  globals := fun _ => none

/-- `(tail l)` on the list of the two. -/
def tailOfTwo : CallState := .start "tail" (aklStackPush default 2) 1 oneAndTwo []

theorem tailOfTwo_on : tailOfTwo.On [2] :=
  CallState.On.call (show (aklStackPush default 2).Holds ([] ++ [(0, 2)]) from
    StackState.Holds.empty.push 2) (by decide) "tail" oneAndTwo []

theorem oneAndTwo_list : ListValue oneAndTwo 2 [] [0, 1] :=
  ⟨0, _, rfl, rfl, ⟨⟨rfl, rfl, rfl, rfl, trivial⟩, rfl, rfl⟩, rfl, by decide⟩

theorem tail_never_acts_two :
    ¬ ActsAs (aklFnLsTail tailOfTwo).2.data (aklFnLsTail tailOfTwo).1 [1] :=
  tail_never_acts oneAndTwo_list (by decide)
    (show List.map tailOfTwo.data.entries.data [0, 1] = List.map some [0, 1] from rfl) tailOfTwo_on

/-- Backward iteration over the tail of the list of the two visits both. -/
theorem tail_of_two_backward : ListValue oneAndTwo 2 [] [0, 1] ∧
    ¬ ActsAs (aklFnLsTail tailOfTwo).2.data (aklFnLsTail tailOfTwo).1 [1] := by
  constructor
  · exact oneAndTwo_list
  · intro acts
    obtain ⟨l, list, payloadEq, listEq, visits⟩ := acts.backward
    cases payloadEq
    cases listEq
    have counted := visits.length (show Walk _ _ [1, 0] from ⟨rfl, rfl, rfl⟩)
    cases counted

end AkLisp
