import AkLisp.Builtins.Compare
import AkLisp.List.Sharing
import Mathlib.Data.List.Forall2
import Mathlib.Data.List.Perm.Subperm

/-!
# Comparison of lists

The loop over two lists takes both values of a round from the first list, so that
the elements of the first list are compared with each other, two at a time, and the
second list only has to have two elements.  When the first list is used up a null
pointer is compared, and the assertion fails.
-/

namespace AkLisp

open Linked

/-- A scalar or a list of such values. -/
inductive Nested where
  | scalar (scalar : Scalar)
  | list (elements : List Nested)

mutual

/-- How deep the lists of the value are nested. -/
def Nested.depth : Nested → Nat
  | .scalar _ => 0
  | .list ts => Nested.depths ts + 1

def Nested.depths : List Nested → Nat
  | [] => 0
  | t :: ts => max t.depth (Nested.depths ts)

end

mutual

/-- The value is the tree. -/
def Nested.Stored (d : Data) (v : VRef) : Nested → Prop
  | .scalar s => d.payload v = some s.payload
  | .list ts => ∃ l header as vs, d.payload v = some (.list l) ∧ d.lists[l]? = some header ∧
      header.Reaches d.entries as ∧ as.map d.entries.data = vs.map some ∧
      Nested.StoredAll d vs ts

def Nested.StoredAll (d : Data) : List VRef → List Nested → Prop
  | vs, [] => vs = []
  | vs, t :: ts => ∃ w ws, vs = w :: ws ∧ t.Stored d w ∧ Nested.StoredAll d ws ts

end

mutual

/-- Structural equality: the same length, and elements that compare equal. -/
def Nested.Equal (address : Symbol → Int) : Nested → Nested → Prop
  | .scalar s, .scalar t => compareScalars address s t = 0
  | .list ts, .list us => Nested.EqualAll address ts us
  | _, _ => False

def Nested.EqualAll (address : Symbol → Int) : List Nested → List Nested → Prop
  | [], [] => True
  | t :: ts, u :: us => t.Equal address u ∧ Nested.EqualAll address ts us
  | _, _ => False

end

/-- Two scalars that compare equal. -/
def EqualScalars (address : Symbol → Int) (x y : Nested) : Prop :=
  ∃ s t, x = .scalar s ∧ y = .scalar t ∧ compareScalars address s t = 0

/-- The elements two at a time, the last one of an odd number with the first one of
the pair before. -/
def pairsFrom {β : Type} : Option β → List β → List (β × β)
  | _, [] => []
  | none, [_] => []
  | some x, [y] => [(x, y)]
  | _, x :: y :: rest => (x, y) :: pairsFrom (some x) rest

mutual

/-- Unequal scalars, a scalar and a list, or two lists of two elements and more with a
deciding pair in the first one. -/
inductive Decided (address : Symbol → Int) : Nested → Nested → Prop
  | scalars {s t} (unequal : compareScalars address s t ≠ 0) :
      Decided address (.scalar s) (.scalar t)
  | scalarList {s us} : Decided address (.scalar s) (.list us)
  | listScalar {ts t} : Decided address (.list ts) (.scalar t)
  | lists {ts us} (deciding : DecidedBy address (pairsFrom none ts)) (two : 2 ≤ us.length) :
      Decided address (.list ts) (.list us)

/-- The first pair that is not one of equal scalars is decided. -/
inductive DecidedBy (address : Symbol → Int) : List (Nested × Nested) → Prop
  | here {x y ps} (decided : Decided address x y) : DecidedBy address ((x, y) :: ps)
  | later {x y ps} (equal : EqualScalars address x y) (others : DecidedBy address ps) :
      DecidedBy address ((x, y) :: ps)

end

/-- The rounds of the loop over the pairs of the first list. -/
def comparePairs (compare : Option VRef → Option VRef → Except Fault Int) :
    List (VRef × VRef) → Except Fault Int
  | [] => throw .assertion
  | (v, w) :: ps => do
      let r ← compare (some v) (some w)
      if r ≠ 0 then return r else comparePairs compare ps

/-- What the comparison of two values comes to. -/
inductive Comes (address : Symbol → Int) (x y : Nested) : Except Fault Int → Prop
  | differ {r} (decided : Decided address x y) (nonzero : r ≠ 0) : Comes address x y (.ok r)
  | same (equal : EqualScalars address x y) : Comes address x y (.ok 0)
  | fail (undecided : ¬ Decided address x y) (unequal : ¬ EqualScalars address x y) :
      Comes address x y (.error .assertion)

/-- What the loop over the pairs comes to. -/
inductive ComesAll (address : Symbol → Int) (ps : List (Nested × Nested)) :
    Except Fault Int → Prop
  | differ {r} (decided : DecidedBy address ps) (nonzero : r ≠ 0) : ComesAll address ps (.ok r)
  | fail (undecided : ¬ DecidedBy address ps) : ComesAll address ps (.error .assertion)

namespace Nested

theorem depth_le_depths {t : Nested} {ts : List Nested} (mem : t ∈ ts) : t.depth ≤ depths ts := by
  induction ts with
  | nil => cases mem
  | cons u ts ih =>
      rw [depths]
      rcases List.mem_cons.mp mem with rfl | mem
      · exact Nat.le_max_left _ _
      · exact (ih mem).trans (Nat.le_max_right _ _)

theorem StoredAll.forall₂ {d : Data} {vs : List VRef} {ts : List Nested}
    (stored : StoredAll d vs ts) :
    List.Forall₂ (fun v t => t ∈ ts ∧ t.Stored d v) vs ts := by
  induction ts generalizing vs with
  | nil =>
      cases stored
      exact List.Forall₂.nil
  | cons t ts ih =>
      obtain ⟨w, ws, rfl, first, others⟩ := stored
      constructor
      · exact ⟨List.mem_cons_self, first⟩
      · exact (ih others).imp fun _ _ both => ⟨List.mem_cons_of_mem t both.1, both.2⟩

end Nested

/-- A list has at most as many entries as were allocated. -/
theorem AklList.Reaches.length_le {m : Mem VRef} {list : AklList} {as : List Addr}
    (reaches : list.Reaches m as) : as.length ≤ m.top := by
  have inside : as ⊆ List.range m.top := fun a mem => List.mem_range.mpr (reaches.below a mem)
  have := (List.Nodup.subperm reaches.walk.nodup inside).length_le
  simpa using this

theorem EqualScalars.not_decided {address : Symbol → Int} {x y : Nested}
    (equal : EqualScalars address x y) : ¬ Decided address x y := by
  obtain ⟨s, t, rfl, rfl, zero⟩ := equal
  intro decided
  cases decided with
  | scalars unequal => exact unequal zero

/-- Related lists have related pairs. -/
theorem pairsFrom_forall₂ {β γ : Type} {R : β → γ → Prop} : ∀ {first : Option β}
    {first' : Option γ} {xs : List β} {ys : List γ}, Option.Rel R first first' →
    List.Forall₂ R xs ys →
    List.Forall₂ (fun p q => R p.1 q.1 ∧ R p.2 q.2) (pairsFrom first xs) (pairsFrom first' ys)
  | _, _, [], [], _, _ => by
      simp only [pairsFrom]
      exact List.Forall₂.nil
  | _, _, [x], [y], rel, related => by
      cases related with
      | cons last _ =>
          cases rel with
          | none => exact List.Forall₂.nil
          | some first => exact List.Forall₂.cons ⟨first, last⟩ List.Forall₂.nil
  | _, _, x :: x' :: xs, y :: y' :: ys, _, related => by
      cases related with
      | cons first related =>
          cases related with
          | cons second others =>
              simp only [pairsFrom]
              exact List.Forall₂.cons ⟨first, second⟩
                (pairsFrom_forall₂ (Option.Rel.some first) others)

/-- While the second list has another element the loop goes through the pairs of the
first one. -/
theorem compareEntries_pairs {compare : Option VRef → Option VRef → Except Fault Int}
    {m : Mem VRef} (null : ∀ v, compare v none = .error .assertion)
    (nullLeft : ∀ w, compare none w = .error .assertion) {e2 : Option Addr}
    (more : aklListItHasNext m e2 = true) : ∀ {as : List Addr} {vs : List VRef} {rounds : Nat}
    {e1 : Option Addr} {v1 v2 : Option VRef}, Walk m.next e1 as →
    as.map m.data = vs.map some → as.length < rounds →
    compareEntries compare m rounds e1 e2 v1 v2 = comparePairs compare (pairsFrom v1 vs)
  | _, _, 0, _, _, _, _, _, enough => absurd enough (Nat.not_lt_zero _)
  | [], vs, rounds + 1, e1, v1, v2, walk, dataEq, _ => by
      have start : e1 = none := walk
      have empty : vs = [] := by simpa using dataEq.symm
      subst start empty
      have ended : aklListItHasNext m none = false := rfl
      cases v1 <;> simp [compareEntries, more, ended, aklListItNext, null, pairsFrom,
        comparePairs, bind, Except.bind, throw, throwThe, MonadExceptOf.throw]
  | [a], vs, rounds + 1, e1, v1, v2, walk, dataEq, enough => by
      obtain ⟨start, behind⟩ := walk
      have nextEq : m.next a = none := behind
      obtain ⟨z, rfl⟩ : ∃ z, vs = [z] := by
        rw [List.map_cons, List.map_nil] at dataEq
        obtain ⟨z, zEq, -⟩ := List.map_eq_singleton_iff.mp dataEq.symm
        exact ⟨z, zEq⟩
      have dataA : m.data a = some z := by simpa using dataEq
      have ended : aklListItHasNext m (some a) = false := by simp [aklListItHasNext, nextEq]
      subst start
      cases v1 with
      | none =>
          simp [compareEntries, more, ended, aklListItNext, dataA, nullLeft, pairsFrom,
            comparePairs, bind, Except.bind, throw, throwThe, MonadExceptOf.throw]
      | some v =>
          have rest : compareEntries compare m rounds none e2 (some v) (some z) =
              comparePairs compare (pairsFrom (some v) []) :=
            compareEntries_pairs null nullLeft more (show Walk m.next none [] from rfl) rfl
              (Nat.lt_of_succ_lt_succ enough)
          simp only [pairsFrom] at rest
          simp [compareEntries, more, ended, aklListItNext, dataA, nextEq, pairsFrom,
            comparePairs, rest]
  | a :: b :: as, vs, rounds + 1, e1, v1, v2, walk, dataEq, enough => by
      obtain ⟨start, nextEq, behind⟩ := walk
      obtain ⟨z, w, ws, rfl⟩ : ∃ z w ws, vs = z :: w :: ws := by
        cases vs with
        | nil => cases dataEq
        | cons z vs =>
            cases vs with
            | nil => simp at dataEq
            | cons w ws => exact ⟨z, w, ws, rfl⟩
      simp only [List.map_cons, List.cons.injEq] at dataEq
      obtain ⟨dataA, dataB, dataEq⟩ := dataEq
      have going : aklListItHasNext m (some a) = true := by simp [aklListItHasNext, nextEq]
      have rest : compareEntries compare m rounds (m.next b) e2 (some z) (some w) =
          comparePairs compare (pairsFrom (some z) ws) :=
        compareEntries_pairs null nullLeft more behind dataEq
          (Nat.lt_of_succ_lt (Nat.lt_of_succ_lt_succ enough))
      subst start
      simp [compareEntries, more, going, aklListItNext, dataA, dataB, nextEq, pairsFrom,
        comparePairs, rest]

/-- Without another element in the second list the first round fails. -/
theorem compareEntries_single {compare : Option VRef → Option VRef → Except Fault Int}
    {m : Mem VRef} (null : ∀ v, compare v none = .error .assertion) {e2 : Option Addr}
    (done : aklListItHasNext m e2 = false) (rounds : Nat) (e1 : Option Addr) (v1 : Option VRef) :
    compareEntries compare m (rounds + 1) e1 e2 v1 none = .error .assertion := by
  simp [compareEntries, done, null, bind, Except.bind]

/-- The iterator at the head of a list has a next entry when there are two. -/
theorem hasNext_head {m : Mem VRef} {p : Option Addr} {as : List Addr} (walk : Walk m.next p as) :
    aklListItHasNext m p = true ↔ 2 ≤ as.length := by
  cases as with
  | nil =>
      rw [Walk.nil_iff.mp walk]
      simp [aklListItHasNext]
  | cons a as =>
      rw [walk.1]
      cases as with
      | nil =>
          have nextEq : m.next a = none := walk.2
          simp [aklListItHasNext, nextEq]
      | cons b as =>
          have nextEq : m.next a = some b := walk.2.1
          simp [aklListItHasNext, nextEq]

/-- The loop over the pairs finds the first one that decides. -/
theorem comparePairs_comes {address : Symbol → Int}
    {compare : Option VRef → Option VRef → Except Fault Int} {R : VRef → Nested → Prop}
    (elements : ∀ v x w y, R v x → R w y → Comes address x y (compare (some v) (some w)))
    {ps : List (VRef × VRef)} {qs : List (Nested × Nested)}
    (related : List.Forall₂ (fun p q => R p.1 q.1 ∧ R p.2 q.2) ps qs) :
    ComesAll address qs (comparePairs compare ps) := by
  induction related with
  | nil =>
      apply ComesAll.fail
      intro decided
      cases decided
  | @cons p q ps qs both related ih =>
      have comes := elements p.1 q.1 p.2 q.2 both.1 both.2
      simp only [comparePairs]
      generalize resultEq : compare (some p.1) (some p.2) = result at comes
      cases comes with
      | differ decided nonzero =>
          simp only [bind, Except.bind, nonzero, ne_eq, not_false_eq_true, if_true]
          exact ComesAll.differ (DecidedBy.here decided) nonzero
      | same equal =>
          simp only [bind, Except.bind, ne_eq, not_true_eq_false, if_false]
          generalize comparePairs compare ps = rest at ih
          cases ih with
          | differ decided nonzero => exact ComesAll.differ (DecidedBy.later equal decided) nonzero
          | fail undecided =>
              apply ComesAll.fail
              intro decided
              cases decided with
              | here decided => exact equal.not_decided decided
              | later _ others => exact undecided others
      | fail undecided unequal =>
          apply ComesAll.fail
          intro decided
          cases decided with
          | here decided => exact undecided decided
          | later equal _ => exact unequal equal

/-- `akl_compare_values` on two trees, when the bound exceeds the depth of the first. -/
theorem Nested.Stored.compare (address : Symbol → Int) {d : Data} {x y : Nested} {v w : VRef}
    {fuel : Nat} (first : x.Stored d v) (second : y.Stored d w) (enough : x.depth < fuel) :
    Comes address x y (aklCompareValues address d fuel (some v) (some w)) := by
  induction fuel generalizing x y v w with
  | zero => exact absurd enough (Nat.not_lt_zero _)
  | succ fuel ih =>
      cases x with
      | scalar s =>
          cases y with
          | scalar t =>
              rw [aklCompareValues_scalars address first second]
              by_cases zero : compareScalars address s t = 0
              · rw [zero]
                exact Comes.same ⟨s, t, rfl, rfl, zero⟩
              · exact Comes.differ (Decided.scalars zero) zero
          | list us =>
              obtain ⟨l, header, as, vs, found, -⟩ := second
              rw [aklCompareValues_scalar_list first found]
              exact Comes.differ Decided.scalarList (by decide)
      | list ts =>
          obtain ⟨l, header, as, vs, found, headerEq, reaches, dataEq, stored⟩ := first
          cases y with
          | scalar t =>
              rw [aklCompareValues_list_scalar found second]
              exact Comes.differ Decided.listScalar (by decide)
          | list us =>
              obtain ⟨l', header', as', vs', found', headerEq',
                reaches', dataEq', stored'⟩ := second
              have depthLt : depths ts < fuel := by
                rw [depth] at enough
                omega
              obtain ⟨fuel, rfl⟩ := Nat.exists_eq_add_one_of_ne_zero (Nat.ne_of_gt
                (Nat.zero_lt_of_lt depthLt))
              have lengthEq : as'.length = us.length := by
                rw [← List.length_map d.entries.data, dataEq', List.length_map]
                exact stored'.forall₂.length_eq
              simp only [aklCompareValues, found, found', headerEq, headerEq', Option.bind_some]
              have hasNext := hasNext_head reaches'.walk
              rw [lengthEq] at hasNext
              by_cases two : 2 ≤ us.length
              · rw [compareEntries_pairs (fun v => aklCompareValues_null v fuel)
                  (fun w => aklCompareValues_null_left w fuel) (hasNext.mpr two) reaches.walk dataEq
                  (Nat.lt_succ_of_le reaches.length_le)]
                have comes := comparePairs_comes
                  (fun v x w y (first : x ∈ ts ∧ x.Stored d v) (second : y ∈ ts ∧ y.Stored d w) =>
                    ih first.2 second.2 ((depth_le_depths first.1).trans_lt depthLt))
                  (pairsFrom_forall₂ Option.Rel.none stored.forall₂)
                generalize comparePairs _ _ = result at comes
                cases comes with
                | differ decided nonzero => exact Comes.differ (Decided.lists decided two) nonzero
                | fail undecided =>
                    apply Comes.fail
                    · intro decided
                      cases decided with
                      | lists deciding _ => exact undecided deciding
                    · rintro ⟨s, t, equal, -⟩
                      cases equal
              · rw [compareEntries_single (fun v => aklCompareValues_null v fuel)
                  (Bool.eq_false_iff.mpr (mt hasNext.mp two))]
                apply Comes.fail
                · intro decided
                  cases decided with
                  | lists _ two' => exact two two'
                · rintro ⟨s, t, equal, -⟩
                  cases equal

/-- The comparison returns, and it returns 0 for equal trees only. -/
def ComparesStructurally (address : Symbol → Int) (d : Data) (fuel : Nat) (v w : VRef)
    (x y : Nested) : Prop :=
  ∃ r, aklCompareValues address d fuel (some v) (some w) = .ok r ∧ (r = 0 ↔ x.Equal address y)

/-- Comparing two lists tells whether they are equal exactly when they are not and a
pair in the first one decides. -/
theorem compare_lists {address : Symbol → Int} {d : Data} {v w : VRef} {ts us : List Nested}
    (first : (Nested.list ts).Stored d v) (second : (Nested.list us).Stored d w) {fuel : Nat}
    (enough : (Nested.list ts).depth < fuel) :
    ComparesStructurally address d fuel v w (.list ts) (.list us) ↔
      Decided address (.list ts) (.list us) ∧ ¬ (Nested.list ts).Equal address (.list us) := by
  have comes := first.compare address second enough
  unfold ComparesStructurally
  generalize aklCompareValues address d fuel (some v) (some w) = result at comes
  cases comes with
  | @differ r decided nonzero =>
      constructor
      · rintro ⟨r', resultEq, zeroIff⟩
        cases resultEq
        exact ⟨decided, fun equal => nonzero (zeroIff.mpr equal)⟩
      · rintro ⟨-, different⟩
        exact ⟨r, rfl, fun zero => absurd zero nonzero, fun equal => absurd equal different⟩
  | same equal =>
      obtain ⟨s, t, scalar, -⟩ := equal
      cases scalar
  | fail undecided unequal =>
      constructor
      · rintro ⟨r', resultEq, -⟩
        cases resultEq
      · rintro ⟨decided, -⟩
        exact absurd decided undecided

/-- The lists `(1 2)` and `(2 1)`, at 2 and 3. -/
def twoLists : Data where
  values := [⟨.number 1, false, false⟩, ⟨.number 2, false, false⟩, ⟨.list 0, false, false⟩,
    ⟨.list 1, false, false⟩]
  entries := (appendValues (appendValues Mem.empty aklInitList [0, 1]).1 aklInitList [1, 0]).1
  lists := [(appendValues Mem.empty aklInitList [0, 1]).2,
    (appendValues (appendValues Mem.empty aklInitList [0, 1]).1 aklInitList [1, 0]).2]
  globals := fun _ => none

/-- The numbers 1 and 2 as elements. -/
def Nested.one : Nested := .scalar (.number 1)

def Nested.two : Nested := .scalar (.number 2)

theorem twoLists_stored : (Nested.list [.one, .two]).Stored twoLists 2 ∧
    (Nested.list [.two, .one]).Stored twoLists 3 := by
  constructor
  · exact ⟨0, _, [0, 1], [0, 1], rfl, rfl, ⟨⟨rfl, rfl, rfl⟩, rfl, rfl, by decide⟩, rfl,
      0, [1], rfl, rfl, 1, [], rfl, rfl, rfl⟩
  · exact ⟨1, _, [2, 3], [1, 0], rfl, rfl, ⟨⟨rfl, rfl, rfl⟩, rfl, rfl, by decide⟩, rfl,
      1, [0], rfl, rfl, 0, [], rfl, rfl, rfl⟩

theorem one_ne_two : compareScalars (fun _ => 0) (.number 1) (.number 2) ≠ 0 := by
  decide +kernel

/-- `(1 2)` and `(2 1)` differ, and their comparison says so. -/
theorem compare_lists_different :
    ComparesStructurally (fun _ => 0) twoLists 2 2 3 (.list [.one, .two]) (.list [.two, .one]) :=
  (compare_lists twoLists_stored.1 twoLists_stored.2 (by decide)).mpr
    ⟨Decided.lists (DecidedBy.here (Decided.scalars one_ne_two)) (by decide),
      fun equal => one_ne_two equal.1⟩

/-- The comparison of `(1 2)` with itself returns -1. -/
theorem compare_lists_equal : (Nested.list [.one, .two]).Stored twoLists 2 ∧
    ¬ ComparesStructurally (fun _ => 0) twoLists 2 2 2
      (.list [.one, .two]) (.list [.one, .two]) := by
  constructor
  · exact twoLists_stored.1
  · rintro ⟨r, resultEq, zeroIff⟩
    have less : aklCompareValues (fun _ => 0) twoLists 2 (some 2) (some 2) = .ok (-1) := by
      decide +kernel
    rw [less] at resultEq
    cases resultEq
    exact absurd (zeroIff.mpr ⟨compareScalars_self _, compareScalars_self _, trivial⟩) (by decide)

end AkLisp
