import AkLisp.Ordered.Set

/-!
# Trees whose nodes are linked once

The links of a node belong to the node, so that it can be in a tree once.  Such a tree
acts as an ordered set as long as every node that is inserted is new.
-/

namespace AkLisp.Ordered

universe u

variable {ε : Type u}

namespace SplitsAt

variable {compare : ε → Int} {xs before here behind : List ε}

theorem congr {compare' : ε → Int} (splits : SplitsAt compare xs before here behind)
    (same : ∀ x ∈ xs, compare' x = compare x) : SplitsAt compare' xs before here behind := by
  have parts := splits.parts
  refine ⟨parts, ?_, ?_, ?_, splits.single⟩
  · intro x mem
    rw [same x (by simp [parts, mem])]
    exact splits.above x mem
  · intro x mem
    rw [same x (by simp [parts, mem])]
    exact splits.equal x mem
  · intro x mem
    rw [same x (by simp [parts, mem])]
    exact splits.below x mem

theorem here_cases (splits : SplitsAt compare xs before here behind) :
    here = [] ∨ ∃ x, here = [x] := by
  have single := splits.single
  cases here with
  | nil => exact Or.inl rfl
  | cons x here =>
      have others : here = [] := by
        apply List.length_eq_zero_iff.mp
        rw [List.length_cons] at single
        omega
      rw [others]
      exact Or.inr ⟨x, rfl⟩

/-- A key falls at one place only. -/
theorem unique {before' here' behind' : List ε} (splits : SplitsAt compare xs before here behind)
    (splits' : SplitsAt compare xs before' here' behind') :
    before = before' ∧ here = here' ∧ behind = behind' := by
  have rest : here ++ behind = here' ++ behind' :=
    splits.dropWhile.2.symm.trans splits'.dropWhile.2
  have heads : here.head? = here'.head? := by
    rw [← splits.head, ← splits'.head, rest]
  have same : here = here' := by
    rcases splits.here_cases with rfl | ⟨x, rfl⟩
    · rcases splits'.here_cases with rfl | ⟨y, rfl⟩
      · rfl
      · cases heads
    · rcases splits'.here_cases with rfl | ⟨y, rfl⟩
      · cases heads
      · cases heads
        rfl
  refine ⟨splits.dropWhile.1.symm.trans splits'.dropWhile.1, same, ?_⟩
  rw [same] at rest
  exact List.append_cancel_left rest

/-- The comparison falls along the nodes and is 0 on one of them at most. -/
theorem falls (splits : SplitsAt compare xs before here behind) :
    xs.Pairwise fun x y => compare x ≤ 0 → compare y < 0 := by
  rw [splits.parts, List.pairwise_append, List.pairwise_append]
  have front : ∀ x ∈ before, ∀ y : ε, compare x ≤ 0 → compare y < 0 := by
    intro x mem y low
    have := splits.above x mem
    omega
  refine ⟨⟨?_, ?_, fun x mem y _ => front x mem y⟩, ?_, fun x _ y mem _ => splits.below y mem⟩
  · exact List.pairwise_of_forall_mem_list fun x mem y _ => front x mem y
  · rcases splits.here_cases with rfl | ⟨x, rfl⟩
    · exact List.Pairwise.nil
    · exact List.pairwise_singleton _ x
  · exact List.pairwise_of_forall_mem_list fun x _ y mem _ => splits.below y mem

end SplitsAt

/-- The operations act at the place where the key falls if the node is new.  `wf` are the
trees that they build. -/
structure SetImpl.Intrusive (impl : SetImpl ε) (wf : impl.Tree → Prop) : Prop where
  wf_empty : wf impl.empty
  elems_empty : impl.elems impl.empty = []
  nodup : ∀ {t}, wf t → (impl.elems t).Nodup
  find_eq : ∀ {compare t before here behind}, wf t →
    SplitsAt compare (impl.elems t) before here behind → impl.find compare t = here.head?
  insert_new : ∀ {compare t before behind} {x : ε}, wf t → x ∉ impl.elems t →
    SplitsAt compare (impl.elems t) before [] behind →
      wf (impl.insert compare x t).2 ∧
        impl.elems (impl.insert compare x t).2 = before ++ x :: behind

/-- A tree of new nodes finds and inserts as the list of its nodes does. -/
theorem SetImpl.Intrusive.find_list {impl : SetImpl ε} {wf : impl.Tree → Prop}
    (intrusive : impl.Intrusive wf) {compare : ε → Int} {t : impl.Tree}
    {before here behind : List ε} (good : wf t)
    (splits : SplitsAt compare (impl.elems t) before here behind) :
    impl.find compare t = (listImpl ε).find compare (impl.elems t) := by
  rw [intrusive.find_eq good splits, listImpl_find splits]

theorem SetImpl.Intrusive.insert_list {impl : SetImpl ε} {wf : impl.Tree → Prop}
    (intrusive : impl.Intrusive wf) {compare : ε → Int} {t : impl.Tree}
    {before behind : List ε} {x : ε} (good : wf t) (fresh : x ∉ impl.elems t)
    (splits : SplitsAt compare (impl.elems t) before [] behind) :
    wf (impl.insert compare x t).2 ∧
      impl.elems (impl.insert compare x t).2 =
        ((listImpl ε).insert compare x (impl.elems t)).2 := by
  obtain ⟨good', elems⟩ := intrusive.insert_new good fresh splits
  refine ⟨good', elems.trans ?_⟩
  rw [listImpl_insert x splits]
  rfl

end AkLisp.Ordered
