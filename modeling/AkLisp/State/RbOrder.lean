import AkLisp.Ordered.Intrusive
import AkLisp.State.RbTree

/-!
# Search, insertion and traversal in the vendored tree

A search goes down to the place where the key falls.  It finds the equal node or ends at a
leaf, where `RB_INSERT` links the new node.  `RB_FOREACH` visits the nodes in order.
-/

namespace AkLisp

open Ordered Ordered.BinTree Ordered.Path

/-- The key falls between the nodes in front of a place and those behind it. -/
def Cuts (compare : NodeRef → Int) (path : Path NodeRef) : Prop :=
  (∀ z ∈ path.before, 0 < compare z) ∧ ∀ z ∈ path.behind, compare z < 0

/-- The last comparison tells the side of the last node. -/
def LastSide (comp : Int) (path : Path NodeRef) : Prop :=
  ∀ f ∈ path.head?, comp < 0 ↔ f.side = .left

variable {compare : NodeRef → Int} {head : RbHead} {path : Path NodeRef} {t : BinTree NodeRef}
  {fuel : Nat}

/-- What is on both sides of a node, for a comparison that falls. -/
theorem falls_node {c : Color} {l r : BinTree NodeRef} {x : NodeRef}
    (falls : (path.plug (.node c l x r)).elems.Pairwise fun x y => compare x ≤ 0 → compare y < 0) :
    (compare x ≤ 0 → ∀ z ∈ r.elems, compare z < 0) ∧
      (0 ≤ compare x → ∀ z ∈ l.elems, 0 < compare z) := by
  rw [elems_plug, List.pairwise_append, List.pairwise_append, BinTree.elems, List.pairwise_append,
    List.pairwise_cons] at falls
  obtain ⟨⟨-, ⟨-, ⟨above, -⟩, apart⟩, -⟩, -⟩ := falls
  constructor
  · exact fun low z mem => above z mem low
  · intro high z mem
    have := apart z mem x List.mem_cons_self
    omega

/-- The search finds a node that is equal or ends at a leaf. -/
theorem rbInsertLoop_spec (holds : head.Holds (path.plug t))
    (falls : (path.plug t).elems.Pairwise fun x y => compare x ≤ 0 → compare y < 0)
    (cuts : Cuts compare path) {comp : Int} (side : LastSide comp path)
    (enough : t.height ≤ fuel) :
    (∃ x ∈ t.elems, compare x = 0 ∧
      rbInsertLoop compare fuel head (head.slot path) (Nodes.above path) comp =
        some (some x, some x, 0)) ∨
    ∃ path' comp', path'.plug .leaf = path.plug t ∧ Cuts compare path' ∧ LastSide comp' path' ∧
      path'.length ≤ path.length + t.height ∧
      rbInsertLoop compare fuel head (head.slot path) (Nodes.above path) comp =
        some (none, Nodes.above path', comp') := by
  induction t generalizing path comp fuel with
  | leaf =>
      have here : head.slot path = none := (Nodes.represents_plug.mp holds.represents).2
      refine Or.inr ⟨path, comp, rfl, cuts, side, Nat.le_add_right _ _, ?_⟩
      rw [here, rbInsertLoop]
  | node c l x r ihLeft ihRight =>
      obtain ⟨here, -⟩ := Nodes.Holds.fields _ (s := .left) holds
      obtain ⟨right, left⟩ := falls_node falls
      rw [height] at enough
      obtain ⟨fuel, rfl⟩ : ∃ n, fuel = n + 1 := ⟨fuel - 1, by omega⟩
      rw [here, rbInsertLoop]
      by_cases less : compare x < 0
      · have cuts' : Cuts compare (⟨.left, c, x, r⟩ :: path) := by
          refine ⟨cuts.1, ?_⟩
          intro z mem
          simp only [behind_cons, List.cons_append, List.mem_cons, List.mem_append] at mem
          rcases mem with rfl | mem | mem
          · exact less
          · exact right (Int.le_of_lt less) z mem
          · exact cuts.2 z mem
        have holds' : head.Holds (plug (⟨.left, c, x, r⟩ :: path) l) := holds
        have side' : LastSide (compare x) (⟨.left, c, x, r⟩ :: path) := by simp [LastSide, less]
        have enough' : l.height ≤ fuel := by omega
        rw [if_pos less]
        rcases ihLeft holds' falls cuts' side' enough' with
          ⟨y, mem, zero, ran⟩ | ⟨path', comp', whole, cuts', side', length, ran⟩
        · exact Or.inl ⟨y, by simp [BinTree.elems, mem], zero, ran⟩
        · refine Or.inr ⟨path', comp', whole, cuts', side', ?_, ran⟩
          rw [List.length_cons] at length
          rw [height]
          omega
      · rw [if_neg less]
        by_cases greater : 0 < compare x
        · have cuts' : Cuts compare (⟨.right, c, x, l⟩ :: path) := by
            refine ⟨?_, cuts.2⟩
            intro z mem
            simp only [before_cons, List.mem_append, List.mem_singleton] at mem
            rcases mem with (mem | mem) | rfl
            · exact cuts.1 z mem
            · exact left (Int.le_of_lt greater) z mem
            · exact greater
          have holds' : head.Holds (plug (⟨.right, c, x, l⟩ :: path) r) := holds
          have side' : LastSide (compare x) (⟨.right, c, x, l⟩ :: path) := by
            simp [LastSide, less]
          have enough' : r.height ≤ fuel := by omega
          rw [if_pos greater]
          rcases ihRight holds' falls cuts' side' enough' with
            ⟨y, mem, zero, ran⟩ | ⟨path', comp', whole, cuts', side', length, ran⟩
          · exact Or.inl ⟨y, by simp [BinTree.elems, mem], zero, ran⟩
          · refine Or.inr ⟨path', comp', whole, cuts', side', ?_, ran⟩
            rw [List.length_cons] at length
            rw [height]
            omega
        · have zero : compare x = 0 := by omega
          refine Or.inl ⟨x, by simp [BinTree.elems], zero, ?_⟩
          rw [if_neg greater, zero]

/-- `RB_FIND` goes the way of `RB_INSERT`. -/
theorem rbFindLoop_eq (compare : NodeRef → Int) (fuel : Nat) (head : RbHead)
    (tmp parent : Option NodeRef) (comp : Int) :
    rbFindLoop compare fuel head tmp =
      (rbInsertLoop compare fuel head tmp parent comp).map Prod.fst := by
  induction fuel generalizing tmp parent comp with
  | zero =>
      cases tmp with
      | none => rfl
      | some tmp => rfl
  | succ fuel ih =>
      cases tmp with
      | none => rfl
      | some tmp =>
          rw [rbFindLoop, rbInsertLoop]
          by_cases less : compare tmp < 0
          · rw [if_pos less, if_pos less]
            exact ih _ _ _
          · rw [if_neg less, if_neg less]
            by_cases greater : 0 < compare tmp
            · rw [if_pos greater, if_pos greater]
              exact ih _ _ _
            · rw [if_neg greater, if_neg greater]
              rfl

/-- A place that a key falls at, in a whole tree. -/
theorem Cuts.splits (cuts : Cuts compare path) :
    SplitsAt compare (path.plug .leaf).elems path.before [] path.behind where
  parts := by simp [elems_plug, BinTree.elems]
  above := cuts.1
  equal := by simp
  below := cuts.2
  single := by simp

/-- The search from the root. -/
theorem rbInsertLoop_root {before here behind : List NodeRef} (holds : head.Holds t)
    (splits : SplitsAt compare t.elems before here behind) (enough : t.height ≤ fuel) :
    (∃ x, here = [x] ∧ rbInsertLoop compare fuel head head.root none 0 =
        some (some x, some x, 0)) ∨
      here = [] ∧ ∃ path comp, path.plug .leaf = t ∧ path.before = before ∧
        path.behind = behind ∧ LastSide comp path ∧ path.length ≤ t.height ∧
        rbInsertLoop compare fuel head head.root none 0 =
          some (none, Nodes.above path, comp) := by
  have top : head.Holds (plug [] t) := holds
  have cuts : Cuts compare [] := ⟨by simp [Path.before], by simp [Path.behind]⟩
  have side : LastSide 0 [] := by simp [LastSide]
  rcases rbInsertLoop_spec top splits.falls cuts side enough with
    ⟨x, mem, zero, ran⟩ | ⟨path, comp, whole, cuts, side, length, ran⟩
  · left
    refine ⟨x, ?_, ran⟩
    rw [splits.parts, List.mem_append, List.mem_append] at mem
    rcases mem with (mem | mem) | mem
    · have := splits.above x mem
      omega
    · rcases splits.here_cases with rfl | ⟨y, rfl⟩
      · cases mem
      · rw [List.mem_singleton.mp mem]
    · have := splits.below x mem
      omega
  · right
    have place := cuts.splits
    rw [whole, plug_nil] at place
    obtain ⟨sameBefore, sameHere, sameBehind⟩ := place.unique splits
    refine ⟨sameHere.symm, path, comp, whole, sameBefore, sameBehind, side, ?_, ran⟩
    simpa using length

/-- `RB_FIND` finds the node that is equal, if there is one. -/
theorem rbFind_eq {before here behind : List NodeRef} (holds : head.Holds t)
    (splits : SplitsAt compare t.elems before here behind) (enough : t.height ≤ fuel) :
    rbFind fuel compare head = some here.head? := by
  rw [rbFind, rbFindLoop_eq compare fuel head head.root none 0]
  rcases rbInsertLoop_root holds splits enough with
    ⟨x, rfl, ran⟩ | ⟨rfl, path, comp, -, -, -, -, -, ran⟩
  · rw [ran]
    rfl
  · rw [ran]
    rfl

/-- `RB_INSERT` gives the node that is equal and changes nothing. -/
theorem rbInsert_old {before behind : List NodeRef} {y : NodeRef} (holds : head.Holds t)
    (splits : SplitsAt compare t.elems before [y] behind) (enough : t.height ≤ fuel)
    (x : NodeRef) : rbInsert fuel compare x head = some (some y, head) := by
  rcases rbInsertLoop_root holds splits enough with ⟨z, same, ran⟩ | ⟨empty, -⟩
  · cases same
    rw [rbInsert, ran]
    rfl
  · cases empty

/-- The new node is linked where the search ended. -/
theorem rbLink_eq {comp : Int} (side : LastSide comp path) (elm : NodeRef) (head : RbHead) :
    rbLink (Nodes.above path) comp elm head = head.setSlot path (some elm) := by
  cases path with
  | nil => rfl
  | cons f path =>
      have last := side f rfl
      rw [Nodes.above, List.head?_cons, Option.map_some, rbLink, Nodes.setSlot]
      cases place : f.side with
      | left =>
          rw [place] at last
          rw [if_pos (last.mpr rfl)]
      | right =>
          rw [place] at last
          rw [if_neg fun less => by cases last.mp less]

/-- `RB_INSERT` ends, and the tree is red-black and has the new node at its place. -/
theorem rbInsert_new {before behind : List NodeRef} {x : NodeRef} (holds : head.Holds t)
    (redBlack : RedBlack t) (splits : SplitsAt compare t.elems before [] behind)
    (fresh : x ∉ t.elems) (enough : t.height < fuel) :
    ∃ head' t', rbInsert fuel compare x head = some (none, head') ∧ head'.Holds t' ∧
      RedBlack t' ∧ t'.elems = before ++ x :: behind := by
  rcases rbInsertLoop_root holds splits (Nat.le_of_lt enough) with
    ⟨y, same, -⟩ | ⟨-, path, comp, rfl, rfl, rfl, side, length, ran⟩
  · cases same
  · obtain ⟨m, balanced⟩ := redBlack
    obtain ⟨c, n, bottom, fits, -⟩ := balanced.unplug
    cases bottom
    have linked := holds.newNode _ (s := .left) fresh
    have reddened : Reddened ((head.newNode x (Nodes.above path)).setSlot path (some x)) x path
        (path.before ++ x :: path.behind) := by
      refine ⟨.left, .leaf, .leaf, 0, linked, ?_, .leaf, .leaf, fits⟩
      simp [elems_plug, branch, BinTree.elems]
    have shorter : path.length < fuel := by omega
    obtain ⟨head', t', colored, holds', redBlack', elems⟩ := reddened.rbInsertColor shorter
    refine ⟨head', t', ?_, holds', redBlack', elems⟩
    rw [rbInsert, ran]
    simp only [Option.bind_eq_bind, Option.bind_some, rbLink_eq side, colored]

/-- `RB_INSERT` ends without following a null pointer.  It gives the equal node, if there is
one, and changes nothing; otherwise the tree is a red-black tree again, of logarithmic
height, with the new node at its place. -/
theorem rbInsert_redBlack {before here behind : List NodeRef} {x : NodeRef}
    (holds : head.Holds t) (redBlack : RedBlack t)
    (splits : SplitsAt compare t.elems before here behind) (fresh : here = [] → x ∉ t.elems)
    (enough : t.height < fuel) :
    ∃ head' t', rbInsert fuel compare x head = some (here.head?, head') ∧ head'.Holds t' ∧
      RedBlack t' ∧ t'.height ≤ 2 * Nat.log 2 (t'.elems.length + 1) ∧
      t'.elems = (if here = [] then before ++ x :: behind else t.elems) ∧
      (here ≠ [] → head' = head) := by
  rcases splits.here_cases with rfl | ⟨y, rfl⟩
  · obtain ⟨head', t', ran, holds', redBlack', elems⟩ :=
      rbInsert_new holds redBlack splits (fresh rfl) enough
    exact ⟨head', t', ran, holds', redBlack', redBlack'.height_le, elems, by simp⟩
  · exact ⟨head, t, rbInsert_old holds splits (Nat.le_of_lt enough) x, holds, redBlack,
      redBlack.height_le, by simp, fun _ => rfl⟩

/-- A tree in which the new node 4 comes to have a red parent and a red uncle. -/
def eightTree : BinTree NodeRef :=
  .node .black
    (.node .red (.node .black .leaf 1 .leaf) 2
      (.node .black (.node .red .leaf 5 .leaf) 7 (.node .red .leaf 8 .leaf)))
    11 (.node .black .leaf 14 (.node .red .leaf 15 .leaf))

/-- `eightTree` in memory. -/
def eightNodes : RbHead where
  child
    | .left, 11 => some 2
    | .right, 11 => some 14
    | .left, 2 => some 1
    | .right, 2 => some 7
    | .left, 7 => some 5
    | .right, 7 => some 8
    | .right, 14 => some 15
    | _, _ => none
  parent
    | 1 => some 2
    | 2 => some 11
    | 5 => some 7
    | 7 => some 2
    | 8 => some 7
    | 14 => some 11
    | 15 => some 14
    | _ => none
  color x := if x ∈ [2, 5, 8, 15] then .red else .black
  root := some 11
  bound := 16

theorem eightNodes_holds : eightNodes.Holds eightTree where
  represents := by simp [Nodes.Represents, eightTree, eightNodes]
  nodup := by decide
  below := by decide

theorem eightTree_redBlack : RedBlack eightTree := by
  have five : Balanced (.node .black (.node .red .leaf 5 .leaf) 7 (.node .red .leaf 8 .leaf))
      .black 1 := .black (.red .leaf .leaf) (.red .leaf .leaf)
  exact ⟨2, .black (.red (.black .leaf .leaf) five) (.black .leaf (.red .leaf .leaf))⟩

/-- Under 4 the colors are changed, and the rotations at 2 and 11 bring 7 to the root.  A
node that is equal to 7 is not linked. -/
theorem rbInsert_redBlack_turns :
    (∃ head' t', rbInsert 5 (fun y => 4 - (y : Int)) 4 eightNodes = some (none, head') ∧
      head'.Holds t' ∧ RedBlack t' ∧ t'.height ≤ 6 ∧
      t'.elems = [1, 2, 4, 5, 7, 8, 11, 14, 15] ∧ head'.root = some 7 ∧
      head'.parent 11 = some 7 ∧ head'.color 11 = .red ∧ head'.parent 4 = some 5 ∧
      head'.color 5 = .black) ∧
    rbInsert 5 (fun y => 7 - (y : Int)) 16 eightNodes = some (some 7, eightNodes) := by
  constructor
  · rcases @rbInsert_redBlack (fun y => 4 - (y : Int)) eightNodes eightTree 5 [1, 2] []
        [5, 7, 8, 11, 14, 15] 4 eightNodes_holds eightTree_redBlack
        ⟨rfl, by decide, by decide, by decide, by decide⟩ (fun _ => by decide) (by decide) with
      ⟨head', t', ran, holds, redBlack, high, elems, -⟩
    have fields : ((rbInsert 5 (fun y => 4 - (y : Int)) 4 eightNodes).map fun result =>
        (result.2.root, result.2.parent 11, result.2.color 11, result.2.parent 4,
          result.2.color 5)) = some (some 7, some 7, .red, some 5, .black) := by decide
    rw [ran] at fields
    simp only [Option.map_some, Option.some.injEq, Prod.mk.injEq] at fields
    rw [elems] at high
    exact ⟨head', t', ran, holds, redBlack, high.trans (by decide), elems, fields⟩
  · rcases @rbInsert_redBlack (fun y => 7 - (y : Int)) eightNodes eightTree 5 [1, 2, 5] [7]
        [8, 11, 14, 15] 16 eightNodes_holds eightTree_redBlack
        ⟨rfl, by decide, by decide, by decide, by decide⟩ (by simp) (by decide) with
      ⟨head', t', ran, -, -, -, -, same⟩
    rw [same (by simp)] at ran
    exact ran

/-! ### Traversal -/

/-- `RB_MIN` goes down to the left. -/
theorem rbMinmaxLoop_spec (holds : head.Holds (path.plug t)) (enough : t.height ≤ fuel)
    (parent : Option NodeRef) :
    rbMinmaxLoop (-1) fuel head (head.slot path) parent = some (t.elems.head?.or parent) := by
  induction t generalizing path parent fuel with
  | leaf =>
      have here : head.slot path = none := (Nodes.represents_plug.mp holds.represents).2
      rw [here, rbMinmaxLoop]
      rfl
  | node c l x r ihLeft =>
      obtain ⟨here, -⟩ := Nodes.Holds.fields _ (s := .left) holds
      rw [height] at enough
      obtain ⟨fuel, rfl⟩ : ∃ n, fuel = n + 1 := ⟨fuel - 1, by omega⟩
      rw [here, rbMinmaxLoop, if_pos (by decide)]
      have holds' : head.Holds (plug (⟨.left, c, x, r⟩ :: path) l) := holds
      have enough' : l.height ≤ fuel := by omega
      have down := ihLeft holds' enough' (some x)
      rw [Nodes.slot] at down
      rw [down, BinTree.elems, List.head?_append, Option.or_assoc]
      rfl

theorem rbMin_eq (holds : head.Holds t) (enough : t.height ≤ fuel) :
    rbMin fuel head = some t.elems.head? := by
  have top : head.Holds (plug [] t) := holds
  have ran := rbMinmaxLoop_spec top enough none
  rwa [Option.or_none] at ran

variable {c : Color} {l r : BinTree NodeRef} {x : NodeRef}

theorem rbLeftmost_eq (holds : head.Holds (path.plug (.node c l x r)))
    (enough : (BinTree.node c l x r).height ≤ fuel) :
    rbLeftmost fuel head x = (BinTree.node c l x r).elems.head? := by
  induction l generalizing path c x r fuel with
  | leaf =>
      obtain ⟨-, -, -, left, -⟩ := Nodes.Holds.fields _ (s := .left) holds
      rw [height] at enough
      obtain ⟨fuel, rfl⟩ : ∃ n, fuel = n + 1 := ⟨fuel - 1, by omega⟩
      rw [rbLeftmost, left]
      rfl
  | node d a y b ih =>
      obtain ⟨-, -, -, left, -⟩ := Nodes.Holds.fields _ (s := .left) holds
      rw [height] at enough
      obtain ⟨fuel, rfl⟩ : ∃ n, fuel = n + 1 := ⟨fuel - 1, by omega⟩
      rw [rbLeftmost, left]
      have holds' : head.Holds (plug (⟨.left, c, x, r⟩ :: path) (.node d a y b)) := holds
      simp only [BinTree.top]
      rw [ih holds' (by omega)]
      simp [BinTree.elems, List.head?_append]

/-- The loop of `RB_NEXT` ends under the node that follows the subtree. -/
theorem rbClimb_spec (holds : head.Holds (path.plug (.node c l x r)))
    (enough : path.length < fuel) :
    ∃ y, rbClimb fuel head x = some y ∧ head.parent y = path.behind.head? := by
  induction path generalizing c l x r fuel with
  | nil =>
      obtain ⟨-, up, -⟩ := Nodes.Holds.fields [] (s := .left) holds
      obtain ⟨fuel, rfl⟩ : ∃ n, fuel = n + 1 := ⟨fuel - 1, by omega⟩
      refine ⟨x, ?_, up⟩
      rw [rbClimb, up]
      rfl
  | cons f path ih =>
      obtain ⟨s, d, p, sibling⟩ := f
      obtain ⟨-, up, -⟩ := Nodes.Holds.fields _ (s := .left) holds
      have fieldsParent := Nodes.Holds.fields path (s := s) holds
      rw [List.length_cons] at enough
      obtain ⟨fuel, rfl⟩ : ∃ n, fuel = n + 1 := ⟨fuel - 1, by omega⟩
      rw [Nodes.above, List.head?_cons, Option.map_some] at up
      rw [rbClimb, up]
      cases s with
      | left =>
          refine ⟨x, if_neg ?_, up⟩
          intro equal
          have mem := top_mem (fieldsParent.2.2.2.2.symm.trans equal)
          have nodup : (Path.plug path _).elems.Nodup := holds.nodup
          have apart := (nodup_branch.mp (nodup_plug nodup).1).2.2.2.2
          exact apart x (by simp [BinTree.elems]) mem
      | right =>
          have holds' : head.Holds (Path.plug path (.node d sibling p (.node c l x r))) := holds
          obtain ⟨y, ran, parent⟩ := ih holds' (show path.length < fuel by omega)
          refine ⟨y, ?_, parent⟩
          simp only [show head.child .right p = some x from fieldsParent.2.2.2.1, if_true]
          exact ran

/-- `RB_NEXT` gives the node that follows. -/
theorem rbNext_eq (holds : head.Holds (path.plug (.node c l x r)))
    (enough : (path.plug (.node c l x r)).height < fuel) :
    rbNext fuel head x = some (r.elems ++ path.behind).head? := by
  obtain ⟨-, up, -, -, right⟩ := Nodes.Holds.fields _ (s := .left) holds
  have high := height_le path (.node c l x r)
  rw [height] at high
  rw [Side.other] at right
  cases r with
  | node d a y b =>
      have holds' : head.Holds (plug (⟨.right, c, x, l⟩ :: path) (.node d a y b)) := holds
      rw [rbNext, right]
      simp only [BinTree.top]
      rw [rbLeftmost_eq holds' (by omega)]
      simp [BinTree.elems, List.head?_append]
  | leaf =>
      obtain ⟨y, climbed, parent⟩ := rbClimb_spec holds (show path.length < fuel by omega)
      rw [rbNext, right]
      simp only [BinTree.top]
      rw [climbed, Option.map_some, parent, up]
      cases path with
      | nil => rfl
      | cons f path =>
          obtain ⟨s, e, p, sibling⟩ := f
          rw [Nodes.above, List.head?_cons, Option.map_some]
          cases s with
          | left => exact ite_self _
          | right =>
              have fieldsParent := Nodes.Holds.fields path (s := .right) holds
              have nodup : (Path.plug path _).elems.Nodup := holds.nodup
              have apart := (nodup_branch.mp (nodup_plug nodup).1).2.2.2.2
              refine if_neg fun equal => apart x (by simp [BinTree.elems]) ?_
              exact top_mem (fieldsParent.2.2.2.2.symm.trans equal)

/-- `RB_NEXT` goes along the nodes in order. -/
theorem rbNext_at {done todo : List NodeRef} (holds : head.Holds t)
    (parts : t.elems = done ++ x :: todo) (enough : t.height < fuel) :
    rbNext fuel head x = some todo.head? := by
  have mem : x ∈ t.elems := by
    rw [parts]
    simp
  obtain ⟨above, c, l, r, focus⟩ := exists_focus mem []
  rw [plug_nil] at focus
  subst focus
  rw [rbNext_eq holds enough]
  have nodup := holds.nodup
  rw [elems_plug, BinTree.elems, List.append_assoc, List.append_assoc, List.cons_append,
    ← List.append_assoc] at parts nodup
  have notBefore : x ∉ before above ++ l.elems := fun mem =>
    (List.nodup_append.mp nodup).2.2 x mem x List.mem_cons_self rfl
  have notBehind : x ∉ r.elems ++ behind above :=
    (List.nodup_cons.mp (List.nodup_append.mp nodup).2.1).1
  rw [((List.append_cons_inj_of_notMem notBefore notBehind).mp parts).2.2]

theorem rbForeachLoop_eq {σ : Type} (body : σ → NodeRef → σ) {done todo : List NodeRef}
    (holds : head.Holds t) (parts : t.elems = done ++ todo) (enough : t.height < fuel)
    {rounds : Nat} (count : todo.length ≤ rounds) (st : σ) :
    rbForeachLoop fuel body rounds head todo.head? st = some (todo.foldl body st) := by
  induction todo generalizing done rounds st with
  | nil => rw [List.head?_nil, rbForeachLoop, List.foldl_nil]
  | cons x todo ih =>
      rw [List.length_cons] at count
      obtain ⟨rounds, rfl⟩ : ∃ n, rounds = n + 1 := ⟨rounds - 1, by omega⟩
      rw [List.head?_cons, rbForeachLoop, rbNext_at holds parts enough, Option.bind_eq_bind,
        Option.bind_some, List.foldl_cons]
      have parts' : t.elems = (done ++ [x]) ++ todo := by simp [parts]
      exact ih parts' (by omega) _

/-- `RB_FOREACH` visits every node once, in order. -/
theorem rbForeach_eq {σ : Type} (holds : head.Holds t) (enough : t.elems.length < fuel)
    (body : σ → NodeRef → σ) (st : σ) :
    rbForeach fuel body head st = some (t.elems.foldl body st) := by
  have high := t.height_le_length
  rw [rbForeach, rbMin_eq holds (by omega), Option.bind_eq_bind, Option.bind_some]
  have whole : t.elems = [] ++ t.elems := rfl
  exact rbForeachLoop_eq body holds whole (by omega) (by omega) st

end AkLisp
