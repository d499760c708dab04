import AkLisp.Ordered.Nodes

/-!
# The vendored red-black tree

`RB_INSERT`, `RB_FIND`, `RB_MINMAX`, `RB_NEXT` and `RB_FOREACH` as `RB_GENERATE` writes them,
on the pointers of the tree entries.  A null pointer that is followed and a loop that does
not end within its fuel have no result.  Insertion ends and leaves a red-black tree that
has the new node at its place.
-/

namespace AkLisp

open Ordered Ordered.BinTree Ordered.Path

/-- `RB_HEAD` with the `RB_ENTRY` of every node. -/
abbrev RbHead := Nodes

/-- `RB_ROTATE_LEFT` -/
def rbRotateLeft (head : RbHead) (elm : NodeRef) : Option RbHead := head.rotate .left elm

/-- `RB_ROTATE_RIGHT` -/
def rbRotateRight (head : RbHead) (elm : NodeRef) : Option RbHead := head.rotate .right elm

/-- The rotation to a side. -/
def rbRotate : Side → RbHead → NodeRef → Option RbHead
  | .left => rbRotateLeft
  | .right => rbRotateRight

/-- `RB_SET_BLACKRED` -/
def rbSetBlackred (head : RbHead) (black red : NodeRef) : RbHead :=
  (head.setColor black .black).setColor red .red

/-- The rotations of `RB_INSERT_COLOR` below `gparent`, with the node the loop goes on at.
The parent is the child of `gparent` on the side `s`. -/
def rbInsertTurn (s : Side) (head : RbHead) (elm parent gparent : NodeRef) :
    Option (RbHead × NodeRef) := do
  let (head, elm, parent) ←
    if head.child s.other parent = some elm then do
      let head ← rbRotate s head parent
      some (head, parent, elm)
    else some (head, elm, parent)
  let head := rbSetBlackred head parent gparent
  let head ← rbRotate s.other head gparent
  some (head, elm)

/-- One of the two branches of the loop of `RB_INSERT_COLOR`. -/
def rbInsertFix (s : Side) (head : RbHead) (elm parent gparent : NodeRef) :
    Option (RbHead × NodeRef) :=
  match head.child s.other gparent with
  | some tmp =>
      if head.color tmp = .red then
        some (rbSetBlackred (head.setColor tmp .black) parent gparent, gparent)
      else rbInsertTurn s head elm parent gparent
  | none => rbInsertTurn s head elm parent gparent

/-- The loop of `RB_INSERT_COLOR`. -/
def rbInsertColorLoop : Nat → RbHead → NodeRef → Option RbHead
  | 0, _, _ => none
  | fuel + 1, head, elm =>
      match head.parent elm with
      | none => some head
      | some parent =>
          if head.color parent = .red then do
            let gparent ← head.parent parent
            let s := if head.child .left gparent = some parent then Side.left else Side.right
            let (head, elm) ← rbInsertFix s head elm parent gparent
            rbInsertColorLoop fuel head elm
          else some head

/-- `RB_INSERT_COLOR` -/
def rbInsertColor (fuel : Nat) (head : RbHead) (elm : NodeRef) : Option RbHead := do
  let head ← rbInsertColorLoop fuel head elm
  let root ← head.root
  some (head.setColor root .black)

/-- The loop of `RB_INSERT`: an equal node, or the last node and its comparison. -/
def rbInsertLoop (compare : NodeRef → Int) : Nat → RbHead → Option NodeRef → Option NodeRef →
    Int → Option (Option NodeRef × Option NodeRef × Int)
  | _, _, none, parent, comp => some (none, parent, comp)
  | 0, _, some _, _, _ => none
  | fuel + 1, head, some tmp, _, _ =>
      let comp := compare tmp
      if comp < 0 then rbInsertLoop compare fuel head (head.child .left tmp) (some tmp) comp
      else if 0 < comp then
        rbInsertLoop compare fuel head (head.child .right tmp) (some tmp) comp
      else some (some tmp, some tmp, comp)

/-- `RB_INSERT` links the new node to the node where the search ended, or to the root. -/
def rbLink (parent : Option NodeRef) (comp : Int) (elm : NodeRef) (head : RbHead) : RbHead :=
  match parent with
  | some parent =>
      if comp < 0 then head.setChild .left parent (some elm)
      else head.setChild .right parent (some elm)
  | none => { head with root := some elm }

/-- `RB_INSERT`; `compare` is the comparison of `elm` with a node. -/
def rbInsert (fuel : Nat) (compare : NodeRef → Int) (elm : NodeRef) (head : RbHead) :
    Option (Option NodeRef × RbHead) := do
  let (found, parent, comp) ← rbInsertLoop compare fuel head head.root none 0
  match found with
  | some tmp => some (some tmp, head)
  | none =>
      let head := rbLink parent comp elm (head.newNode elm parent)
      let head ← rbInsertColor fuel head elm
      some (none, head)

/-- The loop of `RB_FIND`. -/
def rbFindLoop (compare : NodeRef → Int) : Nat → RbHead → Option NodeRef →
    Option (Option NodeRef)
  | _, _, none => some none
  | 0, _, some _ => none
  | fuel + 1, head, some tmp =>
      let comp := compare tmp
      if comp < 0 then rbFindLoop compare fuel head (head.child .left tmp)
      else if 0 < comp then rbFindLoop compare fuel head (head.child .right tmp)
      else some (some tmp)

/-- `RB_FIND`; `compare` is the comparison of the key with a node. -/
def rbFind (fuel : Nat) (compare : NodeRef → Int) (head : RbHead) : Option (Option NodeRef) :=
  rbFindLoop compare fuel head head.root

/-- The loop of `RB_MINMAX`. -/
def rbMinmaxLoop (val : Int) : Nat → RbHead → Option NodeRef → Option NodeRef →
    Option (Option NodeRef)
  | _, _, none, parent => some parent
  | 0, _, some _, _ => none
  | fuel + 1, head, some tmp, _ =>
      if val < 0 then rbMinmaxLoop val fuel head (head.child .left tmp) (some tmp)
      else rbMinmaxLoop val fuel head (head.child .right tmp) (some tmp)

/-- `RB_MINMAX` -/
def rbMinmax (fuel : Nat) (head : RbHead) (val : Int) : Option (Option NodeRef) :=
  rbMinmaxLoop val fuel head head.root none

/-- `RB_MIN`, with `RB_NEGINF`. -/
def rbMin (fuel : Nat) (head : RbHead) : Option (Option NodeRef) := rbMinmax fuel head (-1)

/-- `while (RB_LEFT(elm)) elm = RB_LEFT(elm)` -/
def rbLeftmost : Nat → RbHead → NodeRef → Option NodeRef
  | 0, _, _ => none
  | fuel + 1, head, elm =>
      match head.child .left elm with
      | some left => rbLeftmost fuel head left
      | none => some elm

/-- The loop of `RB_NEXT` that goes up as long as `elm` is a right child. -/
def rbClimb : Nat → RbHead → NodeRef → Option NodeRef
  | 0, _, _ => none
  | fuel + 1, head, elm =>
      match head.parent elm with
      | some parent =>
          if head.child .right parent = some elm then rbClimb fuel head parent else some elm
      | none => some elm

/-- `RB_NEXT` -/
def rbNext (fuel : Nat) (head : RbHead) (elm : NodeRef) : Option (Option NodeRef) :=
  match head.child .right elm with
  | some right => (rbLeftmost fuel head right).map some
  | none =>
      match head.parent elm with
      | some parent =>
          if head.child .left parent = some elm then some (some parent)
          else (rbClimb fuel head elm).map head.parent
      | none => (rbClimb fuel head elm).map head.parent

/-- The loop of `RB_FOREACH` with a body that leaves the tree alone. -/
def rbForeachLoop {σ : Type} (fuel : Nat) (body : σ → NodeRef → σ) : Nat → RbHead →
    Option NodeRef → σ → Option σ
  | _, _, none, st => some st
  | 0, _, some _, _ => none
  | rounds + 1, head, some x, st => do
      let st := body st x
      let next ← rbNext fuel head x
      rbForeachLoop fuel body rounds head next st

/-- `RB_FOREACH` -/
def rbForeach {σ : Type} (fuel : Nat) (body : σ → NodeRef → σ) (head : RbHead) (st : σ) :
    Option σ := do
  let first ← rbMin fuel head
  rbForeachLoop fuel body fuel head first st

/-! ### Restoring the colors -/

/-- The red node `elm` may stand under a red one; the rest of the tree is red-black. -/
def Reddened (head : RbHead) (elm : NodeRef) (path : Path NodeRef) (xs : List NodeRef) : Prop :=
  ∃ s a b n, head.Holds (path.plug (branch s .red elm a b)) ∧
    (path.plug (branch s .red elm a b)).elems = xs ∧
    Balanced a .black n ∧ Balanced b .black n ∧ Fits path n

theorem rbRotate_eq (s : Side) (head : RbHead) (elm : NodeRef) :
    rbRotate s head elm = head.rotate s elm := by
  cases s <;> rfl

/-- Both children of the red node, seen from a given side. -/
theorem branch_side (s s' : Side) {x : NodeRef} {a b : BinTree NodeRef} {n : Nat}
    (left : Balanced a .black n) (right : Balanced b .black n) :
    ∃ a' b', branch s' .red x a b = branch s .red x a' b' ∧ Balanced a' .black n ∧
      Balanced b' .black n := by
  by_cases same : s' = s
  · subst same
    exact ⟨a, b, rfl, left, right⟩
  · have other : s' = s.other := by
      cases s <;> cases s' <;> first | rfl | exact absurd rfl same
    subst other
    exact ⟨b, a, branch_other s .red x a b, right, left⟩

namespace Reddened

variable {head : RbHead} {elm parent gparent : NodeRef} {s : Side} {path : Path NodeRef}
  {a b inner sibling uncle : BinTree NodeRef} {n : Nat}

/-- The rotation at the grandparent, for a node on the outer side of its parent. -/
theorem turnOuter
    (holds : head.Holds (path.plug
      (branch s .black gparent (branch s .red parent inner sibling) uncle))) :
    ∃ head', rbRotate s.other (rbSetBlackred head parent gparent) gparent = some head' ∧
      head'.Holds (path.plug
        (branch s .black parent inner (branch s .red gparent sibling uncle))) ∧
      (path.plug (branch s .black parent inner (branch s .red gparent sibling uncle))).elems =
        (path.plug (branch s .black gparent (branch s .red parent inner sibling) uncle)).elems := by
  have parentBlack : (head.setColor parent .black).Holds (path.plug
      (branch s .black gparent (branch s .black parent inner sibling) uncle)) :=
    Nodes.Holds.setColor (⟨s, .black, gparent, uncle⟩ :: path) holds .black
  have gparentRed := parentBlack.setColor path .red
  rw [← branch_other s .red gparent, ← branch_other s .black parent] at gparentRed
  obtain ⟨head', ran, -, rotated⟩ := gparentRed.rotate path
  refine ⟨head', ?_, ?_, ?_⟩
  · rw [rbRotate_eq]
    exact ran
  · rwa [branch_other, branch_other] at rotated
  · apply elems_plug_congr
    exact (elems_rotate s .red .black .black .red parent gparent inner sibling uncle).symm

/-- The rotations leave the red node under a black one. -/
theorem turn {s₁ s₂ : Side} {xs : List NodeRef}
    (holds : head.Holds (path.plug (branch s .black gparent
      (branch s₁ .red parent (branch s₂ .red elm a b) sibling) uncle)))
    (elems : (path.plug (branch s .black gparent
      (branch s₁ .red parent (branch s₂ .red elm a b) sibling) uncle)).elems = xs)
    (left : Balanced a .black n) (right : Balanced b .black n)
    (beside : Balanced sibling .black n) (upper : Balanced uncle .black n)
    (fits : Fits path (n + 1)) :
    ∃ head' elm' path', rbInsertTurn s head elm parent gparent = some (head', elm') ∧
      Reddened head' elm' path' xs ∧ path'.length = path.length + 1 := by
  have fieldsParent := Nodes.Holds.fields (⟨s, .black, gparent, uncle⟩ :: path) holds
  by_cases same : s₁ = s
  · subst same
    have inside : ¬ head.child s₁.other parent = some elm := by
      intro equal
      have mem := top_mem (fieldsParent.2.2.2.2.symm.trans equal)
      have nodup := (nodup_branch.mp (nodup_branch.mp (nodup_plug holds.nodup).1).2.2.1).2.2.2.2
      exact nodup elm ((mem_branch s₂ .red elm elm a b).mpr (Or.inl rfl)) mem
    obtain ⟨head', ran, holds', elems'⟩ := turnOuter holds
    refine ⟨head', elm, ⟨s₁, .black, parent, branch s₁ .red gparent sibling uncle⟩ :: path,
      ?_, ?_, rfl⟩
    · rw [rbInsertTurn, if_neg inside]
      simp [ran]
    · exact ⟨s₂, a, b, n, holds', elems'.trans elems, left, right,
        .black fits (beside.redBranch upper)⟩
  · -- the node is on the inner side and comes up in place of its parent first
    have other : s₁ = s.other := by
      cases s <;> cases s₁ <;> first | rfl | exact absurd rfl same
    subst other
    have outside : head.child s.other parent = some elm := by
      rw [fieldsParent.2.2.2.1, top_branch]
    obtain ⟨a', b', seen, left', right'⟩ := branch_side s s₂ (x := elm) left right
    rw [seen, branch_other s .red parent] at holds elems
    obtain ⟨head₁, ran₁, -, holds₁⟩ :=
      Nodes.Holds.rotate (⟨s, .black, gparent, uncle⟩ :: path) holds
    obtain ⟨head', ran, holds', elems'⟩ := turnOuter holds₁
    have elems₁ : (path.plug (branch s .black gparent
        (branch s .red elm (branch s .red parent sibling a') b') uncle)).elems = xs := by
      rw [← elems]
      exact elems_plug_congr (⟨s, .black, gparent, uncle⟩ :: path)
        (elems_rotate s .red .red .red .red parent elm sibling a' b')
    refine ⟨head', parent, ⟨s, .black, elm, branch s .red gparent b' uncle⟩ :: path,
      ?_, ?_, rfl⟩
    · rw [rbInsertTurn, if_pos outside, rbRotate_eq, ran₁]
      simp [ran]
    · exact ⟨s, sibling, a', n, holds', elems'.trans elems₁, beside, left',
        .black fits (right'.redBranch upper)⟩

/-- The colors are changed below a red uncle, and the grandparent is red. -/
theorem recolor {s₁ s₂ w : Side} {xs : List NodeRef} {u : NodeRef} {c e : BinTree NodeRef}
    (holds : head.Holds (path.plug (branch s .black gparent
      (branch s₁ .red parent (branch s₂ .red elm a b) sibling) (branch w .red u c e))))
    (elems : (path.plug (branch s .black gparent
      (branch s₁ .red parent (branch s₂ .red elm a b) sibling) (branch w .red u c e))).elems = xs)
    (left : Balanced a .black n) (right : Balanced b .black n)
    (beside : Balanced sibling .black n) (leftUncle : Balanced c .black n)
    (rightUncle : Balanced e .black n) (fits : Fits path (n + 1)) :
    Reddened (rbSetBlackred (head.setColor u .black) parent gparent) gparent path xs := by
  have swapped := holds
  rw [← branch_other s] at swapped
  have uncleBlack := Nodes.Holds.setColor
    (⟨s.other, .black, gparent, branch s₁ .red parent (branch s₂ .red elm a b) sibling⟩ :: path)
    swapped .black
  rw [plug_cons, branch_other] at uncleBlack
  have parentBlack := Nodes.Holds.setColor
    (⟨s, .black, gparent, branch w .black u c e⟩ :: path) uncleBlack .black
  have gparentRed := Nodes.Holds.setColor path parentBlack .red
  refine ⟨s, _, _, n + 1, gparentRed, ?_, (left.redBranch right).blackBranch beside,
    leftUncle.blackBranch rightUncle, fits⟩
  rw [← elems]
  apply elems_plug_congr
  simp only [elems_branch]

/-- A round of the loop under a red parent. -/
theorem round {xs : List NodeRef} (reddened : Reddened head elm path xs)
    (red : path.color = some .red) :
    ∃ parent gparent head' elm' path', head.parent elm = some parent ∧
      head.color parent = .red ∧ head.parent parent = some gparent ∧
      rbInsertFix (if head.child .left gparent = some parent then Side.left else Side.right)
        head elm parent gparent = some (head', elm') ∧
      Reddened head' elm' path' xs ∧ path'.length < path.length := by
  obtain ⟨s₂, a, b, n, holds, elems, left, right, fits⟩ := reddened
  cases fits with
  | top => cases red
  | black above sibling => cases red
  | @red path _ s₁ parent sibling above color beside =>
      cases above with
      | top => cases color
      | red above color' beside' => cases color
      | @black path _ s d gparent uncle above upper =>
          have fieldsElm := holds.fields _
          have fieldsParent := Nodes.Holds.fields (⟨s, .black, gparent, uncle⟩ :: path)
            (a := branch s₂ .red elm a b) (s := s₁) holds
          have fieldsGparent := Nodes.Holds.fields path
            (a := branch s₁ .red parent (branch s₂ .red elm a b) sibling) (s := s) holds
          have side : (if head.child .left gparent = some parent then Side.left else Side.right) =
              s := by
            cases s with
            | left => rw [if_pos (fieldsGparent.2.2.2.1.trans (top_branch _ _ _ _ _))]
            | right =>
                rw [if_neg]
                intro equal
                have mem := top_mem (fieldsGparent.2.2.2.2.symm.trans equal)
                have nodup : (path.plug _).elems.Nodup := holds.nodup
                have apart := (nodup_branch.mp (nodup_plug nodup).1).2.2.2.2
                exact apart parent ((mem_branch _ _ _ _ _ _).mpr (Or.inl rfl)) mem
          refine ⟨parent, gparent, ?_⟩
          rw [side, rbInsertFix, fieldsGparent.2.2.2.2]
          cases upper with
          | @red c e u _ leftUncle rightUncle =>
              have fieldsUncle := Nodes.Holds.fields (⟨s.other, .black, gparent,
                branch s₁ .red parent (branch s₂ .red elm a b) sibling⟩ :: path)
                (s := .left) (x := u) (c := .red) (a := c) (b := e) (by
                  rw [plug_cons, branch_other]
                  exact holds)
              refine ⟨_, gparent, path, fieldsElm.2.1, fieldsParent.2.2.1, fieldsParent.2.1, ?_,
                recolor (w := .left) holds elems left right beside leftUncle rightUncle above, ?_⟩
              · simp only [BinTree.top, fieldsUncle.2.2.1, if_true]
              · simp only [List.length_cons]
                omega
          | leaf =>
              obtain ⟨head', elm', path', ran, reddened, length⟩ :=
                turn holds elems left right beside .leaf above
              refine ⟨head', elm', path', fieldsElm.2.1, fieldsParent.2.2.1, fieldsParent.2.1,
                ran, reddened, ?_⟩
              simp only [length, List.length_cons]
              omega
          | @black c e d₁ d₂ u m leftUncle rightUncle =>
              have fieldsUncle := Nodes.Holds.fields (⟨s.other, .black, gparent,
                branch s₁ .red parent (branch s₂ .red elm a b) sibling⟩ :: path)
                (s := .left) (x := u) (c := .black) (a := c) (b := e) (by
                  rw [plug_cons, branch_other]
                  exact holds)
              obtain ⟨head', elm', path', ran, reddened, length⟩ :=
                turn holds elems left right beside (.black leftUncle rightUncle) above
              refine ⟨head', elm', path', fieldsElm.2.1, fieldsParent.2.2.1, fieldsParent.2.1, ?_,
                reddened, ?_⟩
              · simp only [BinTree.top, fieldsUncle.2.2.1, reduceCtorEq, if_false]
                exact ran
              · simp only [length, List.length_cons]
                omega

/-- The loop goes up until the color above the red node is not red. -/
theorem loop {xs : List NodeRef} {fuel : Nat} (reddened : Reddened head elm path xs)
    (enough : path.length < fuel) :
    ∃ head' elm' path', rbInsertColorLoop fuel head elm = some head' ∧
      Reddened head' elm' path' xs ∧ path'.color ≠ some .red := by
  induction fuel generalizing head elm path with
  | zero => omega
  | succ fuel ih =>
      cases path with
      | nil =>
          obtain ⟨s, a, b, n, holds, rest⟩ := reddened
          refine ⟨head, elm, [], ?_, ⟨s, a, b, n, holds, rest⟩, by simp [Path.color]⟩
          rw [rbInsertColorLoop, (holds.fields _).2.1]
          rfl
      | cons f path =>
          cases color : f.color with
          | red =>
              obtain ⟨parent, gparent, head', elm', path', up, red, upper, ran, reddened',
                  shorter⟩ :=
                reddened.round (by rw [Path.color, List.head?_cons, Option.map_some, color])
              obtain ⟨head'', elm'', path'', ran', final⟩ := ih reddened' (by omega)
              refine ⟨head'', elm'', path'', ?_, final⟩
              rw [rbInsertColorLoop, up]
              simp only [red, if_true, upper, Option.bind_eq_bind, Option.bind_some, ran]
              exact ran'
          | black =>
              obtain ⟨s, a, b, n, holds, rest⟩ := reddened
              refine ⟨head, elm, f :: path, ?_, ⟨s, a, b, n, holds, rest⟩,
                by simp [Path.color, color]⟩
              have parentFields := Nodes.Holds.fields path (s := f.side) holds
              rw [rbInsertColorLoop, (holds.fields _).2.1, Nodes.above, List.head?_cons,
                Option.map_some]
              simp only [parentFields.2.2.1, color, reduceCtorEq, if_false]

/-- Restoring the colors ends and gives a red-black tree with the same nodes in order. -/
theorem rbInsertColor {xs : List NodeRef} {fuel : Nat} (reddened : Reddened head elm path xs)
    (enough : path.length < fuel) :
    ∃ head' t, rbInsertColor fuel head elm = some head' ∧ head'.Holds t ∧ RedBlack t ∧
      t.elems = xs := by
  obtain ⟨head₁, elm₁, path₁, ran, ⟨s, a, b, n, holds, elems, left, right, fits⟩, above⟩ :=
    reddened.loop enough
  obtain ⟨t, tEq⟩ : ∃ t, t = path₁.plug (branch s .red elm₁ a b) := ⟨_, rfl⟩
  rw [← tEq] at holds elems
  cases path₁ with
  | nil =>
      rw [plug_nil] at tEq
      subst tEq
      refine ⟨head₁.setColor elm₁ .black, branch s .black elm₁ a b, ?_,
        Nodes.Holds.setColor [] holds .black, ⟨_, left.blackBranch right⟩, ?_⟩
      · rw [AkLisp.rbInsertColor, ran, Option.bind_eq_bind, Option.bind_some,
          show head₁.root = some elm₁ from (Nodes.Holds.fields [] holds).1]
        rfl
      · rw [← elems, elems_color]
  | cons f path₁ =>
      have black : Path.color (f :: path₁) = some .black := by
        cases color : f.color with
        | black => simp [Path.color, color]
        | red => exact absurd (by simp [Path.color, color]) above
      have redBlack : RedBlack t := by
        rw [tEq]
        exact fits.redBlack (left.redBranch right) fun _ => black
      -- the top is black already
      cases t with
      | leaf =>
          have inside : elm₁ ∈ (plug (f :: path₁) (branch s .red elm₁ a b)).elems := by
            rw [elems_plug, List.mem_append, List.mem_append, mem_branch]
            exact Or.inl (Or.inr (Or.inl rfl))
          rw [← tEq] at inside
          cases inside
      | node c l root r =>
          have topBlack : c = .black := by
            obtain ⟨m, balanced⟩ := redBlack
            exact balanced.topColor
          subst topBlack
          refine ⟨head₁.setColor root .black, .node .black l root r, ?_,
            Nodes.Holds.setColor [] (s := .left) holds .black, redBlack, elems⟩
          rw [AkLisp.rbInsertColor, ran, Option.bind_eq_bind, Option.bind_some,
            show head₁.root = some root from
              (Nodes.Holds.fields [] (s := .left) holds).1]
          rfl

end Reddened

end AkLisp
