import Mathlib.Algebra.Group.Nat.Defs
import Mathlib.Data.List.Nodup
import Mathlib.Data.Nat.Log

/-!
# Red-black trees and their contexts

A tree is split at a subtree into the subtree and the path above it.  A rotation or a
change of color happens at such a place.  `Balanced` is the red-black invariant of a tree,
`Fits` that of a path into which a tree of a given black height is put.  Left and right
are the two values of `Side`, so that what holds on one side is said once.
-/

namespace AkLisp.Ordered

universe u

inductive Color where
  | black
  | red
  deriving DecidableEq

inductive Side where
  | left
  | right
  deriving DecidableEq

namespace Side

def other : Side → Side
  | left => right
  | right => left

@[simp] theorem other_other (s : Side) : s.other.other = s := by cases s <;> rfl

@[simp] theorem other_ne (s : Side) : s.other ≠ s := by cases s <;> simp [other]

@[simp] theorem ne_other (s : Side) : s ≠ s.other := by cases s <;> simp [other]

variable {α : Type u}

/-- `xs` on this side of `ys`. -/
def join : Side → List α → List α → List α
  | left, xs, ys => xs ++ ys
  | right, xs, ys => ys ++ xs

theorem join_assoc (s : Side) (xs ys zs : List α) :
    s.join (s.join xs ys) zs = s.join xs (s.join ys zs) := by
  cases s <;> simp [join]

@[simp] theorem mem_join (s : Side) {x : α} {xs ys : List α} :
    x ∈ s.join xs ys ↔ x ∈ xs ∨ x ∈ ys := by
  cases s <;> simp [join, or_comm]

@[simp] theorem join_nil (s : Side) (xs : List α) : s.join xs [] = xs := by
  cases s <;> simp [join]

end Side

/-- A binary tree with colors. -/
inductive BinTree (ε : Type u) where
  | leaf
  | node (color : Color) (left : BinTree ε) (x : ε) (right : BinTree ε)

namespace BinTree

variable {ε : Type u}

/-- A node with `inner` on the given side and `outer` on the other one. -/
def branch : Side → Color → ε → BinTree ε → BinTree ε → BinTree ε
  | .left, c, x, inner, outer => node c inner x outer
  | .right, c, x, inner, outer => node c outer x inner

/-- The nodes in order. -/
def elems : BinTree ε → List ε
  | leaf => []
  | node _ l x r => l.elems ++ x :: r.elems

/-- The node at the top. -/
def top : BinTree ε → Option ε
  | leaf => none
  | node _ _ x _ => some x

/-- The color of the top; a leaf is black. -/
def topColor : BinTree ε → Color
  | leaf => .black
  | node c _ _ _ => c

/-- The number of nodes on the longest way down. -/
def height : BinTree ε → Nat
  | leaf => 0
  | node _ l _ r => max l.height r.height + 1

theorem height_le_length (t : BinTree ε) : t.height ≤ t.elems.length := by
  induction t with
  | leaf => exact Nat.le_refl 0
  | node c l x r left right =>
      simp only [height, elems, List.length_append, List.length_cons]
      omega

theorem branch_other (s : Side) (c : Color) (x : ε) (a b : BinTree ε) :
    branch s.other c x a b = branch s c x b a := by
  cases s <;> rfl

theorem elems_branch (s : Side) (c : Color) (x : ε) (a b : BinTree ε) :
    (branch s c x a b).elems = s.join a.elems (s.join [x] b.elems) := by
  cases s <;> simp [branch, elems, Side.join]

@[simp] theorem top_branch (s : Side) (c : Color) (x : ε) (a b : BinTree ε) :
    (branch s c x a b).top = some x := by
  cases s <;> rfl

@[simp] theorem topColor_branch (s : Side) (c : Color) (x : ε) (a b : BinTree ε) :
    (branch s c x a b).topColor = c := by
  cases s <;> rfl

theorem mem_branch (s : Side) (c : Color) (x y : ε) (a b : BinTree ε) :
    y ∈ (branch s c x a b).elems ↔ y = x ∨ y ∈ a.elems ∨ y ∈ b.elems := by
  rw [elems_branch, Side.mem_join, Side.mem_join, List.mem_singleton]
  exact or_left_comm

theorem nodup_branch {s : Side} {c : Color} {x : ε} {a b : BinTree ε} :
    (branch s c x a b).elems.Nodup ↔ x ∉ a.elems ∧ x ∉ b.elems ∧ a.elems.Nodup ∧
      b.elems.Nodup ∧ ∀ z ∈ a.elems, z ∉ b.elems := by
  cases s with
  | left => simp only [branch, elems]; grind
  | right => simp only [branch, elems]; grind

theorem top_mem {t : BinTree ε} {x : ε} (top : t.top = some x) : x ∈ t.elems := by
  cases t with
  | leaf => cases top
  | node c l y r =>
      cases top
      simp [elems]

/-- A rotation moves the middle subtree and keeps the order. -/
theorem elems_rotate (s : Side) (c d c' d' : Color) (x y : ε) (a b e : BinTree ε) :
    (branch s d y (branch s c x a b) e).elems =
      (branch s c' x a (branch s d' y b e)).elems := by
  simp only [elems_branch, Side.join_assoc]

theorem elems_color (s : Side) (c c' : Color) (x : ε) (a b : BinTree ε) :
    (branch s c x a b).elems = (branch s c' x a b).elems := by
  simp only [elems_branch]

end BinTree

/-- One step of the path from the top: the node that was left, on which side, and the
subtree on its other side. -/
structure Frame (ε : Type u) where
  side : Side
  color : Color
  node : ε
  sibling : BinTree ε

/-- The path from a subtree to the top. -/
abbrev Path (ε : Type u) := List (Frame ε)

namespace Path

open BinTree

variable {ε : Type u}

/-- The whole tree with the subtree in its place. -/
def plug : Path ε → BinTree ε → BinTree ε
  | [], t => t
  | f :: path, t => plug path (branch f.side f.color f.node t f.sibling)

/-- The nodes in front of the place. -/
def before : Path ε → List ε
  | [] => []
  | f :: path =>
      match f.side with
      | .left => before path
      | .right => before path ++ f.sibling.elems ++ [f.node]

/-- The nodes behind the place. -/
def behind : Path ε → List ε
  | [] => []
  | f :: path =>
      match f.side with
      | .left => f.node :: f.sibling.elems ++ behind path
      | .right => behind path

@[simp] theorem plug_nil (t : BinTree ε) : plug [] t = t := rfl

@[simp] theorem plug_cons (f : Frame ε) (path : Path ε) (t : BinTree ε) :
    plug (f :: path) t = plug path (branch f.side f.color f.node t f.sibling) := rfl

theorem before_cons (f : Frame ε) (path : Path ε) :
    before (f :: path) =
      match f.side with
      | .left => before path
      | .right => before path ++ f.sibling.elems ++ [f.node] := rfl

theorem behind_cons (f : Frame ε) (path : Path ε) :
    behind (f :: path) =
      match f.side with
      | .left => f.node :: f.sibling.elems ++ behind path
      | .right => behind path := rfl

theorem elems_plug (path : Path ε) (t : BinTree ε) :
    (plug path t).elems = before path ++ t.elems ++ behind path := by
  induction path generalizing t with
  | nil => simp [before, behind]
  | cons f path ih =>
      obtain ⟨s, c, x, sibling⟩ := f
      rw [plug_cons, ih]
      cases s <;> simp [branch, BinTree.elems, before, behind]

/-- Trees with the same nodes in order can replace each other. -/
theorem elems_plug_congr (path : Path ε) {t t' : BinTree ε} (same : t'.elems = t.elems) :
    (plug path t').elems = (plug path t).elems := by
  rw [elems_plug, elems_plug, same]

/-- Every node of a tree is at the top of a subtree. -/
theorem exists_focus {t : BinTree ε} {x : ε} (mem : x ∈ t.elems) (path : Path ε) :
    ∃ above c l r, plug path t = plug above (.node c l x r) := by
  induction t generalizing path with
  | leaf => cases mem
  | node c l y r ihLeft ihRight =>
      rw [BinTree.elems, List.mem_append, List.mem_cons] at mem
      rcases mem with inLeft | rfl | inRight
      · exact ihLeft inLeft (⟨.left, c, y, r⟩ :: path)
      · exact ⟨path, c, l, r, rfl⟩
      · exact ihRight inRight (⟨.right, c, y, l⟩ :: path)

theorem height_le (path : Path ε) (t : BinTree ε) :
    path.length + t.height ≤ (plug path t).height := by
  induction path generalizing t with
  | nil => simp
  | cons f path ih =>
      have up := ih (branch f.side f.color f.node t f.sibling)
      have inner : t.height + 1 ≤ (branch f.side f.color f.node t f.sibling).height := by
        cases f.side with
        | left => exact Nat.succ_le_succ (Nat.le_max_left _ _)
        | right => exact Nat.succ_le_succ (Nat.le_max_right _ _)
      rw [plug_cons, List.length_cons]
      omega

end Path

/-! ### The red-black invariant -/

/-- The color of the top, and how many black nodes are on every way down.  A red node has
no red child. -/
inductive Balanced {ε : Type u} : BinTree ε → Color → Nat → Prop where
  | leaf : Balanced .leaf .black 0
  | red {l r : BinTree ε} {x : ε} {n : Nat} (left : Balanced l .black n)
      (right : Balanced r .black n) : Balanced (.node .red l x r) .red n
  | black {l r : BinTree ε} {c d : Color} {x : ε} {n : Nat} (left : Balanced l c n)
      (right : Balanced r d n) : Balanced (.node .black l x r) .black (n + 1)

namespace Balanced

open BinTree

variable {ε : Type u} {s : Side} {x : ε} {a b t : BinTree ε} {c d : Color} {n : Nat}

theorem redBranch (inner : Balanced a .black n) (outer : Balanced b .black n) :
    Balanced (branch s .red x a b) .red n := by
  cases s with
  | left => exact .red inner outer
  | right => exact .red outer inner

theorem blackBranch (inner : Balanced a c n) (outer : Balanced b d n) :
    Balanced (branch s .black x a b) .black (n + 1) := by
  cases s with
  | left => exact .black inner outer
  | right => exact .black outer inner

theorem topColor (balanced : Balanced t c n) : t.topColor = c := by
  cases balanced <;> rfl

theorem of_redBranch (balanced : Balanced (branch s .red x a b) c n) :
    c = .red ∧ Balanced a .black n ∧ Balanced b .black n := by
  cases s with
  | left =>
      cases balanced with
      | red inner outer => exact ⟨rfl, inner, outer⟩
  | right =>
      cases balanced with
      | red outer inner => exact ⟨rfl, inner, outer⟩

theorem of_blackBranch (balanced : Balanced (branch s .black x a b) c n) :
    c = .black ∧ ∃ d e m, n = m + 1 ∧ Balanced a d m ∧ Balanced b e m := by
  cases s with
  | left =>
      cases balanced with
      | black inner outer => exact ⟨rfl, _, _, _, rfl, inner, outer⟩
  | right =>
      cases balanced with
      | black outer inner => exact ⟨rfl, _, _, _, rfl, inner, outer⟩

/-- Between two black nodes on a way down there is one red node at most. -/
theorem height_le (balanced : Balanced t c n) :
    t.height ≤ 2 * n + if c = .red then 1 else 0 := by
  induction balanced with
  | leaf => simp [height]
  | red _ _ left right =>
      simp only [height, reduceCtorEq, if_false, if_true] at left right ⊢
      omega
  | @black l r c d _ _ _ _ left right =>
      have up : ∀ e : Color, (if e = .red then 1 else 0) ≤ 1 := by
        intro e
        split <;> omega
      have := up c
      have := up d
      simp only [height, reduceCtorEq, if_false]
      omega

theorem two_pow_le (balanced : Balanced t c n) : 2 ^ n ≤ t.elems.length + 1 := by
  induction balanced with
  | leaf => simp [elems]
  | red _ _ left right =>
      simp only [elems, List.length_append, List.length_cons]
      omega
  | black _ _ left right =>
      rw [Nat.pow_succ]
      simp only [elems, List.length_append, List.length_cons]
      omega

end Balanced

/-- The invariant at the top: it is black. -/
def RedBlack {ε : Type u} (t : BinTree ε) : Prop := ∃ n, Balanced t .black n

theorem RedBlack.height_le {ε : Type u} {t : BinTree ε} (redBlack : RedBlack t) :
    t.height ≤ 2 * Nat.log 2 (t.elems.length + 1) := by
  obtain ⟨n, balanced⟩ := redBlack
  have high := balanced.height_le
  have log := Nat.le_log_of_pow_le (by omega) balanced.two_pow_le
  simp only [reduceCtorEq, if_false] at high
  omega

namespace Path

variable {ε : Type u}

/-- The color above the place. -/
def color (path : Path ε) : Option Color := path.head?.map Frame.color

end Path

/-- A black tree of the black height `n` can stand here, and a red one if the color above
is black. -/
inductive Fits {ε : Type u} : Path ε → Nat → Prop where
  | top {n : Nat} : Fits [] n
  | red {path : Path ε} {n : Nat} {s : Side} {x : ε} {sibling : BinTree ε} (above : Fits path n)
      (color : Path.color path = some .black) (balanced : Balanced sibling .black n) :
      Fits (⟨s, .red, x, sibling⟩ :: path) n
  | black {path : Path ε} {n : Nat} {s : Side} {c : Color} {x : ε} {sibling : BinTree ε}
      (above : Fits path (n + 1)) (balanced : Balanced sibling c n) :
      Fits (⟨s, .black, x, sibling⟩ :: path) n

namespace Fits

open BinTree Ordered.Path

variable {ε : Type u} {path : Path ε} {t : BinTree ε} {c : Color} {n : Nat}

theorem redBlack (fits : Fits path n) (balanced : Balanced t c n)
    (color : c = .red → Path.color path = some .black) : RedBlack (plug path t) := by
  induction fits generalizing t c with
  | top =>
      cases c with
      | black => exact ⟨_, balanced⟩
      | red => cases color rfl
  | red above top sibling ih =>
      cases c with
      | black => exact ih (balanced.redBranch sibling) fun _ => top
      | red => cases color rfl
  | black above sibling ih => exact ih (balanced.blackBranch sibling) (by simp)

end Fits

/-- A subtree of a red-black tree and the path to it. -/
theorem Balanced.unplug {ε : Type u} {path : Path ε} {t : BinTree ε} {m : Nat}
    (balanced : Balanced (path.plug t) .black m) :
    ∃ c n, Balanced t c n ∧ Fits path n ∧ (c = .red → path.color = some .black) := by
  induction path generalizing t with
  | nil => exact ⟨.black, m, balanced, .top, by simp⟩
  | cons f path ih =>
      obtain ⟨s, c, x, sibling⟩ := f
      obtain ⟨d, n, inner, fits, color⟩ := ih balanced
      cases c with
      | red =>
          obtain ⟨rfl, left, right⟩ := inner.of_redBranch
          exact ⟨.black, n, left, .red fits (color rfl) right, by simp⟩
      | black =>
          obtain ⟨rfl, d, e, k, rfl, left, right⟩ := inner.of_blackBranch
          exact ⟨d, k, left, .black fits right, fun _ => rfl⟩

end AkLisp.Ordered
