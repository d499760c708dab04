import AkLisp.Ordered.BinTree
import Mathlib.Logic.Function.Basic

/-!
# Trees of linked nodes

A memory of nodes with two children, a parent and a color, and a pointer to the root.
`Holds` says that the pointers are those of a tree.  It is read off at any place of the
tree, and the three writes of a balanced tree (a color, a rotation and a new node in place
of a leaf) change the tree there and nowhere else.
-/

namespace AkLisp.Ordered

open BinTree Ordered.Path

/-- Address of a node.  A null pointer is `none : Option NodeRef`. -/
abbrev NodeRef := Nat

/-- The fields of the nodes and the root.  Nodes from `bound` on were never linked. -/
structure Nodes where
  child : Side → NodeRef → Option NodeRef
  parent : NodeRef → Option NodeRef
  color : NodeRef → Color
  root : Option NodeRef
  bound : Nat

namespace Nodes

def empty : Nodes := ⟨fun _ _ => none, fun _ => none, fun _ => .black, none, 0⟩

def setChild (m : Nodes) (s : Side) (a : NodeRef) (p : Option NodeRef) : Nodes :=
  { m with child := Function.update m.child s (Function.update (m.child s) a p) }

def setParent (m : Nodes) (a : NodeRef) (p : Option NodeRef) : Nodes :=
  { m with parent := Function.update m.parent a p }

def setColor (m : Nodes) (a : NodeRef) (c : Color) : Nodes :=
  { m with color := Function.update m.color a c }

/-- Write the parent of a node through a pointer that may be null. -/
def setParent? (m : Nodes) : Option NodeRef → Option NodeRef → Nodes
  | none, _ => m
  | some a, p => m.setParent a p

/-- Write the pointer that leads from a parent to `a`; without a parent it is the root. -/
def replaceChild (m : Nodes) (a : NodeRef) (p : Option NodeRef) : Option NodeRef → Nodes
  | some parent =>
      if m.child .left parent = some a then m.setChild .left parent p
      else m.setChild .right parent p
  | none => { m with root := p }

/-- The child on the other side comes up and `elm` goes down to the side `s`.  There has
to be such a child. -/
def rotate (m : Nodes) (s : Side) (elm : NodeRef) : Option Nodes := do
  let tmp ← m.child s.other elm
  let inner := m.child s tmp
  let m := (m.setChild s.other elm inner).setParent? inner (some elm)
  let m := m.setParent tmp (m.parent elm)
  let m := m.replaceChild elm (some tmp) (m.parent elm)
  let m := m.setChild s tmp (some elm)
  some (m.setParent elm (some tmp))

/-- A red node without children whose parent is `p`. -/
def newNode (m : Nodes) (a : NodeRef) (p : Option NodeRef) : Nodes where
  child s := Function.update (m.child s) a none
  parent := Function.update m.parent a p
  color := Function.update m.color a .red
  root := m.root
  bound := max m.bound (a + 1)

theorem setChild_child (m : Nodes) (s s' : Side) (a b : NodeRef) (p : Option NodeRef) :
    (m.setChild s a p).child s' b = if s' = s ∧ b = a then p else m.child s' b := by
  by_cases side : s' = s
  · subst side
    simp [setChild, Function.update_apply]
  · simp [setChild, side]

@[simp] theorem setChild_parent (m : Nodes) (s : Side) (a : NodeRef) (p : Option NodeRef) :
    (m.setChild s a p).parent = m.parent := rfl

@[simp] theorem setChild_color (m : Nodes) (s : Side) (a : NodeRef) (p : Option NodeRef) :
    (m.setChild s a p).color = m.color := rfl

@[simp] theorem setChild_root (m : Nodes) (s : Side) (a : NodeRef) (p : Option NodeRef) :
    (m.setChild s a p).root = m.root := rfl

@[simp] theorem setChild_bound (m : Nodes) (s : Side) (a : NodeRef) (p : Option NodeRef) :
    (m.setChild s a p).bound = m.bound := rfl

@[simp] theorem setParent_child (m : Nodes) (a : NodeRef) (p : Option NodeRef) :
    (m.setParent a p).child = m.child := rfl

theorem setParent_parent (m : Nodes) (a b : NodeRef) (p : Option NodeRef) :
    (m.setParent a p).parent b = if b = a then p else m.parent b := by
  simp [setParent, Function.update_apply]

@[simp] theorem setParent_color (m : Nodes) (a : NodeRef) (p : Option NodeRef) :
    (m.setParent a p).color = m.color := rfl

@[simp] theorem setParent_root (m : Nodes) (a : NodeRef) (p : Option NodeRef) :
    (m.setParent a p).root = m.root := rfl

@[simp] theorem setParent_bound (m : Nodes) (a : NodeRef) (p : Option NodeRef) :
    (m.setParent a p).bound = m.bound := rfl

@[simp] theorem setParent?_child (m : Nodes) (q p : Option NodeRef) :
    (m.setParent? q p).child = m.child := by
  cases q <;> rfl

theorem setParent?_parent (m : Nodes) (q p : Option NodeRef) (b : NodeRef) :
    (m.setParent? q p).parent b = if q = some b then p else m.parent b := by
  cases q with
  | none => simp [setParent?]
  | some a => simp [setParent?, setParent_parent, eq_comm]

@[simp] theorem setParent?_color (m : Nodes) (q p : Option NodeRef) :
    (m.setParent? q p).color = m.color := by
  cases q <;> rfl

@[simp] theorem setParent?_root (m : Nodes) (q p : Option NodeRef) :
    (m.setParent? q p).root = m.root := by
  cases q <;> rfl

@[simp] theorem setParent?_bound (m : Nodes) (q p : Option NodeRef) :
    (m.setParent? q p).bound = m.bound := by
  cases q <;> rfl

/-! ### The tree in the memory -/

/-- From the pointer `q` on the nodes form the tree; the parent of its top is `p`. -/
def Represents (m : Nodes) : Option NodeRef → BinTree NodeRef → Option NodeRef → Prop
  | _, .leaf, q => q = none
  | p, .node c l x r, q => q = some x ∧ m.parent x = p ∧ m.color x = c ∧
      Represents m (some x) l (m.child .left x) ∧ Represents m (some x) r (m.child .right x)

theorem represents_branch {m : Nodes} {p q : Option NodeRef} {s : Side} {c : Color} {x : NodeRef}
    {a b : BinTree NodeRef} :
    m.Represents p (branch s c x a b) q ↔ q = some x ∧ m.parent x = p ∧ m.color x = c ∧
      m.Represents (some x) a (m.child s x) ∧ m.Represents (some x) b (m.child s.other x) := by
  cases s with
  | left => exact Iff.rfl
  | right =>
      simp only [branch, Represents, Side.other]
      rw [and_comm (a := m.Represents (some x) b _)]

namespace Represents

variable {m m' : Nodes} {p p' q : Option NodeRef} {t : BinTree NodeRef}

theorem eq_top (represents : m.Represents p t q) : q = t.top := by
  cases t with
  | leaf => exact represents
  | node c l x r => exact represents.1

/-- A tree reads the fields of its own nodes only. -/
theorem congr (represents : m.Represents p t q)
    (child : ∀ z ∈ t.elems, ∀ s, m'.child s z = m.child s z)
    (parent : ∀ z ∈ t.elems, m'.parent z = m.parent z)
    (color : ∀ z ∈ t.elems, m'.color z = m.color z) : m'.Represents p t q := by
  induction t generalizing p q with
  | leaf => exact represents
  | node c l x r ihLeft ihRight =>
      obtain ⟨here, up, same, left, right⟩ := represents
      have memLeft : ∀ z ∈ l.elems, z ∈ (BinTree.node c l x r).elems := by
        intro z mem
        simp [BinTree.elems, mem]
      have memRight : ∀ z ∈ r.elems, z ∈ (BinTree.node c l x r).elems := by
        intro z mem
        simp [BinTree.elems, mem]
      have memX : x ∈ (BinTree.node c l x r).elems := by simp [BinTree.elems]
      refine ⟨here, (parent x memX).trans up, (color x memX).trans same, ?_, ?_⟩
      · rw [child x memX]
        exact ihLeft left (fun z mem => child z (memLeft z mem))
          (fun z mem => parent z (memLeft z mem)) fun z mem => color z (memLeft z mem)
      · rw [child x memX]
        exact ihRight right (fun z mem => child z (memRight z mem))
          (fun z mem => parent z (memRight z mem)) fun z mem => color z (memRight z mem)

/-- A tree that is moved under another parent. -/
theorem reparent (represents : m.Represents p t q) (nodup : t.elems.Nodup)
    (child : ∀ z ∈ t.elems, ∀ s, m'.child s z = m.child s z)
    (parent : ∀ z ∈ t.elems, m'.parent z = if t.top = some z then p' else m.parent z)
    (color : ∀ z ∈ t.elems, m'.color z = m.color z) : m'.Represents p' t q := by
  cases t with
  | leaf => exact represents
  | node c l x r =>
      obtain ⟨here, up, same, left, right⟩ := represents
      rw [BinTree.elems, List.nodup_append, List.nodup_cons] at nodup
      obtain ⟨-, ⟨notRight, -⟩, apart⟩ := nodup
      have memLeft : ∀ z ∈ l.elems, z ∈ (BinTree.node c l x r).elems := by
        intro z mem
        simp [BinTree.elems, mem]
      have memRight : ∀ z ∈ r.elems, z ∈ (BinTree.node c l x r).elems := by
        intro z mem
        simp [BinTree.elems, mem]
      have memX : x ∈ (BinTree.node c l x r).elems := by simp [BinTree.elems]
      have inner : ∀ z ∈ (BinTree.node c l x r).elems, z ≠ x → m'.parent z = m.parent z := by
        intro z mem different
        rw [parent z mem, if_neg]
        exact fun equal => different (Option.some.inj equal).symm
      refine ⟨here, ?_, (color x memX).trans same, ?_, ?_⟩
      · rw [parent x memX]
        exact if_pos rfl
      · rw [child x memX]
        apply left.congr (fun z mem => child z (memLeft z mem)) _
          fun z mem => color z (memLeft z mem)
        intro z mem
        exact inner z (memLeft z mem) (apart z mem x List.mem_cons_self)
      · rw [child x memX]
        apply right.congr (fun z mem => child z (memRight z mem)) _
          fun z mem => color z (memRight z mem)
        intro z mem
        exact inner z (memRight z mem) fun equal => notRight (equal ▸ mem)

end Represents

/-- The field that leads to a place; the root has none. -/
def hole (path : Path NodeRef) : Option (Side × NodeRef) :=
  path.head?.map fun f => (f.side, f.node)

/-- The node above a place. -/
def above (path : Path NodeRef) : Option NodeRef := path.head?.map Frame.node

/-- The pointer that leads to a place. -/
def slot (m : Nodes) : Path NodeRef → Option NodeRef
  | [] => m.root
  | f :: _ => m.child f.side f.node

/-- The nodes above a place and beside it. -/
def Around (m : Nodes) : Path NodeRef → Prop
  | [] => True
  | f :: path => m.slot path = some f.node ∧ m.parent f.node = above path ∧
      m.color f.node = f.color ∧
      m.Represents (some f.node) f.sibling (m.child f.side.other f.node) ∧ m.Around path

theorem represents_plug {m : Nodes} {path : Path NodeRef} {t : BinTree NodeRef} :
    m.Represents none (path.plug t) m.root ↔
      m.Around path ∧ m.Represents (above path) t (m.slot path) := by
  induction path generalizing t with
  | nil => exact ⟨fun represents => ⟨trivial, represents⟩, And.right⟩
  | cons f path ih =>
      rw [plug_cons, ih, represents_branch, Around]
      constructor
      · rintro ⟨around, here, up, color, inner, sibling⟩
        exact ⟨⟨here, up, color, sibling, around⟩, inner⟩
      · rintro ⟨⟨here, up, color, sibling, around⟩, inner⟩
        exact ⟨around, here, up, color, inner, sibling⟩

end Nodes

/-- The nodes of a path and of the trees beside it. -/
def Path.nodes (path : Path NodeRef) : List NodeRef := path.before ++ path.behind

theorem Path.mem_nodes_cons {f : Frame NodeRef} {path : Path NodeRef} {z : NodeRef} :
    z ∈ nodes (f :: path) ↔ z = f.node ∨ z ∈ f.sibling.elems ∨ z ∈ path.nodes := by
  simp only [nodes, before_cons, behind_cons]
  cases f.side with
  | left => grind
  | right => grind

/-- The nodes of a tree without repetition are those of a subtree and those around it. -/
theorem Path.nodup_plug {path : Path NodeRef} {t : BinTree NodeRef}
    (nodup : (path.plug t).elems.Nodup) :
    t.elems.Nodup ∧ path.nodes.Nodup ∧ ∀ z ∈ t.elems, z ∉ path.nodes := by
  rw [elems_plug] at nodup
  unfold nodes
  grind

theorem Path.nodup_cons {f : Frame NodeRef} {path : Path NodeRef}
    (nodup : (nodes (f :: path)).Nodup) :
    path.nodes.Nodup ∧ f.node ∉ path.nodes ∧ f.node ∉ f.sibling.elems ∧
      ∀ z ∈ f.sibling.elems, z ∉ path.nodes := by
  simp only [nodes, before_cons, behind_cons] at nodup ⊢
  cases side : f.side with
  | left =>
      simp only [side] at nodup
      grind
  | right =>
      simp only [side] at nodup
      grind

namespace Nodes

/-- Write the field that leads to a place. -/
def setSlot (m : Nodes) : Path NodeRef → Option NodeRef → Nodes
  | [], p => { m with root := p }
  | f :: _, p => m.setChild f.side f.node p

theorem setSlot_child (m : Nodes) (path : Path NodeRef) (p : Option NodeRef) (s : Side)
    (z : NodeRef) :
    (m.setSlot path p).child s z = if hole path = some (s, z) then p else m.child s z := by
  cases path with
  | nil => simp [setSlot, hole]
  | cons f path =>
      rw [setSlot, setChild_child]
      simp [hole, eq_comm]

@[simp] theorem setSlot_parent (m : Nodes) (path : Path NodeRef) (p : Option NodeRef) :
    (m.setSlot path p).parent = m.parent := by
  cases path <;> rfl

@[simp] theorem setSlot_color (m : Nodes) (path : Path NodeRef) (p : Option NodeRef) :
    (m.setSlot path p).color = m.color := by
  cases path <;> rfl

@[simp] theorem setSlot_bound (m : Nodes) (path : Path NodeRef) (p : Option NodeRef) :
    (m.setSlot path p).bound = m.bound := by
  cases path <;> rfl

theorem setSlot_root {path : Path NodeRef} (inside : path ≠ []) (m : Nodes)
    (p : Option NodeRef) : (m.setSlot path p).root = m.root := by
  cases path with
  | nil => exact absurd rfl inside
  | cons f path => rfl

theorem setSlot_slot (m : Nodes) (path : Path NodeRef) (p : Option NodeRef) :
    (m.setSlot path p).slot path = p := by
  cases path with
  | nil => rfl
  | cons f path =>
      rw [slot, setSlot_child]
      exact if_pos rfl

/-- The pointer to a place reads one field of a node above it. -/
theorem slot_congr {m m' : Nodes} {path : Path NodeRef} (root : m'.root = m.root)
    (child : ∀ z ∈ path.nodes, ∀ s, m'.child s z = m.child s z) :
    m'.slot path = m.slot path := by
  cases path with
  | nil => exact root
  | cons f path => exact child f.node (mem_nodes_cons.mpr (Or.inl rfl)) f.side

theorem hole_mem {path : Path NodeRef} {s : Side} {z : NodeRef} (here : hole path = some (s, z)) :
    z ∈ path.nodes := by
  cases path with
  | nil => cases here
  | cons f path =>
      cases here
      exact mem_nodes_cons.mpr (Or.inl rfl)

/-- A path is kept when its nodes are, but for the field that leads to the place. -/
theorem Around.congr {m m' : Nodes} {path : Path NodeRef} (around : m.Around path)
    (nodup : path.nodes.Nodup)
    (child : ∀ z ∈ path.nodes, ∀ s, hole path ≠ some (s, z) → m'.child s z = m.child s z)
    (parent : ∀ z ∈ path.nodes, m'.parent z = m.parent z)
    (color : ∀ z ∈ path.nodes, m'.color z = m.color z)
    (root : path ≠ [] → m'.root = m.root) : m'.Around path := by
  induction path with
  | nil => trivial
  | cons f path ih =>
      obtain ⟨here, up, same, sibling, around⟩ := around
      obtain ⟨nodupPath, notPath, notSibling, -⟩ := nodup_cons nodup
      have memNode : f.node ∈ nodes (f :: path) := mem_nodes_cons.mpr (Or.inl rfl)
      have inner : ∀ z ∈ nodes (f :: path), z ≠ f.node → ∀ s, m'.child s z = m.child s z := by
        intro z mem different s
        apply child z mem s
        intro equal
        cases equal
        exact different rfl
      have memPath : ∀ z ∈ nodes path, z ∈ nodes (f :: path) := fun z mem =>
        mem_nodes_cons.mpr (Or.inr (Or.inr mem))
      have memSibling : ∀ z ∈ f.sibling.elems, z ∈ nodes (f :: path) := fun z mem =>
        mem_nodes_cons.mpr (Or.inr (Or.inl mem))
      have innerPath : ∀ z ∈ nodes path, ∀ s, m'.child s z = m.child s z := fun z mem =>
        inner z (memPath z mem) fun equal => notPath (equal ▸ mem)
      have innerSibling : ∀ z ∈ f.sibling.elems, ∀ s, m'.child s z = m.child s z := fun z mem =>
        inner z (memSibling z mem) fun equal => notSibling (equal ▸ mem)
      have otherSide : m'.child f.side.other f.node = m.child f.side.other f.node := by
        apply child f.node memNode
        simp [hole]
      refine ⟨?_, ?_, ?_, ?_, ?_⟩
      · rw [slot_congr (root (by simp)) innerPath]
        exact here
      · rw [parent f.node memNode]
        exact up
      · rw [color f.node memNode]
        exact same
      · rw [otherSide]
        exact sibling.congr innerSibling (fun z mem => parent z (memSibling z mem))
          fun z mem => color z (memSibling z mem)
      · exact ih around nodupPath (fun z mem s _ => innerPath z mem s)
          (fun z mem => parent z (memPath z mem)) (fun z mem => color z (memPath z mem))
          fun _ => root (by simp)

/-- The parent of a node finds the field that leads to it. -/
theorem Around.replaceChild {m : Nodes} {path : Path NodeRef} {a : NodeRef}
    (around : m.Around path) (here : m.slot path = some a) (notMem : a ∉ path.nodes)
    (p : Option NodeRef) : m.replaceChild a p (above path) = m.setSlot path p := by
  cases path with
  | nil => rfl
  | cons f path =>
      obtain ⟨s, c, x, sibling⟩ := f
      rw [slot] at here
      rw [above, List.head?_cons, Option.map_some, Nodes.replaceChild, setSlot]
      cases s with
      | left => rw [if_pos here]
      | right =>
          rw [if_neg]
          intro left
          have top := around.2.2.2.1.eq_top
          rw [Side.other, left] at top
          exact notMem (mem_nodes_cons.mpr (Or.inr (Or.inl (top_mem top.symm))))

/-- The memory holds this tree. -/
structure Holds (m : Nodes) (t : BinTree NodeRef) : Prop where
  represents : m.Represents none t m.root
  nodup : t.elems.Nodup
  below : ∀ x ∈ t.elems, x < m.bound

namespace Holds

variable {m : Nodes} (path : Path NodeRef) {s : Side} {c : Color} {x : NodeRef}
  {a b : BinTree NodeRef}

/-- The fields of a node of the tree. -/
theorem fields (holds : m.Holds (path.plug (branch s c x a b))) :
    m.slot path = some x ∧ m.parent x = above path ∧ m.color x = c ∧ m.child s x = a.top ∧
      m.child s.other x = b.top := by
  obtain ⟨-, represents⟩ := represents_plug.mp holds.represents
  obtain ⟨here, up, color, inner, outer⟩ := represents_branch.mp represents
  exact ⟨here, up, color, inner.eq_top, outer.eq_top⟩

/-- Another color. -/
theorem setColor (holds : m.Holds (path.plug (branch s c x a b))) (c' : Color) :
    (m.setColor x c').Holds (path.plug (branch s c' x a b)) := by
  obtain ⟨around, represents⟩ := represents_plug.mp holds.represents
  obtain ⟨here, up, color, inner, outer⟩ := represents_branch.mp represents
  obtain ⟨nodup, nodupPath, apart⟩ := nodup_plug holds.nodup
  obtain ⟨notInner, notOuter, -⟩ := nodup_branch.mp nodup
  have notPath := apart x ((mem_branch s c x x a b).mpr (Or.inl rfl))
  have others : ∀ z, z ≠ x → (m.setColor x c').color z = m.color z := fun z different =>
    Function.update_of_ne different _ _
  have elems : (path.plug (branch s c' x a b)).elems = (path.plug (branch s c x a b)).elems :=
    elems_plug_congr path (elems_color s c' c x a b)
  refine ⟨represents_plug.mpr ⟨?_, represents_branch.mpr ⟨here, up, ?_, ?_, ?_⟩⟩, ?_, ?_⟩
  · refine around.congr nodupPath (fun _ _ _ _ => rfl) (fun _ _ => rfl) ?_ fun _ => rfl
    exact fun z mem => others z fun equal => notPath (equal ▸ mem)
  · exact Function.update_self x c' m.color
  · refine inner.congr (fun _ _ _ => rfl) (fun _ _ => rfl) ?_
    exact fun z mem => others z fun equal => notInner (equal ▸ mem)
  · refine outer.congr (fun _ _ _ => rfl) (fun _ _ => rfl) ?_
    exact fun z mem => others z fun equal => notOuter (equal ▸ mem)
  · rw [elems]
    exact holds.nodup
  · rw [elems]
    exact holds.below

end Holds

/-- The fields after a rotation at `x`, whose child `y` comes up; `inner` is the subtree
that moves from `y` to `x`. -/
structure Rotated (m m' : Nodes) (path : Path NodeRef) (s : Side) (x y : NodeRef)
    (inner : Option NodeRef) : Prop where
  child : ∀ s' z, m'.child s' z = if s' = s ∧ z = y then some x
    else if hole path = some (s', z) then some y
    else if s' = s.other ∧ z = x then inner else m.child s' z
  parent : ∀ z, m'.parent z = if z = x then some y else if z = y then above path
    else if inner = some z then some x else m.parent z
  color : m'.color = m.color
  bound : m'.bound = m.bound
  root : path ≠ [] → m'.root = m.root
  slot : y ∉ path.nodes → m'.slot path = some y

/-- A rotation writes the fields of the two nodes, the parent of the subtree that moves and
the field that leads to the place. -/
theorem Around.rotate {m : Nodes} {path : Path NodeRef} {s : Side} {x y : NodeRef}
    {inner : Option NodeRef} (around : m.Around path) (nodup : path.nodes.Nodup)
    (here : m.slot path = some x) (up : m.parent x = above path)
    (down : m.child s.other x = some y) (innerEq : m.child s y = inner)
    (xNotPath : x ∉ path.nodes) (yNotPath : y ∉ path.nodes) (apart : x ≠ y)
    (notInner : ∀ z, inner = some z → z ≠ x ∧ z ∉ path.nodes) :
    ∃ m', m.rotate s x = some m' ∧ Rotated m m' path s x y inner := by
  obtain ⟨m₁, m₁Eq⟩ : ∃ m₁, m₁ = (m.setChild s.other x inner).setParent? inner (some x) :=
    ⟨_, rfl⟩
  obtain ⟨m₂, m₂Eq⟩ : ∃ m₂, m₂ = m₁.setParent y (above path) := ⟨_, rfl⟩
  have parent₁ : ∀ z, m₁.parent z = if inner = some z then some x else m.parent z := by
    intro z
    rw [m₁Eq, setParent?_parent, setChild_parent]
  have upX₁ : m₁.parent x = above path := by
    rw [parent₁, if_neg fun same => (notInner x same).1 rfl, up]
  have parent₂ : ∀ z, m₂.parent z = if z = y then above path else m₁.parent z := by
    intro z
    rw [m₂Eq, setParent_parent]
  have child₂ : ∀ s' z, m₂.child s' z =
      if s' = s.other ∧ z = x then inner else m.child s' z := by
    intro s' z
    rw [m₂Eq, setParent_child, m₁Eq, setParent?_child, setChild_child]
  have color₂ : m₂.color = m.color := by
    rw [m₂Eq, setParent_color, m₁Eq, setParent?_color, setChild_color]
  have root₂ : m₂.root = m.root := by
    rw [m₂Eq, setParent_root, m₁Eq, setParent?_root, setChild_root]
  have bound₂ : m₂.bound = m.bound := by
    rw [m₂Eq, setParent_bound, m₁Eq, setParent?_bound, setChild_bound]
  have pathChild₂ : ∀ z ∈ path.nodes, ∀ s', m₂.child s' z = m.child s' z := by
    intro z mem s'
    rw [child₂, if_neg]
    exact fun same => xNotPath (same.2 ▸ mem)
  have around₂ : m₂.Around path := by
    refine around.congr nodup (fun z mem s' _ => pathChild₂ z mem s') ?_
      (fun z _ => congrFun color₂ z) fun _ => root₂
    intro z mem
    rw [parent₂, if_neg fun same : z = y => yNotPath (same ▸ mem), parent₁,
      if_neg fun same => (notInner z same).2 mem]
  have here₂ : m₂.slot path = some x := (slot_congr root₂ pathChild₂).trans here
  have replaced := around₂.replaceChild here₂ xNotPath (some y)
  refine ⟨((m₂.setSlot path (some y)).setChild s y (some x)).setParent x (some y), ?_, ?_⟩
  · rw [Nodes.rotate, down, Option.bind_eq_bind, Option.bind_some, innerEq]
    simp only [← m₁Eq, upX₁, ← m₂Eq]
    rw [parent₂, if_neg apart, upX₁, replaced]
  · constructor
    · intro s' z
      rw [setParent_child, setChild_child, setSlot_child, child₂]
    · intro z
      rw [setParent_parent, setChild_parent, setSlot_parent, parent₂, parent₁]
    · rw [setParent_color, setChild_color, setSlot_color, color₂]
    · rw [setParent_bound, setChild_bound, setSlot_bound, bound₂]
    · intro inside
      rw [setParent_root, setChild_root, setSlot_root inside, root₂]
    · intro yNotPath
      refine (slot_congr ?_ ?_).trans (setSlot_slot m₂ path (some y))
      · rw [setParent_root, setChild_root]
      · intro z mem s'
        rw [setParent_child, setChild_child,
          if_neg fun same : s' = s ∧ z = y => yNotPath (same.2 ▸ mem)]

namespace Rotated

variable {m m' : Nodes} {path : Path NodeRef} {s : Side} {x y : NodeRef} {inner : Option NodeRef}

/-- Other nodes keep their children. -/
theorem child_other (rotated : Rotated m m' path s x y inner) {z : NodeRef} (notX : z ≠ x)
    (notY : z ≠ y) (notPath : z ∉ path.nodes) (s' : Side) : m'.child s' z = m.child s' z := by
  rw [rotated.child, if_neg fun same : s' = s ∧ z = y => notY same.2,
    if_neg fun same => notPath (hole_mem same),
    if_neg fun same : s' = s.other ∧ z = x => notX same.2]

theorem parent_other (rotated : Rotated m m' path s x y inner) {z : NodeRef} (notX : z ≠ x)
    (notY : z ≠ y) (notInner : inner ≠ some z) : m'.parent z = m.parent z := by
  rw [rotated.parent, if_neg notX, if_neg notY, if_neg notInner]

/-- The children of the two nodes. -/
theorem children (rotated : Rotated m m' path s x y inner) (apart : x ≠ y)
    (xNotPath : x ∉ path.nodes) (yNotPath : y ∉ path.nodes) :
    m'.child s x = m.child s x ∧ m'.child s.other x = inner ∧ m'.child s y = some x ∧
      m'.child s.other y = m.child s.other y := by
  refine ⟨?_, ?_, ?_, ?_⟩
  · rw [rotated.child, if_neg fun same : s = s ∧ x = y => apart same.2,
      if_neg fun same => xNotPath (hole_mem same),
      if_neg fun same : s = s.other ∧ x = x => Side.ne_other s same.1]
  · rw [rotated.child, if_neg fun same : s.other = s ∧ x = y => apart same.2,
      if_neg fun same => xNotPath (hole_mem same), if_pos ⟨rfl, rfl⟩]
  · rw [rotated.child, if_pos ⟨rfl, rfl⟩]
  · rw [rotated.child, if_neg fun same : s.other = s ∧ y = y => Side.other_ne s same.1,
      if_neg fun same => yNotPath (hole_mem same),
      if_neg fun same : s.other = s.other ∧ y = x => apart same.2.symm]

end Rotated

namespace Holds

variable {m : Nodes} (path : Path NodeRef) {s : Side} {c d : Color} {x y : NodeRef}
  {a b e : BinTree NodeRef}

/-- A rotation takes place at its node. -/
theorem rotate (holds : m.Holds (path.plug (branch s c x a (branch s d y b e)))) :
    ∃ m', m.rotate s x = some m' ∧ m'.bound = m.bound ∧
      m'.Holds (path.plug (branch s d y (branch s c x a b) e)) := by
  obtain ⟨around, represents⟩ := represents_plug.mp holds.represents
  obtain ⟨here, upX, colorX, repA, lower⟩ := represents_branch.mp represents
  obtain ⟨down, upY, colorY, repB, repE⟩ := represents_branch.mp lower
  obtain ⟨nodup, nodupPath, outside⟩ := nodup_plug holds.nodup
  obtain ⟨xNotA, xNotLower, nodupA, nodupLower, apartA⟩ := nodup_branch.mp nodup
  obtain ⟨yNotB, yNotE, nodupB, nodupE, apartB⟩ := nodup_branch.mp nodupLower
  simp only [mem_branch, not_or] at xNotLower apartA outside
  obtain ⟨apart, xNotB, xNotE⟩ := xNotLower
  have yNotA : y ∉ a.elems := fun mem => (apartA y mem).1 rfl
  have xNotPath : x ∉ path.nodes := outside x (Or.inl rfl)
  have yNotPath : y ∉ path.nodes := outside y (Or.inr (Or.inr (Or.inl rfl)))
  have outsideB : ∀ z ∈ b.elems, z ∉ path.nodes := fun z mem =>
    outside z (Or.inr (Or.inr (Or.inr (Or.inl mem))))
  obtain ⟨m', ran, rotated⟩ := around.rotate nodupPath here upX down repB.eq_top xNotPath yNotPath
    apart fun z top =>
      ⟨fun same => xNotB (same ▸ top_mem top), outsideB z (top_mem top)⟩
  obtain ⟨childX, childX', childY, childY'⟩ := rotated.children apart xNotPath yNotPath
  have child : ∀ t : BinTree NodeRef, x ∉ t.elems → y ∉ t.elems → (∀ z ∈ t.elems, z ∉ path.nodes) →
      ∀ z ∈ t.elems, ∀ s', m'.child s' z = m.child s' z := by
    intro t notX notY notPath z mem
    exact rotated.child_other (fun same => notX (same ▸ mem)) (fun same => notY (same ▸ mem))
      (notPath z mem)
  have parent : ∀ t : BinTree NodeRef, x ∉ t.elems → y ∉ t.elems → (∀ z ∈ t.elems, z ∉ b.elems) →
      ∀ z ∈ t.elems, m'.parent z = m.parent z := by
    intro t notX notY notB z mem
    exact rotated.parent_other (fun same => notX (same ▸ mem)) (fun same => notY (same ▸ mem))
      fun top => notB z mem (top_mem top)
  have color : ∀ z, m'.color z = m.color z := congrFun rotated.color
  have elemsEq := elems_plug_congr path (elems_rotate s c d c d x y a b e)
  refine ⟨m', ran, rotated.bound, represents_plug.mpr ⟨?_, ?_⟩, ?_, ?_⟩
  · refine around.congr nodupPath ?_ ?_ (fun z _ => color z) rotated.root
    · intro z mem s' different
      rw [rotated.child, if_neg fun same : s' = s ∧ z = y => yNotPath (same.2 ▸ mem),
        if_neg different, if_neg fun same : s' = s.other ∧ z = x => xNotPath (same.2 ▸ mem)]
    · intro z mem
      exact rotated.parent_other (fun same => xNotPath (same ▸ mem))
        (fun same => yNotPath (same ▸ mem)) fun top => outsideB z (top_mem top) mem
  · -- `y` is at the place, above `x`
    have upY' : m'.parent y = above path := by
      rw [rotated.parent, if_neg (Ne.symm apart), if_pos rfl]
    have upX' : m'.parent x = some y := by
      rw [rotated.parent, if_pos rfl]
    refine represents_branch.mpr ⟨rotated.slot yNotPath, upY', (color y).trans colorY,
      represents_branch.mpr ⟨childY, upX', (color x).trans colorX, ?_, ?_⟩, ?_⟩
    · rw [childX]
      exact repA.congr (child a xNotA yNotA fun z mem => outside z (Or.inr (Or.inl mem)))
        (parent a xNotA yNotA fun z mem => (apartA z mem).2.1) fun z _ => color z
    · rw [childX', ← repB.eq_top]
      refine repB.reparent nodupB (child b xNotB yNotB outsideB) ?_ fun z _ => color z
      intro z mem
      rw [rotated.parent, if_neg fun same : z = x => xNotB (same ▸ mem),
        if_neg fun same : z = y => yNotB (same ▸ mem)]
    · rw [childY']
      refine repE.congr (child e xNotE yNotE fun z mem => ?_)
        (parent e xNotE yNotE fun z mem memB => apartB z memB mem) fun z _ => color z
      exact outside z (Or.inr (Or.inr (Or.inr (Or.inr mem))))
  · rw [elemsEq]
    exact holds.nodup
  · rw [elemsEq, rotated.bound]
    exact holds.below

/-- A new node is linked in place of a leaf. -/
theorem newNode (holds : m.Holds (path.plug .leaf)) (notMem : x ∉ (path.plug .leaf).elems) :
    ((m.newNode x (above path)).setSlot path (some x)).Holds
      (path.plug (branch s .red x .leaf .leaf)) := by
  obtain ⟨around, represents⟩ := represents_plug.mp holds.represents
  obtain ⟨-, nodupPath, -⟩ := nodup_plug holds.nodup
  have elemsPlug : ∀ z, z ∈ (path.plug (branch s .red x .leaf .leaf)).elems ↔
      z = x ∨ z ∈ (path.plug .leaf).elems := by
    intro z
    simp only [elems_plug, List.mem_append, mem_branch]
    grind [elems]
  have notPath : x ∉ path.nodes := by
    intro mem
    apply notMem
    rw [elems_plug]
    unfold nodes at mem
    grind
  have child : ∀ s' z, z ≠ x → (m.newNode x (above path)).child s' z = m.child s' z :=
    fun s' z different => Function.update_of_ne different _ _
  refine ⟨represents_plug.mpr ⟨?_, ?_⟩, ?_, ?_⟩
  · refine around.congr nodupPath ?_ ?_ ?_ ?_
    · intro z mem s' different
      rw [setSlot_child, if_neg different]
      exact child s' z fun same => notPath (same ▸ mem)
    · intro z mem
      rw [setSlot_parent]
      exact Function.update_of_ne (fun same : z = x => notPath (same ▸ mem)) _ _
    · intro z mem
      rw [setSlot_color]
      exact Function.update_of_ne (fun same : z = x => notPath (same ▸ mem)) _ _
    · intro inside
      rw [setSlot_root inside]
      rfl
  · have leafs : ∀ s', ((m.newNode x (above path)).setSlot path (some x)).child s' x = none := by
      intro s'
      rw [setSlot_child, if_neg fun same => notPath (hole_mem same)]
      exact Function.update_self x none (m.child s')
    refine represents_branch.mpr ⟨setSlot_slot _ path _, ?_, ?_, leafs s, leafs s.other⟩
    · rw [setSlot_parent]
      exact Function.update_self x _ m.parent
    · rw [setSlot_color]
      exact Function.update_self x _ m.color
  · have nodup := holds.nodup
    rw [elems_plug] at nodup notMem ⊢
    rw [elems_branch]
    cases s <;> simp only [Side.join, elems] at nodup notMem ⊢ <;> grind
  · intro z mem
    rw [setSlot_bound]
    rcases (elemsPlug z).mp mem with rfl | mem
    · exact Nat.lt_of_lt_of_le (Nat.lt_succ_self z) (Nat.le_max_right _ _)
    · exact Nat.lt_of_lt_of_le (holds.below z mem) (Nat.le_max_left _ _)

end Holds

end Nodes

end AkLisp.Ordered
