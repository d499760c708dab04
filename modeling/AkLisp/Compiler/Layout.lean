import AkLisp.Compiler.Boundaries
import AkLisp.Semantics.Expr

/-!
# The layout of the emitted code

A function under compilation is known by its parameters, by the instructions in
front of the placeholder and by its labels.  Every builder changes one of these
in a simple way, and leaves the other functions as they are.
-/

namespace AkLisp

/-- A user function with these parameters, these instructions in front of the
placeholder, and these labels. -/
def Draft (funs : List AklFunction) (f : FRef) (args : List Symbol) (code : List Instr)
    (labels : List Label) : Prop :=
  ∃ body, funs[f]? = some (.user ⟨args, body, labels⟩) ∧ createOrGetInstr body = code ++ [.nop]

theorem Draft.found {funs : List AklFunction} {f : FRef} {args : List Symbol} {code : List Instr}
    {labels : List Label} (draft : Draft funs f args code labels) :
    ∃ body, funs[f]? = some (.user ⟨args, body, labels⟩) := by
  obtain ⟨body, found, -⟩ := draft
  exact ⟨body, found⟩

theorem createOrGetInstr_createInstr (ir : List Instr) (instr : Instr) :
    createOrGetInstr (createInstr ir instr) = createInstr ir instr := by
  simp [createOrGetInstr, createInstr]

theorem createOrGetInstr_idem (ir : List Instr) :
    createOrGetInstr (createOrGetInstr ir) = createOrGetInstr ir := by
  cases ir <;> rfl

/-- The second state has all functions of the first one but perhaps another
function `f`, and its values, lists and entries still. -/
structure Extends (f : FRef) (s s' : CompState Unit) : Prop where
  funs : ∀ g fn, g ≠ f → s.funs[g]? = some fn → s'.funs[g]? = some fn
  data : s.data.Keeps s'.data s.data.existing

theorem Data.keeps_refl (d : Data) (F : Footprint) : d.Keeps d F where
  values := List.prefix_refl _
  next := fun _ _ => rfl
  prev := fun _ _ => rfl
  data := fun _ _ => rfl
  list := fun _ header _ found => ⟨header, found, rfl, rfl, rfl, rfl⟩
  top := Nat.le_refl _
  lists := Nat.le_refl _

theorem Data.Keeps.existing_trans {d₁ d₂ d₃ : Data} (first : d₁.Keeps d₂ d₁.existing)
    (second : d₂.Keeps d₃ d₂.existing) : d₁.Keeps d₃ d₁.existing :=
  first.trans second (fun _ below => Nat.lt_of_lt_of_le below first.top)
    fun _ below => Nat.lt_of_lt_of_le below first.lists

theorem Data.keeps_aklSetGlobalVar (d : Data) (sym : Symbol) (v : VRef) (F : Footprint) :
    d.Keeps (d.aklSetGlobalVar sym v) F where
  values := List.prefix_refl _
  next := fun _ _ => rfl
  prev := fun _ _ => rfl
  data := fun _ _ => rfl
  list := fun _ header _ found => ⟨header, found, rfl, rfl, rfl, rfl⟩
  top := Nat.le_refl _
  lists := Nat.le_refl _

namespace Extends

variable {f : FRef} {s s' s'' : CompState Unit}

theorem refl (f : FRef) (s : CompState Unit) : Extends f s s :=
  ⟨fun _ _ _ found => found, s.data.keeps_refl _⟩

theorem trans (first : Extends f s s') (second : Extends f s' s'') : Extends f s s'' :=
  ⟨fun g fn other found => second.funs g fn other (first.funs g fn other found),
    first.data.existing_trans second.data⟩

theorem withData (f : FRef) (s : CompState Unit) {d : Data}
    (keeps : s.data.Keeps d s.data.existing) : Extends f s (s.withData d) :=
  ⟨fun _ _ _ found => found, keeps⟩

theorem newValue (f : FRef) (s : CompState Unit) (value : AklValue) :
    Extends f s (s.withData (s.data.newValue value).2) :=
  withData f s (s.data.keeps_newValue value _)

theorem modifyUfun (s : CompState Unit) (f : FRef) (g : LispFun → LispFun) :
    Extends f s (s.modifyUfun f g) := by
  refine ⟨fun h fn other found => ?_, s.data.keeps_refl _⟩
  simp [CompState.modifyUfun, Ne.symm other, found]

theorem emit (f g : FRef) (s : CompState Unit) (instr : Instr) :
    Extends f s (s.emit ⟨f, g⟩ instr) :=
  modifyUfun s f _

theorem aklBuildLabel (f : FRef) (s : CompState Unit) (ind : Nat) :
    Extends f s (aklBuildLabel ⟨f, f⟩ s ⟨f, ind⟩) :=
  (modifyUfun s f _).trans (modifyUfun _ f _)

theorem aklNewLabels (f : FRef) (s : CompState Unit) (n : Nat) :
    Extends f s (aklNewLabels ⟨f, f⟩ s n).2 :=
  modifyUfun s f _

theorem aklNewUserFunction (f : FRef) (s : CompState Unit) :
    Extends f s (aklNewUserFunction s).2 := by
  refine ⟨fun g fn other found => ?_, s.data.keeps_refl _⟩
  have bound := (List.getElem?_eq_some_iff.mp found).1
  simpa [AkLisp.aklNewUserFunction, List.getElem?_append_left bound] using found

theorem pushFunction (f : FRef) (s : CompState Unit) (fn : Option FRef) :
    Extends f s (pushFunction ⟨f, f⟩ s fn) := by
  cases fn with
  | none => exact refl f s
  | some g => exact (newValue f s _).trans (emit f f _ _)

/-- What a function of its own extends, a function that is new to `s` apart. -/
theorem of_new {func : FRef} (first : Extends f s s') (fresh : s.funs.length ≤ func)
    (second : Extends func s' s'') : Extends f s s'' := by
  refine ⟨fun g fn other found => ?_, first.data.existing_trans second.data⟩
  have bound := (List.getElem?_eq_some_iff.mp found).1
  exact second.funs g fn (Nat.ne_of_lt (Nat.lt_of_lt_of_le bound fresh))
    (first.funs g fn other found)

end Extends

namespace Draft

variable {s : CompState Unit} {funs : List AklFunction} {f : FRef} {args : List Symbol}
  {code : List Instr} {labels : List Label}

theorem ufun (draft : Draft s.funs f args code labels) :
    ∃ body, s.ufun f = ⟨args, body, labels⟩ ∧ createOrGetInstr body = code ++ [.nop] := by
  obtain ⟨body, found, bodyEq⟩ := draft
  exact ⟨body, by simp [CompState.ufun, found, AklFunction.ufun?], bodyEq⟩

theorem modifyUfun (g : LispFun → LispFun) {body : List Instr}
    (found : s.funs[f]? = some (.user ⟨args, body, labels⟩)) :
    (s.modifyUfun f g).funs[f]? = some (.user (g ⟨args, body, labels⟩)) := by
  simp [CompState.modifyUfun, found]

/-- An instruction is emitted behind the others. -/
theorem emit (draft : Draft s.funs f args code labels) (g : FRef) (instr : Instr) :
    Draft (s.emit ⟨f, g⟩ instr).funs f args (code ++ [instr]) labels := by
  obtain ⟨body, found, bodyEq⟩ := draft
  refine ⟨createInstr body instr, modifyUfun _ found, ?_⟩
  rw [createOrGetInstr_createInstr, createInstr, bodyEq]
  simp

/-- A name that is a parameter is loaded. -/
theorem load (draft : Draft s.funs f args code labels) {sym : Symbol} {k : Nat}
    (param : args.findIdx? (· = sym) = some k) :
    aklBuildLoad ⟨f, f⟩ s sym = s.emit ⟨f, f⟩ (.load k) := by
  obtain ⟨body, found, -⟩ := draft
  simp [aklBuildLoad, found, argumentFinder, param]

/-- Another name is a global. -/
theorem get (draft : Draft s.funs f args code labels) {sym : Symbol}
    (global : args.findIdx? (· = sym) = none) :
    aklBuildLoad ⟨f, f⟩ s sym = s.emit ⟨f, f⟩ (.get sym) := by
  obtain ⟨body, found, -⟩ := draft
  simp only [aklBuildLoad, found, argumentFinder, global]
  rfl

/-- New labels come behind the others. -/
theorem newLabels (draft : Draft s.funs f args code labels) (n : Nat) :
    (aklNewLabels ⟨f, f⟩ s n).1 = labels.length ∧
      Draft (aklNewLabels ⟨f, f⟩ s n).2.funs f args code
        (labels ++ (List.range n).map fun i => ⟨none, none, i + labels.length⟩) := by
  obtain ⟨body, ufunEq, -⟩ := draft.ufun
  obtain ⟨body, found, bodyEq⟩ := draft
  refine ⟨by simp [aklNewLabels, ufunEq], body, ?_, bodyEq⟩
  simp only [aklNewLabels, ufunEq]
  exact modifyUfun _ found

/-- A label is bound to the end of the instructions. -/
theorem label (draft : Draft s.funs f args code labels) (ind : Nat) :
    Draft (aklBuildLabel ⟨f, f⟩ s ⟨f, ind⟩).funs f args code
      (labels.modify ind fun label =>
        { label with laIr := some f, laBranch := some (f, code.length) }) := by
  obtain ⟨body, found, bodyEq⟩ := draft
  have created := modifyUfun (fun ufun => { ufun with ufBody := createOrGetInstr ufun.ufBody })
    found
  refine ⟨createOrGetInstr body, ?_, by rw [createOrGetInstr_idem, bodyEq]⟩
  have placed := modifyUfun (fun ufun =>
    { ufun with ufLabels := ufun.ufLabels.modify ind fun label =>
        { label with laIr := some f, laBranch := some (f, code.length) } }) created
  have position : ((s.modifyUfun f fun ufun =>
      { ufun with ufBody := createOrGetInstr ufun.ufBody }).ufun f).ufBody.length - 1 =
        code.length := by
    simp [CompState.ufun, created, AklFunction.ufun?, bodyEq]
  simp only [aklBuildLabel, position]
  exact placed

/-- A function that is not the one a change is about. -/
theorem kept {g : FRef} {s' : CompState Unit} (draft : Draft s.funs g args code labels)
    (extended : Extends f s s') (other : g ≠ f) : Draft s'.funs g args code labels := by
  obtain ⟨body, found, bodyEq⟩ := draft
  exact ⟨body, extended.funs g _ other found, bodyEq⟩

/-- A new function. -/
theorem new (s : CompState Unit) :
    Draft (aklNewUserFunction s).2.funs (aklNewUserFunction s).1 [] [] [] :=
  ⟨[], by simp [aklNewUserFunction]; rfl, rfl⟩

/-- A parameter is appended. -/
theorem addArg (draft : Draft s.funs f args code labels) (sym : Symbol) :
    Draft (s.addArg f sym).funs f (args ++ [sym]) code labels := by
  obtain ⟨body, found, bodyEq⟩ := draft
  exact ⟨body, modifyUfun _ found, bodyEq⟩

end Draft

/-! ### Labels -/

theorem modify_middle {α : Type} (xs : List α) (x : α) (ys : List α) (g : α → α) :
    (xs ++ x :: ys).modify xs.length g = xs ++ g x :: ys := by
  induction xs with
  | nil => rfl
  | cons y xs ih => simpa using ih

theorem boundLabels_cons (f : FRef) (lc pos : Nat) (binds : List Nat) :
    boundLabels f lc (pos :: binds) = boundLabel f lc pos :: boundLabels f (lc + 1) binds := by
  simp [boundLabels, Nat.add_comm, Nat.add_left_comm]

theorem boundLabels_append (f : FRef) (lc : Nat) (xs ys : List Nat) :
    boundLabels f lc (xs ++ ys) = boundLabels f lc xs ++ boundLabels f (lc + xs.length) ys := by
  induction xs generalizing lc with
  | nil => rfl
  | cons x xs ih =>
      rw [List.cons_append, boundLabels_cons, boundLabels_cons, ih, List.cons_append,
        List.length_cons, Nat.add_right_comm, Nat.add_assoc]

@[simp] theorem boundLabels_length (f : FRef) (lc : Nat) (binds : List Nat) :
    (boundLabels f lc binds).length = binds.length := by
  simp [boundLabels]

end AkLisp
