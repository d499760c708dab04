import AkLisp.Compiler.Growth
import AkLisp.State.Dump

/-!
# Labels are bound

A special form makes its labels, emits the jumps to them and binds them before it
returns.  So every call of the front end leaves the labels of all jumps bound to
entries of the list the jumps are in, apart from those that are still open in
the special forms it is part of.
-/

namespace AkLisp

/-- A function under compilation, in which the labels of `unbound` may still have to
be bound: a list that is not empty ends with the placeholder, a label is bound to
an entry of the list, and a jump names a label of the function. -/
structure LispFun.Settled (unbound : LabelRef → Prop) (f : FRef) (ufun : LispFun) : Prop where
  placeholder : ufun.ufBody = [] ∨ ufun.ufBody.getLast? = some .nop
  inside : ∀ label ∈ ufun.ufLabels, ∀ e, label.laBranch = some e →
    e.1 = f ∧ e.2 < ufun.ufBody.length
  jumps : ∀ instr ∈ ufun.ufBody, ∀ l ∈ instr.labels,
    l.fn = f ∧ l.ind < ufun.ufLabels.length ∧ (unbound l ∨ ufun.Linked f l.ind)

/-- Labels and instructions have been added to the function, and what was bound is still
bound. -/
structure LispFun.Keeps (f : FRef) (ufun ufun' : LispFun) : Prop where
  labels : ufun.ufLabels.length ≤ ufun'.ufLabels.length
  linked : ∀ ind, ufun.Linked f ind → ufun'.Linked f ind

namespace LispFun

variable {unbound : LabelRef → Prop} {f : FRef} {ufun : LispFun}

theorem Linked.grow {ufun' : LispFun} {ind : Nat} (linked : ufun.Linked f ind)
    (labels : ufun.ufLabels <+: ufun'.ufLabels)
    (body : ufun.ufBody.length ≤ ufun'.ufBody.length) : ufun'.Linked f ind := by
  obtain ⟨label, pos, found, ir, branch, inside⟩ := linked
  refine ⟨label, pos, ?_, ir, branch, Nat.lt_of_lt_of_le inside body⟩
  obtain ⟨more, labelsEq⟩ := labels
  rw [← labelsEq, List.getElem?_append_left (List.getElem?_eq_some_iff.mp found).1]
  exact found

theorem Keeps.refl (f : FRef) (ufun : LispFun) : ufun.Keeps f ufun :=
  ⟨le_refl _, fun _ linked => linked⟩

theorem Keeps.trans {ufun' ufun'' : LispFun} (first : ufun.Keeps f ufun')
    (second : ufun'.Keeps f ufun'') : ufun.Keeps f ufun'' :=
  ⟨first.labels.trans second.labels, fun ind linked => second.linked ind (first.linked ind linked)⟩

theorem Keeps.grow {ufun' : LispFun} (labels : ufun.ufLabels <+: ufun'.ufLabels)
    (body : ufun.ufBody.length ≤ ufun'.ufBody.length) : ufun.Keeps f ufun' :=
  ⟨labels.length_le, fun _ linked => linked.grow labels body⟩

theorem Settled.mono {unbound' : LabelRef → Prop} (settled : ufun.Settled unbound f)
    (more : ∀ l, unbound l → unbound' l) : ufun.Settled unbound' f where
  placeholder := settled.placeholder
  inside := settled.inside
  jumps := fun instr mem l named =>
    have ⟨own, made, bound⟩ := settled.jumps instr mem l named
    ⟨own, made, bound.imp_left (more l)⟩

theorem length_createOrGetInstr (ir : List Instr) : ir.length ≤ (createOrGetInstr ir).length := by
  unfold createOrGetInstr
  split
  · next empty => simp [empty]
  · exact le_refl _

theorem mem_createOrGetInstr {ir : List Instr} {instr : Instr}
    (mem : instr ∈ createOrGetInstr ir) : instr ∈ ir ∨ instr = .nop := by
  unfold createOrGetInstr at mem
  split at mem
  · exact .inr (by simpa using mem)
  · exact .inl mem

theorem mem_createInstr {ir : List Instr} {new instr : Instr} (mem : instr ∈ createInstr ir new) :
    instr ∈ ir ∨ instr = new ∨ instr = .nop := by
  simp only [createInstr, List.mem_append, List.mem_cons, List.not_mem_nil, or_false] at mem
  rcases mem with front | new
  · exact (mem_createOrGetInstr (List.dropLast_subset _ front)).imp_right .inr
  · exact .inr new

theorem length_createInstr (ir : List Instr) (instr : Instr) :
    (createInstr ir instr).length = (createOrGetInstr ir).length + 1 := by
  have nonempty : 0 < (createOrGetInstr ir).length := by
    unfold createOrGetInstr
    split
    · simp
    · next some => exact List.length_pos_iff.mpr some
  simp [createInstr]
  omega

theorem Keeps.create (f : FRef) (ufun : LispFun) :
    ufun.Keeps f { ufun with ufBody := createOrGetInstr ufun.ufBody } :=
  .grow (List.prefix_refl _) (length_createOrGetInstr _)

theorem Settled.create (settled : ufun.Settled unbound f) :
    Settled unbound f { ufun with ufBody := createOrGetInstr ufun.ufBody } where
  placeholder := by
    right
    unfold createOrGetInstr
    split
    · rfl
    · next some => exact settled.placeholder.resolve_left some
  inside := fun label mem e bound =>
    have ⟨own, inside⟩ := settled.inside label mem e bound
    ⟨own, Nat.lt_of_lt_of_le inside (length_createOrGetInstr _)⟩
  jumps := fun instr mem l named => by
    rcases mem_createOrGetInstr mem with old | rfl
    · obtain ⟨own, made, bound⟩ := settled.jumps instr old l named
      exact ⟨own, made, bound.imp_right ((Keeps.create f ufun).linked l.ind)⟩
    · cases named

theorem Keeps.emit (f : FRef) (ufun : LispFun) (instr : Instr) :
    ufun.Keeps f { ufun with ufBody := createInstr ufun.ufBody instr } := by
  have longer : ufun.ufBody.length ≤ (createInstr ufun.ufBody instr).length := by
    rw [length_createInstr]
    exact Nat.le_succ_of_le (length_createOrGetInstr _)
  exact .grow (List.prefix_refl _) longer

/-- An instruction may name labels that are still to be bound. -/
theorem Settled.emit (settled : ufun.Settled unbound f) {instr : Instr}
    (names : ∀ l ∈ instr.labels, l.fn = f ∧ l.ind < ufun.ufLabels.length ∧
      (unbound l ∨ ufun.Linked f l.ind)) :
    Settled unbound f { ufun with ufBody := createInstr ufun.ufBody instr } where
  placeholder := .inr (by simp [createInstr])
  inside := fun label mem e bound => by
    obtain ⟨own, inside⟩ := settled.inside label mem e bound
    have created := length_createOrGetInstr ufun.ufBody
    have longer := length_createInstr ufun.ufBody instr
    refine ⟨own, ?_⟩
    simp only [longer]
    omega
  jumps := fun other mem l named => by
    have kept := (Keeps.emit f ufun instr).linked l.ind
    rcases mem_createInstr mem with old | rfl | rfl
    · obtain ⟨own, made, bound⟩ := settled.jumps other old l named
      exact ⟨own, made, bound.imp_right kept⟩
    · obtain ⟨own, made, bound⟩ := names l named
      exact ⟨own, made, bound.imp_right kept⟩
    · cases named

theorem Keeps.newLabels (f : FRef) (ufun : LispFun) (new : List Label) :
    ufun.Keeps f { ufun with ufLabels := ufun.ufLabels ++ new } :=
  .grow (List.prefix_append _ _) (le_refl _)

/-- New labels are not bound. -/
theorem Settled.newLabels (settled : ufun.Settled unbound f) {new : List Label}
    (fresh : ∀ label ∈ new, label.laBranch = none) :
    Settled unbound f { ufun with ufLabels := ufun.ufLabels ++ new } where
  placeholder := settled.placeholder
  inside := fun label mem e bound => by
    rcases List.mem_append.mp mem with old | new
    · exact settled.inside label old e bound
    · simp [fresh label new] at bound
  jumps := fun instr mem l named => by
    obtain ⟨own, made, bound⟩ := settled.jumps instr mem l named
    refine ⟨own, ?_, bound.imp_right ((Keeps.newLabels f ufun new).linked l.ind)⟩
    rw [List.length_append]
    omega

/-- Bind a label to the last entry. -/
def bind (f : FRef) (ind : Nat) (ufun : LispFun) : LispFun :=
  { ufun with ufLabels := ufun.ufLabels.modify ind fun label =>
      { label with laIr := some f, laBranch := some (f, ufun.ufBody.length - 1) } }

theorem linked_bind_self {ind : Nat} (made : ind < ufun.ufLabels.length)
    (nonempty : ufun.ufBody ≠ []) : (ufun.bind f ind).Linked f ind := by
  have before : ufun.ufBody.length - 1 < ufun.ufBody.length :=
    Nat.sub_lt (List.length_pos_iff.mpr nonempty) Nat.one_pos
  exact ⟨{ ufun.ufLabels[ind] with laIr := some f, laBranch := some (f, ufun.ufBody.length - 1) },
    _, by simp [bind, List.getElem?_eq_getElem made], rfl, rfl, before⟩

theorem Keeps.bind (f : FRef) (ind : Nat) (ufun : LispFun) (nonempty : ufun.ufBody ≠ []) :
    ufun.Keeps f (ufun.bind f ind) where
  labels := by simp [LispFun.bind]
  linked := fun ind' linked => by
    by_cases same : ind' = ind
    · subst same
      obtain ⟨label, pos, found, -⟩ := linked
      exact linked_bind_self (List.getElem?_eq_some_iff.mp found).1 nonempty
    · obtain ⟨label, pos, found, rest⟩ := linked
      exact ⟨label, pos, by simp [LispFun.bind, Ne.symm same, found], rest⟩

/-- With a label bound there is one less to be bound. -/
theorem Settled.bind {ind : Nat} (settled : ufun.Settled (fun l => unbound l ∨ l = ⟨f, ind⟩) f)
    (nonempty : ufun.ufBody ≠ []) : (ufun.bind f ind).Settled unbound f where
  placeholder := settled.placeholder
  inside := fun label mem e bound => by
    obtain ⟨i, at_, found⟩ := List.mem_iff_getElem.mp mem
    by_cases same : i = ind
    · subst same
      have last : e = (f, ufun.ufBody.length - 1) := by
        simp only [LispFun.bind, List.getElem_modify, if_pos] at found
        rw [← found] at bound
        simpa using bound.symm
      subst last
      exact ⟨rfl, Nat.sub_lt (List.length_pos_iff.mpr nonempty) Nat.one_pos⟩
    · simp only [LispFun.bind, List.getElem_modify, if_neg (Ne.symm same)] at found
      exact settled.inside label (found ▸ List.getElem_mem _) e bound
  jumps := fun instr mem l named => by
    obtain ⟨own, made, bound⟩ := settled.jumps instr mem l named
    refine ⟨own, by simpa [LispFun.bind] using made, ?_⟩
    rcases bound with (open_ | rfl) | linked
    · exact .inl open_
    · exact .inr (linked_bind_self made nonempty)
    · exact .inr ((Keeps.bind f ind ufun nonempty).linked l.ind linked)

end LispFun

/-! ### States -/

/-- The functions from `n` on are settled. -/
def SettledFrom (n : FRef) (unbound : LabelRef → Prop) (funs : List AklFunction) : Prop :=
  ∀ (f : FRef) (ufun : LispFun), n ≤ f → funs[f]? = some (.user ufun) → ufun.Settled unbound f

/-- There is a user function behind the pointer. -/
def IsUser (funs : List AklFunction) (f : FRef) : Prop :=
  ∃ ufun, funs[f]? = some (.user ufun)

/-- Every user function has more labels and instructions, and what was bound is still bound. -/
def LabelsKept (funs funs' : List AklFunction) : Prop :=
  ∀ (f : FRef) (ufun : LispFun), funs[f]? = some (.user ufun) →
    ∃ ufun', funs'[f]? = some (.user ufun') ∧ ufun.Keeps f ufun'

namespace LabelsKept

theorem refl (funs : List AklFunction) : LabelsKept funs funs :=
  fun f ufun found => ⟨ufun, found, .refl f ufun⟩

theorem trans {funs funs' funs'' : List AklFunction} (first : LabelsKept funs funs')
    (second : LabelsKept funs' funs'') : LabelsKept funs funs'' := by
  intro f ufun found
  obtain ⟨ufun', found', kept⟩ := first f ufun found
  obtain ⟨ufun'', found'', kept'⟩ := second f ufun' found'
  exact ⟨ufun'', found'', kept.trans kept'⟩

theorem modifyUfun {σ : Type} (st : CompState σ) (f : FRef) {g : LispFun → LispFun}
    (keeps : ∀ ufun : LispFun, ufun.Keeps f (g ufun)) :
    LabelsKept st.funs (st.modifyUfun f g).funs := by
  intro f' ufun found
  simp only [CompState.modifyUfun, List.getElem?_modify, found, Option.map_eq_map,
    Option.map_some]
  by_cases same : f = f'
  · subst same
    exact ⟨g ufun, by simp, keeps ufun⟩
  · exact ⟨ufun, by simp [same], .refl f' ufun⟩

theorem emit {σ : Type} (cx : CompContext) (st : CompState σ) (instr : Instr) :
    LabelsKept st.funs (st.emit cx instr).funs :=
  modifyUfun st cx.cxIr fun ufun => .emit cx.cxIr ufun instr

theorem isUser {funs funs' : List AklFunction} (kept : LabelsKept funs funs') {f : FRef}
    (user : IsUser funs f) : IsUser funs' f :=
  have ⟨ufun, found⟩ := user
  have ⟨ufun', found', _⟩ := kept f ufun found
  ⟨ufun', found'⟩

end LabelsKept

/-- Between the states code is added to functions, and all jumps that are added name labels
that are bound there or that were open before. -/
structure Settles {σ : Type} (n : FRef) (st st' : CompState σ) : Prop where
  keeps : LabelsKept st.funs st'.funs
  settled : ∀ unbound, SettledFrom n unbound st.funs → SettledFrom n unbound st'.funs

section

variable {σ : Type} {n : FRef} {st st' st'' : CompState σ}

namespace Settles

theorem of_funs (same : st'.funs = st.funs) : Settles n st st' where
  keeps := by
    rw [same]
    exact .refl st.funs
  settled := fun _ settled => by rwa [same]

theorem refl (st : CompState σ) : Settles n st st := of_funs rfl

theorem trans (first : Settles n st st') (second : Settles n st' st'') : Settles n st st'' where
  keeps := first.keeps.trans second.keeps
  settled := fun unbound settled => second.settled unbound (first.settled unbound settled)

theorem start (settles : Settles n st' st'') (same : st'.funs = st.funs) : Settles n st st'' :=
  (of_funs same).trans settles

theorem isUser (settles : Settles n st st') {f : FRef} (user : IsUser st.funs f) :
    IsUser st'.funs f :=
  settles.keeps.isUser user

/-- A change of one function. -/
theorem modifyUfun (st : CompState σ) (f : FRef) {g : LispFun → LispFun}
    (keeps : ∀ ufun : LispFun, ufun.Keeps f (g ufun))
    (settled : ∀ unbound (ufun : LispFun), ufun.Settled unbound f → (g ufun).Settled unbound f) :
    Settles n st (st.modifyUfun f g) where
  keeps := .modifyUfun st f keeps
  settled := fun unbound before f' ufun behind found => by
    simp only [CompState.modifyUfun, List.getElem?_modify, Option.map_eq_map] at found
    obtain ⟨fn, found', fnEq⟩ := Option.map_eq_some_iff.mp found
    by_cases same : f = f'
    · subst same
      cases fn with
      | user old =>
          obtain rfl : g old = ufun := by simpa using fnEq
          exact settled unbound old (before f old behind found')
      | cfun c => simp at fnEq
      | special form => simp at fnEq
    · simp only [if_neg same] at fnEq
      subst fnEq
      exact before f' ufun behind found'

/-- An instruction that is no jump. -/
theorem emit (cx : CompContext) (st : CompState σ) (instr : Instr) (noJump : instr.labels = []) :
    Settles n st (st.emit cx instr) := by
  apply modifyUfun
  · exact fun ufun => .emit cx.cxIr ufun instr
  · intro unbound ufun settled
    apply settled.emit
    simp [noJump]

/-- A value may be made for a push. -/
theorem push (cx : CompContext) (st : CompState σ) (d : Data) (v : Option VRef) :
    Settles n st (aklBuildPush cx { st with data := d } v) := by
  have valued : Settles n st { st with data := d } := of_funs rfl
  exact valued.trans (emit cx _ _ rfl)

theorem load (cx : CompContext) (st : CompState σ) (sym : Symbol) :
    Settles n st (aklBuildLoad cx st sym) := by
  unfold aklBuildLoad
  split
  · split
    · exact emit cx st _ rfl
    · exact emit cx st _ rfl
  · exact refl st

theorem newLabels (cx : CompContext) (st : CompState σ) (k : Nat) :
    Settles n st (aklNewLabels cx st k).2 := by
  apply modifyUfun
  · exact fun ufun => .newLabels cx.cxCompFunc ufun _
  · intro unbound ufun settled
    apply settled.newLabels
    simp

theorem newFunction (st : CompState σ) : Settles n st (aklNewUserFunction st).2 where
  keeps := fun f ufun found =>
    ⟨ufun, (List.getElem?_append_left (List.getElem?_eq_some_iff.mp found).1).trans found,
      .refl f ufun⟩
  settled := fun unbound before f ufun behind found => by
    by_cases old : f < st.funs.length
    · exact before f ufun behind ((List.getElem?_append_left old).symm.trans found)
    · rw [aklNewUserFunction, List.getElem?_append_right (Nat.le_of_not_lt old)] at found
      obtain ⟨at_, functionEq⟩ := List.getElem?_eq_some_iff.mp found
      obtain rfl : default = ufun := by simpa using functionEq
      exact ⟨.inl rfl, nofun, nofun⟩

theorem addArg (st : CompState σ) (f : FRef) (sym : Symbol) :
    Settles n st (st.modifyUfun f fun ufun => { ufun with ufArgs := ufun.ufArgs ++ [sym] }) := by
  apply modifyUfun
  · exact fun ufun => .grow (List.prefix_refl _) (le_refl _)
  · exact fun unbound ufun settled => ⟨settled.placeholder, settled.inside, settled.jumps⟩

theorem compileAtom (cx : CompContext) (isQuoted : Bool) (v : VRef) (sym : Symbol)
    (st : CompState σ) : Settles n st (compileAtom cx isQuoted v sym st) := by
  cases isQuoted with
  | true => exact emit cx st _ rfl
  | false => exact load cx st sym

theorem compileInner (cx : CompContext) (loc : ListLocals) (fn : Option FRef)
    (st : CompState σ) : Settles n st (compileInner cx loc fn st).2 := by
  unfold AkLisp.compileInner
  split
  · exact refl st
  · split
    · exact refl st
    · exact push cx st _ _

theorem compileEnd (cx : CompContext) (loc : ListLocals) (st : CompState σ) :
    Settles n st (compileEnd cx loc st).2 := by
  unfold AkLisp.compileEnd
  split
  · exact emit cx st _ rfl
  · split
    · exact refl st
    · split
      · have pushed : Settles n st _ :=
          push cx st st.data.newNilValue.2 (some st.data.newNilValue.1)
        exact pushed.trans (of_funs rfl)
      · exact refl st

end Settles

/-! ### Jumps and their labels -/

/-- The function has a label with this index. -/
def HasLabel (funs : List AklFunction) (f : FRef) (ind : Nat) : Prop :=
  ∃ ufun : LispFun, funs[f]? = some (.user ufun) ∧ ind < ufun.ufLabels.length

/-- The label is bound to an entry of the list of its function. -/
def IsLinked (funs : List AklFunction) (f : FRef) (ind : Nat) : Prop :=
  ∃ ufun : LispFun, funs[f]? = some (.user ufun) ∧ ufun.Linked f ind

theorem LabelsKept.hasLabel {funs funs' : List AklFunction} (kept : LabelsKept funs funs')
    {f : FRef} {ind : Nat} (has : HasLabel funs f ind) : HasLabel funs' f ind :=
  have ⟨ufun, found, made⟩ := has
  have ⟨ufun', found', more⟩ := kept f ufun found
  ⟨ufun', found', Nat.lt_of_lt_of_le made more.labels⟩

theorem LabelsKept.isLinked {funs funs' : List AklFunction} (kept : LabelsKept funs funs')
    {f : FRef} {ind : Nat} (linked : IsLinked funs f ind) : IsLinked funs' f ind :=
  have ⟨ufun, found, bound⟩ := linked
  have ⟨ufun', found', more⟩ := kept f ufun found
  ⟨ufun', found', more.linked ind bound⟩

theorem aklNewLabels_hasLabel (st : CompState σ) {f : FRef} (user : IsUser st.funs f)
    {k i : Nat} (small : i < k) :
    HasLabel (aklNewLabels ⟨f, f⟩ st k).2.funs f ((aklNewLabels ⟨f, f⟩ st k).1 + i) := by
  obtain ⟨ufun, found⟩ := user
  refine ⟨{ ufun with ufLabels := ufun.ufLabels ++
    (List.range k).map fun i => ⟨none, none, i + ufun.ufLabels.length⟩ }, ?_, ?_⟩
  · simp [aklNewLabels, CompState.modifyUfun, CompState.ufun, found, AklFunction.ufun?]
  · simp [aklNewLabels, CompState.ufun, found, AklFunction.ufun?, small]

theorem SettledFrom.mono {unbound unbound' : LabelRef → Prop} {funs : List AklFunction}
    (settled : SettledFrom n unbound funs) (more : ∀ l, unbound l → unbound' l) :
    SettledFrom n unbound' funs :=
  fun f ufun behind found => (settled f ufun behind found).mono more

/-- A jump to a label that is bound or is going to be. -/
theorem SettledFrom.jump {unbound : LabelRef → Prop} {f : FRef} {ind : Nat} (jt : JumpOp)
    (settled : SettledFrom n unbound st.funs) (has : HasLabel st.funs f ind)
    (bound : unbound ⟨f, ind⟩ ∨ IsLinked st.funs f ind) :
    SettledFrom n unbound (aklBuildJump ⟨f, f⟩ st jt ⟨f, ind⟩).funs := by
  obtain ⟨ufun, found, made⟩ := has
  intro g ufun' behind found'
  simp only [aklBuildJump, CompState.emit, CompState.modifyUfun, List.getElem?_modify,
    Option.map_eq_map] at found'
  by_cases same : f = g
  · subst same
    obtain rfl : { ufun with ufBody := createInstr ufun.ufBody (jt.instr ⟨f, ind⟩) } = ufun' := by
      simpa [found] using found'
    apply (settled f ufun behind found).emit
    intro l named
    obtain rfl : l = ⟨f, ind⟩ := by cases jt <;> simpa [JumpOp.instr, Instr.labels] using named
    refine ⟨rfl, made, bound.imp_right ?_⟩
    rintro ⟨ufun', found', linked⟩
    cases found.symm.trans found'
    exact linked
  · simp only [if_neg same, Option.map_id_fun', id_eq] at found'
    exact settled g ufun' behind found'

/-- `akl_build_label` binds the label to the last entry. -/
theorem aklBuildLabel_funs {f : FRef} {ufun : LispFun} (found : st.funs[f]? = some (.user ufun))
    (ind : Nat) (g : FRef) :
    (aklBuildLabel ⟨f, f⟩ st ⟨f, ind⟩).funs[g]? =
      if f = g then some (.user (LispFun.bind f ind
        { ufun with ufBody := createOrGetInstr ufun.ufBody }))
      else st.funs[g]? := by
  by_cases same : f = g
  · subst same
    simp [aklBuildLabel, CompState.modifyUfun, CompState.ufun, LispFun.bind, found,
      AklFunction.ufun?]
  · simp [aklBuildLabel, CompState.modifyUfun, same]

theorem LabelsKept.label {f : FRef} (user : IsUser st.funs f) (ind : Nat) :
    LabelsKept st.funs (aklBuildLabel ⟨f, f⟩ st ⟨f, ind⟩).funs := by
  obtain ⟨ufun, found⟩ := user
  intro g old found'
  rw [aklBuildLabel_funs found]
  by_cases same : f = g
  · subst same
    cases found.symm.trans found'
    refine ⟨_, if_pos rfl, ?_⟩
    exact (LispFun.Keeps.create f ufun).trans (.bind f ind _ (createOrGetInstr_ne_nil _))
  · exact ⟨old, by rw [if_neg same, found'], .refl g old⟩

/-- The label is bound then. -/
theorem aklBuildLabel_isLinked {f : FRef} {ind : Nat} (has : HasLabel st.funs f ind) :
    IsLinked (aklBuildLabel ⟨f, f⟩ st ⟨f, ind⟩).funs f ind := by
  obtain ⟨ufun, found, made⟩ := has
  refine ⟨_, (aklBuildLabel_funs found ind f).trans (if_pos rfl), ?_⟩
  exact LispFun.linked_bind_self made (createOrGetInstr_ne_nil _)

/-- With the label bound there is one less to be bound. -/
theorem SettledFrom.label {unbound : LabelRef → Prop} {f : FRef} {ind : Nat}
    (user : IsUser st.funs f)
    (settled : SettledFrom n (fun l => unbound l ∨ l = ⟨f, ind⟩) st.funs) :
    SettledFrom n unbound (aklBuildLabel ⟨f, f⟩ st ⟨f, ind⟩).funs := by
  obtain ⟨ufun, found⟩ := user
  intro g ufun' behind found'
  rw [aklBuildLabel_funs found] at found'
  by_cases same : f = g
  · subst same
    rw [if_pos rfl] at found'
    cases found'
    exact ((settled f ufun behind found).create).bind (createOrGetInstr_ne_nil _)
  · rw [if_neg same] at found'
    have before := settled g ufun' behind found'
    refine ⟨before.placeholder, before.inside, fun instr mem l named => ?_⟩
    obtain ⟨own, made, bound⟩ := before.jumps instr mem l named
    refine ⟨own, made, ?_⟩
    rcases bound with (open_ | rfl) | linked
    · exact .inl open_
    · exact absurd own same
    · exact .inr linked

/-! ### Special forms -/

namespace Settles

variable {f : FRef} {st₁ st₂ st₃ : CompState σ}

theorem «when» (user : IsUser st.funs f) (cond : Settles n (aklNewLabels ⟨f, f⟩ st 1).2 st₁)
    (body : Settles n
      (aklBuildJump ⟨f, f⟩ st₁ .jmpFalse ⟨f, (aklNewLabels ⟨f, f⟩ st 1).1⟩) st₂) :
    Settles n st (aklBuildLabel ⟨f, f⟩ st₂ ⟨f, (aklNewLabels ⟨f, f⟩ st 1).1⟩) := by
  have labels : Settles n st (aklNewLabels ⟨f, f⟩ st 1).2 := newLabels ⟨f, f⟩ st 1
  have has := cond.keeps.hasLabel (aklNewLabels_hasLabel st user Nat.one_pos)
  have user₂ := ((labels.keeps.trans cond.keeps).trans
    ((LabelsKept.emit _ _ _).trans body.keeps)).isUser user
  constructor
  · exact (labels.keeps.trans cond.keeps).trans
      (((LabelsKept.emit _ _ _).trans body.keeps).trans (.label user₂ _))
  · intro unbound before
    have opened := cond.settled (fun l => unbound l ∨ l = ⟨f, (aklNewLabels ⟨f, f⟩ st 1).1⟩)
      ((labels.settled unbound before).mono fun _ => .inl)
    have jumped := opened.jump .jmpFalse has (.inl (.inr rfl))
    exact (body.settled _ jumped).label user₂

theorem sif (user : IsUser st.funs f) (cond : Settles n (aklNewLabels ⟨f, f⟩ st 2).2 st₁)
    (body : Settles n
      (aklBuildJump ⟨f, f⟩ st₁ .jmpFalse ⟨f, (aklNewLabels ⟨f, f⟩ st 2).1 + 1⟩) st₂)
    (other : Settles n
      (aklBuildLabel ⟨f, f⟩ (aklBuildJump ⟨f, f⟩ st₂ .jmp ⟨f, (aklNewLabels ⟨f, f⟩ st 2).1⟩)
        ⟨f, (aklNewLabels ⟨f, f⟩ st 2).1 + 1⟩) st₃) :
    Settles n st (aklBuildLabel ⟨f, f⟩ st₃ ⟨f, (aklNewLabels ⟨f, f⟩ st 2).1⟩) := by
  have labels : Settles n st (aklNewLabels ⟨f, f⟩ st 2).2 := newLabels ⟨f, f⟩ st 2
  have has₁ := cond.keeps.hasLabel (aklNewLabels_hasLabel st user Nat.one_lt_two)
  have has₀ := cond.keeps.hasLabel (aklNewLabels_hasLabel st user Nat.two_pos)
  have bodyKept := (LabelsKept.emit _ _ _).trans body.keeps
  have user₂ := ((labels.keeps.trans cond.keeps).trans bodyKept).isUser user
  have jumpKept := LabelsKept.emit ⟨f, f⟩ st₂ (.jmp ⟨f, (aklNewLabels ⟨f, f⟩ st 2).1⟩)
  have labelKept := jumpKept.trans (.label (jumpKept.isUser user₂)
    ((aklNewLabels ⟨f, f⟩ st 2).1 + 1))
  have user₃ := (labelKept.trans other.keeps).isUser user₂
  constructor
  · exact ((labels.keeps.trans cond.keeps).trans bodyKept).trans
      ((labelKept.trans other.keeps).trans (.label user₃ _))
  · intro unbound before
    have opened := cond.settled (fun l => (unbound l ∨ l = ⟨f, (aklNewLabels ⟨f, f⟩ st 2).1⟩) ∨
      l = ⟨f, (aklNewLabels ⟨f, f⟩ st 2).1 + 1⟩)
      ((labels.settled unbound before).mono fun _ before => .inl (.inl before))
    have jumped := opened.jump .jmpFalse has₁ (.inl (.inr rfl))
    have passed := (body.settled _ jumped).jump .jmp (bodyKept.hasLabel has₀)
      (.inl (.inl (.inr rfl)))
    have bound := passed.label (jumpKept.isUser user₂)
    exact (other.settled _ bound).label user₃

theorem swhile (user : IsUser st.funs f)
    (cond : Settles n
      (aklBuildLabel ⟨f, f⟩ (aklNewLabels ⟨f, f⟩ st 2).2 ⟨f, (aklNewLabels ⟨f, f⟩ st 2).1⟩) st₁)
    (body : Settles n
      (aklBuildJump ⟨f, f⟩ st₁ .jmpFalse ⟨f, (aklNewLabels ⟨f, f⟩ st 2).1 + 1⟩) st₂) :
    Settles n st (aklBuildLabel ⟨f, f⟩
      (aklBuildJump ⟨f, f⟩ st₂ .jmp ⟨f, (aklNewLabels ⟨f, f⟩ st 2).1⟩)
      ⟨f, (aklNewLabels ⟨f, f⟩ st 2).1 + 1⟩) := by
  have labels : Settles n st (aklNewLabels ⟨f, f⟩ st 2).2 := newLabels ⟨f, f⟩ st 2
  have user₁ := labels.keeps.isUser user
  have labelKept := LabelsKept.label user₁ (aklNewLabels ⟨f, f⟩ st 2).1
  have condKept := labelKept.trans cond.keeps
  have has₁ := condKept.hasLabel (aklNewLabels_hasLabel st user Nat.one_lt_two)
  have linked₀ := cond.keeps.isLinked
    (aklBuildLabel_isLinked (aklNewLabels_hasLabel st user Nat.two_pos))
  have bodyKept := (LabelsKept.emit ⟨f, f⟩ st₁
    (.jn ⟨f, (aklNewLabels ⟨f, f⟩ st 2).1 + 1⟩)).trans body.keeps
  have has₀ := bodyKept.hasLabel
    (condKept.hasLabel (aklNewLabels_hasLabel st user Nat.two_pos))
  have jumpKept := bodyKept.trans
    (LabelsKept.emit ⟨f, f⟩ st₂ (.jmp ⟨f, (aklNewLabels ⟨f, f⟩ st 2).1⟩))
  have user₂ := (condKept.trans jumpKept).isUser user₁
  constructor
  · exact (labels.keeps.trans condKept).trans (jumpKept.trans (.label user₂ _))
  · intro unbound before
    have labelled := (labels.settled unbound before).mono
      fun l before => (.inl before : unbound l ∨ l = ⟨f, (aklNewLabels ⟨f, f⟩ st 2).1⟩)
    have opened := cond.settled
      (fun l => unbound l ∨ l = ⟨f, (aklNewLabels ⟨f, f⟩ st 2).1 + 1⟩)
      ((labelled.label user₁).mono fun _ => .inl)
    have jumped := opened.jump .jmpFalse has₁ (.inl (.inr rfl))
    have back := (body.settled _ jumped).jump .jmp has₀ (.inr (bodyKept.isLinked linked₀))
    exact back.label user₂

end Settles

theorem aklNewUserFunction_isUser (st : CompState σ) :
    IsUser (aklNewUserFunction st).2.funs (aklNewUserFunction st).1 :=
  ⟨default, by simp [aklNewUserFunction]⟩

end

end AkLisp
