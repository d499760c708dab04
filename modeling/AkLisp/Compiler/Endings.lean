import AkLisp.Compiler.Definitions
import AkLisp.Compiler.Jumps
import AkLisp.Source.Endings

/-!
# What the main function ends with

The ending of a program, which can be read off its tokens, is what its compilation
leaves at the end of the list of the main function: an instruction, behind which
no label is bound to the placeholder, or a label that is.  So the jumps of a
program are linked exactly when it does not end with an `if`, a `when` or a
`while`.
-/

namespace AkLisp

/-! ### Running a translation -/

section

variable [Libc] {task : FrontTask} {ts : List Lexeme} {s s' : CompState Unit} {fn : Option FRef}
  {f : FRef}

/-- A translation is a call of the front end. -/
theorem Translates.call (translates : Translates task ts s fn s') (own : task.context = ⟨f, f⟩)
    (user : IsUser s.funs f) :
    ∃ (c : FrontCall TokStream) (r : c.Result), c.ForUser ∧ c.run = .ok r ∧
      c.state.funs = s.funs ∧ (c.resultState r).funs = s'.funs := by
  have ready := TokStream.ready_ofList (ts ++ [])
  have compiles := translates.sound (D := tokStreamDelivery)
  cases task with
  | next cx =>
      cases own
      obtain ⟨tok, dev', ran, -⟩ := compiles ts.length [] _ (le_refl _) (Delivery.offers ready)
      exact ⟨.next ts.length ⟨f, f⟩ (s.withDev _), ((tok, fn), s'.withDev dev'), ⟨f, rfl, user⟩,
        ran, rfl, rfl⟩
  | loop cx loc =>
      cases own
      obtain ⟨dev', ran, -⟩ := compiles ts.length [] _ (le_refl _) ready
      exact ⟨.list ts.length ⟨f, f⟩ loc (s.withDev _), (fn, s'.withDev dev'), ⟨f, rfl, user⟩,
        ran, rfl, rfl⟩
  | form cx form =>
      cases own
      obtain ⟨dev', ran, -⟩ := compiles ts.length [] _ (le_refl _) ready
      exact ⟨.form ts.length ⟨f, f⟩ form (s.withDev _), (fn, s'.withDev dev'), ⟨f, rfl, user⟩,
        ran, rfl, rfl⟩

theorem Translates.settles (translates : Translates task ts s fn s')
    (own : task.context = ⟨f, f⟩) (user : IsUser s.funs f) (n : FRef) : Settles n s s' := by
  obtain ⟨c, r, forUser, ran, before, after⟩ := translates.call own user
  have settles : Settles n c.state (c.resultState r) := FrontCall.settles forUser ran
  constructor
  · rw [← before, ← after]
    exact settles.keeps
  · rw [← before, ← after]
    exact settles.settled

theorem Translates.grown (translates : Translates task ts s fn s')
    (own : task.context = ⟨f, f⟩) (user : IsUser s.funs f) : s.Grown s' := by
  obtain ⟨c, r, -, ran, before, after⟩ := translates.call own user
  have grown := (FrontCall.code_grows ran).1
  unfold CompState.Grown at grown ⊢
  rwa [before, after] at grown

end

/-! ### The end of the list -/

/-- The function is compiled, and labels are bound to entries of its list only. -/
structure CompState.Compiling (f : FRef) (s : CompState Unit) : Prop where
  user : IsUser s.funs f
  settled : SettledFrom f (fun _ => True) s.funs

theorem Settles.compiling {s s' : CompState Unit} {f : FRef} (settles : Settles f s s')
    (compiling : s.Compiling f) : s'.Compiling f :=
  ⟨settles.isUser compiling.user, settles.settled _ compiling.settled⟩

/-- What has been left at the end of the list of the function between the states. -/
def Ending.Left (f : FRef) (s s' : CompState Unit) : Ending → Prop
  | .kept => s'.funs[f]? = s.funs[f]?
  | .instr => ∀ ufun : LispFun, s'.funs[f]? = some (.user ufun) → ¬ufun.EndsLabelled f
  | .label => ∃ ufun : LispFun, s'.funs[f]? = some (.user ufun) ∧ ufun.EndsLabelled f

/-- The list has an instruction that jumps to the label. -/
def JumpsTo (funs : List AklFunction) (f : FRef) (ind : Nat) : Prop :=
  ∃ ufun : LispFun, funs[f]? = some (.user ufun) ∧
    ∃ instr ∈ ufun.ufBody.dropLast, ⟨f, ind⟩ ∈ instr.labels

section

variable {f : FRef} {s s₁ s' : CompState Unit}

theorem Ending.Left.followed {e e' : Ending} (first : e.Left f s s₁) (second : e'.Left f s₁ s') :
    (e.followed e').Left f s s' := by
  cases e' with
  | instr => exact second
  | label => exact second
  | kept =>
      have same : s'.funs[f]? = s₁.funs[f]? := second
      cases e with
      | kept => exact same.trans first
      | instr => exact fun ufun found => first ufun (same ▸ found)
      | label =>
          obtain ⟨ufun, found, ends⟩ := first
          exact ⟨ufun, same.trans found, ends⟩

/-- Changes in front of which nothing is done to the list. -/
theorem Ending.Left.start {e : Ending} (left : e.Left f s₁ s') (same : s₁.funs[f]? = s.funs[f]?) :
    e.Left f s s' := by
  cases e with
  | kept => exact left.trans same
  | instr => exact left
  | label => exact left

theorem CompState.Compiling.of_funs (compiling : s.Compiling f) (same : s'.funs = s.funs) :
    s'.Compiling f := by
  constructor
  · rw [same]
    exact compiling.user
  · rw [same]
    exact compiling.settled

/-- Behind an instruction the placeholder is new. -/
theorem Ending.Left.emit (compiling : s.Compiling f) (same : s₁.funs[f]? = s.funs[f]?)
    (instr : Instr) : Ending.instr.Left f s (s₁.emit ⟨f, f⟩ instr) := by
  obtain ⟨ufun, found⟩ := compiling.user
  have inside := (compiling.settled f ufun (le_refl _) found).inside
  rw [← same] at found
  intro ufun' found'
  obtain rfl : { ufun with ufBody := createInstr ufun.ufBody instr } = ufun' := by
    simpa [CompState.emit, CompState.modifyUfun, found] using found'
  rintro ⟨_, -, l, -, -, label, named, branch⟩
  have before := (inside label (List.mem_of_getElem? named) _ branch).2
  have longer := LispFun.length_createInstr ufun.ufBody instr
  have created := LispFun.length_createOrGetInstr ufun.ufBody
  simp only [longer] at before
  omega

theorem JumpsTo.emit (user : IsUser s.funs f) (jt : JumpOp) (ind : Nat) :
    JumpsTo (aklBuildJump ⟨f, f⟩ s jt ⟨f, ind⟩).funs f ind := by
  obtain ⟨ufun, found⟩ := user
  refine ⟨{ ufun with ufBody := createInstr ufun.ufBody (jt.instr ⟨f, ind⟩) },
    by simp [aklBuildJump, CompState.emit, CompState.modifyUfun, found],
    jt.instr ⟨f, ind⟩, ?_, by cases jt <;> simp [JumpOp.instr, Instr.labels]⟩
  rw [createInstr_dropLast]
  exact List.mem_append_right _ (List.mem_singleton_self _)

theorem CompState.Grown.jumpsTo (grown : s.Grown s') {ind : Nat} (jumps : JumpsTo s.funs f ind) :
    JumpsTo s'.funs f ind := by
  obtain ⟨ufun, found, instr, mem, named⟩ := jumps
  obtain ⟨ufun', found', -, body⟩ := grown f ufun found
  exact ⟨ufun', found', instr, body.subset mem, named⟩

/-- A label is left at the end if an instruction jumps to it. -/
theorem Ending.Left.label {ind : Nat} (jumps : JumpsTo s₁.funs f ind)
    (has : HasLabel s₁.funs f ind) :
    Ending.label.Left f s (aklBuildLabel ⟨f, f⟩ s₁ ⟨f, ind⟩) := by
  obtain ⟨ufun, found, instr, mem, named⟩ := jumps
  obtain ⟨ufun', found', made⟩ := has
  cases found.symm.trans found'
  refine ⟨_, (aklBuildLabel_funs found ind f).trans (if_pos rfl), instr, ?_, ⟨f, ind⟩, named, rfl,
    { ufun.ufLabels[ind] with
      laIr := some f, laBranch := some (f, (createOrGetInstr ufun.ufBody).length - 1) }, ?_, rfl⟩
  · have front := (createOrGetInstr_grows ufun.ufBody).subset mem
    exact List.dropLast_subset _ front
  · simp [LispFun.bind, List.getElem?_eq_getElem made]

end

/-! ### Parts of the compiler -/

section

variable [Libc] {f : FRef} {s s₁ s' : CompState Unit} {ts : List Lexeme} {fn : Option FRef}

omit [Libc] in
theorem pushFunction_settles (n : FRef) (cx : CompContext) (s : CompState Unit)
    (fn : Option FRef) : Settles n s (pushFunction cx s fn) := by
  cases fn with
  | none => exact .refl s
  | some func => exact .push cx s _ _

omit [Libc] in
theorem labels_made {k loff : Nat} (user : IsUser s.funs f)
    (labels : aklNewLabels ⟨f, f⟩ s k = (loff, s₁)) :
    IsUser s₁.funs f ∧ ∀ i < k, HasLabel s₁.funs f (loff + i) := by
  have made : Settles f s (aklNewLabels ⟨f, f⟩ s k).2 := .newLabels ⟨f, f⟩ s k
  have has := fun i (small : i < k) => aklNewLabels_hasLabel s user small
  rw [labels] at made has
  exact ⟨made.isUser user, has⟩

/-- A jump to a label in front of a part of the code, which ends with the label. -/
theorem Translates.jump_left {s₂ s₃ : CompState Unit} {ind : Nat} (jt : JumpOp)
    (user : IsUser s₂.funs f) (has : HasLabel s₂.funs f ind)
    (body : Translates (.next ⟨f, f⟩) ts (aklBuildJump ⟨f, f⟩ s₂ jt ⟨f, ind⟩) fn s₃) :
    IsUser s₃.funs f ∧ JumpsTo s₃.funs f ind ∧ HasLabel s₃.funs f ind := by
  have jumpKept := LabelsKept.emit ⟨f, f⟩ s₂ (jt.instr ⟨f, ind⟩)
  have bodyUser := jumpKept.isUser user
  have bodyKept := jumpKept.trans (body.settles rfl bodyUser f).keeps
  exact ⟨bodyKept.isUser user, (body.grown rfl bodyUser).jumpsTo (.emit user jt ind),
    bodyKept.hasLabel has⟩

/-- What a special form leaves. -/
theorem Translates.form_left {form : SForm} (translates : Translates (.form ⟨f, f⟩ form) ts s fn s')
    (compiling : s.Compiling f) :
    fn.isSome = form.returns ts ∧ (form.ending ts).Left f s s' := by
  have user := compiling.user
  cases translates with
  | @when _ tc ta _ loff s₁ fc s₂ fa s₃ labels cond body =>
      obtain ⟨user₁, made⟩ := labels_made user labels
      have condKept := (cond.settles rfl user₁ f).keeps
      obtain ⟨-, jumps, has⟩ := body.jump_left .jmpFalse (condKept.isUser user₁)
        (condKept.hasLabel (made 0 Nat.one_pos))
      exact ⟨rfl, .label jumps has⟩
  | @sif _ tc ta tb _ loff s₁ fc s₂ fa s₃ fb s₄ labels cond body other =>
      obtain ⟨user₁, made⟩ := labels_made user labels
      have condKept := (cond.settles rfl user₁ f).keeps
      have jumpKept := LabelsKept.emit ⟨f, f⟩ s₂ (.jn ⟨f, loff + 1⟩)
      have bodyUser := jumpKept.isUser (condKept.isUser user₁)
      have bodyKept := jumpKept.trans (body.settles rfl bodyUser f).keeps
      have user₃ := bodyKept.isUser (condKept.isUser user₁)
      have overKept := LabelsKept.emit ⟨f, f⟩ s₃ (.jmp ⟨f, loff⟩)
      have labelKept := LabelsKept.label (overKept.isUser user₃) (loff + 1)
      have otherUser := labelKept.isUser (overKept.isUser user₃)
      have otherKept := (other.settles rfl otherUser f).keeps
      have grown := (aklBuildLabel_grown ⟨f, f⟩ (aklBuildJump ⟨f, f⟩ s₃ .jmp ⟨f, loff⟩)
        ⟨f, loff + 1⟩).trans (other.grown rfl otherUser)
      have has := ((condKept.trans bodyKept).trans (overKept.trans
        (labelKept.trans otherKept))).hasLabel (made 0 Nat.two_pos)
      exact ⟨rfl, .label (grown.jumpsTo (.emit user₃ .jmp loff)) has⟩
  | @swhile _ tc ta _ loff s₁ fc s₂ fa s₃ labels cond body =>
      obtain ⟨user₁, made⟩ := labels_made user labels
      have labelKept := LabelsKept.label user₁ loff
      have condKept := labelKept.trans (cond.settles rfl (labelKept.isUser user₁) f).keeps
      obtain ⟨user₃, jumps, has⟩ := body.jump_left .jmpFalse (condKept.isUser user₁)
        (condKept.hasLabel (made 1 Nat.one_lt_two))
      have back := emit_grown ⟨f, f⟩ s₃ (.jmp ⟨f, loff⟩)
      have backKept := LabelsKept.emit ⟨f, f⟩ s₃ (.jmp ⟨f, loff⟩)
      exact ⟨rfl, .label (back.jumpsTo jumps) (backKept.hasLabel has)⟩
  | @set _ l ts _ fn s₁ tok rhs =>
      have ending : SForm.set.ending (l :: ts) = .instr := by simp [SForm.ending, tok]
      rw [ending]
      have pushed := (rhs.settles rfl user f).trans (pushFunction_settles f ⟨f, f⟩ s₁ fn)
      exact ⟨rfl, Ending.Left.emit (pushed.compiling compiling) rfl _⟩
  | @setOther _ l _ notAtom =>
      have ending : SForm.set.ending [l] = .kept := by simp [SForm.ending, notAtom]
      rw [ending]
      exact ⟨rfl, rfl⟩
  | lambda new params docstring body =>
      have made : Translates (.form ⟨f, f⟩ .lambda) _ s _ s' := .lambda new params docstring body
      obtain ⟨func, -, kept⟩ := made.lambda_kept
      obtain ⟨ufun, found⟩ := user
      exact ⟨rfl, (kept f _ found).trans found.symm⟩
  | @defun _ l sym tp doc first tb _ func s₁ s₂ fb s₃ new tok symEq params docstring body =>
      have defined : Translates (.form ⟨f, f⟩ .defun) _ s _ _ :=
        .defun new tok symEq params docstring body
      obtain ⟨_, s₃, -, equal, kept⟩ := defined.defun_kept tok
      obtain ⟨ufun, found⟩ := user
      have ending : SForm.defun.ending (l :: (tp ++ (doc ++ first :: tb))) = .instr := by
        simp [SForm.ending, tok]
      have returns : SForm.defun.returns (l :: (tp ++ (doc ++ first :: tb))) = true := by
        simp [SForm.returns, tok]
      rw [ending, returns, equal]
      have same : (s₃.withData (s₃.data.newSymValue
          (aklGetOrCreateSymbol l.text)).2).funs[f]? = s.funs[f]? :=
        (kept f _ found).trans found.symm
      exact ⟨rfl, .emit compiling same _⟩
  | @defunOther _ l _ func s₁ new notAtom =>
      cases new
      obtain ⟨ufun, found⟩ := user
      have ending : SForm.defun.ending [l] = .kept := by simp [SForm.ending, notAtom]
      have returns : SForm.defun.returns [l] = false := by simp [SForm.returns, notAtom]
      rw [ending, returns]
      exact ⟨rfl, List.getElem?_append_left (List.getElem?_eq_some_iff.mp found).1⟩

end

/-! ### Lists -/

/-- What is done at the closing parenthesis of the list. -/
def ListLocals.close (loc : ListLocals) : ListEnd :=
  match loc.sym with
  | some _ => .instr
  | none =>
      match loc.fun_ with
      | some _ => .function
      | none => if loc.pfSt = .sform then .nothing else .instr

/-- Where the loop of `akl_compile_list` stands. -/
structure ListLocals.Stands (loc : ListLocals) (atHead : Bool) (close : ListEnd) : Prop where
  felem : loc.felem = atHead
  unnamed : atHead = true → loc.sym = none
  close : loc.close = close

section

variable {f : FRef} {s : CompState Unit} {loc : ListLocals} {atHead : Bool} {close : ListEnd}

theorem compileEnd_left (compiling : s.Compiling f) (loc : ListLocals) :
    (compileEnd ⟨f, f⟩ loc s).1.isSome = loc.close.returns ∧
      loc.close.ending.Left f s (compileEnd ⟨f, f⟩ loc s).2 := by
  unfold compileEnd ListLocals.close
  cases loc.sym with
  | some sym => exact ⟨rfl, .emit compiling rfl _⟩
  | none =>
      cases loc.fun_ with
      | some func => exact ⟨rfl, rfl⟩
      | none =>
          by_cases sform : loc.pfSt = .sform
          · simp only [sform, ne_eq, not_true_eq_false, if_true, if_false]
            exact ⟨rfl, rfl⟩
          · simp only [sform, ne_eq, not_false_eq_true, if_true, if_false]
            have pushed : Ending.instr.Left f s ((s.withData s.data.newNilValue.2).emit ⟨f, f⟩
                (.push (some s.data.newNilValue.1))) := .emit compiling rfl _
            exact ⟨rfl, pushed⟩

theorem compileInner_left (compiling : s.Compiling f) (stands : loc.Stands atHead close)
    (fn : Option FRef) :
    (compileInner ⟨f, f⟩ loc fn s).1.Stands false (close.behind atHead fn.isSome) ∧
      (Ending.ofInner atHead fn.isSome).Left f s (compileInner ⟨f, f⟩ loc fn s).2 := by
  obtain ⟨felem, unnamed, closeEq⟩ := stands
  cases fn with
  | none =>
      have same : close.behind atHead false = close := by simp [ListEnd.behind]
      rw [Option.isSome_none, same]
      exact ⟨⟨rfl, nofun, closeEq⟩, rfl⟩
  | some func =>
      cases atHead with
      | true =>
          simp only [compileInner, felem, if_true]
          refine ⟨⟨rfl, nofun, ?_⟩, rfl⟩
          simp [ListLocals.close, ListLocals.countArg, unnamed rfl, ListEnd.behind]
      | false =>
          simp only [compileInner, felem, Bool.false_eq_true, if_false]
          have pushed : Ending.instr.Left f s
              ((s.withData (s.data.newFunctionValue func).2).emit ⟨f, f⟩
                (.push (some (s.data.newFunctionValue func).1))) := .emit compiling rfl _
          exact ⟨⟨rfl, nofun, closeEq⟩, pushed⟩

end

section

variable [Libc] {f : FRef}

/-- A part of the compiler takes the tokens and leaves something at the end of the code. -/
def Leaves (f : FRef) (task : FrontTask) (ts : List Lexeme) (s : CompState Unit)
    (n' : FormNames) (e : Ending) (v : Bool) : Prop :=
  ∃ fn s', Translates task ts s fn s' ∧ s'.Knows n' ∧ fn.isSome = v ∧ e.Left f s s'

/-- A part of the code is taken where it stands. -/
def EndPart.Taken (f : FRef) (ts : List Lexeme) (n n' : FormNames) (e : Ending) (v : Bool) :
    EndPart → Prop
  | .operand => ∀ s : CompState Unit, s.Compiling f → s.Knows n →
      Leaves f (.next ⟨f, f⟩) ts s n' e v
  | .items atHead close => ∀ (loc : ListLocals) (s : CompState Unit), loc.Stands atHead close →
      s.Compiling f → s.Knows n → Leaves f (.loop ⟨f, f⟩ loc) ts s n' e v

variable {n n₁ n' : FormNames} {q ls ms items : List Lexeme} {b : Bool} {l : Lexeme}
  {e e' : Ending} {v v' : Bool} {c : ListEnd} {atHead : Bool}

theorem left_headForm {form : SForm} (mark : QuoteMark q b) (tok : l.tok = .tATOM)
    (special : n (aklGetOrCreateSymbol l.text) = some form)
    (operands : HasOperands (.operands form) ms n n₁)
    (others : (EndPart.items false (.ofForm (form.returns ms))).Taken f ls n₁ n' e v) :
    (EndPart.items true c).Taken f (q ++ l :: (ms ++ ls)) n n' ((form.ending ms).followed e) v := by
  intro loc s stands compiling knows
  have steady : Steady s (s.withSymbol (aklGetOrCreateSymbol l.text) b) := .newValue s _
  have knows₁ := steady.knows knows
  have compiling₁ : (s.withSymbol (aklGetOrCreateSymbol l.text) b).Compiling f :=
    compiling.of_funs rfl
  obtain ⟨g, fetched, formEq⟩ := CompState.prefetch_special
    ((congrFun knows₁.names _).trans special)
  obtain ⟨fun_, s₁, form, knows₂⟩ := operands.taken ⟨f, f⟩ _ knows₁
  obtain ⟨returns, left⟩ := form.form_left compiling₁
  have behind : ({ loc with pfSt := .sform, fun_, felem := false } : ListLocals).Stands false
      (.ofForm fun_.isSome) := by
    refine ⟨rfl, nofun, ?_⟩
    cases fun_ <;> simp [ListLocals.close, stands.unnamed rfl, ListEnd.ofForm]
  rw [returns] at behind
  obtain ⟨fn, s', loop, knows', value, left'⟩ := others _ s₁ behind
    ((form.settles rfl compiling₁.user f).compiling compiling₁) knows₂
  exact ⟨fn, s', .headForm mark stands.felem tok rfl fetched formEq form loop, knows', value,
    (left.start rfl).followed left'⟩

theorem left_headName (mark : QuoteMark q b) (tok : l.tok = .tATOM)
    (ordinary : n (aklGetOrCreateSymbol l.text) = none)
    (others : (EndPart.items false .instr).Taken f ls n n' e v) :
    (EndPart.items true c).Taken f (q ++ l :: ls) n n' e v := by
  intro loc s stands compiling knows
  have steady : Steady s (s.withSymbol (aklGetOrCreateSymbol l.text) b) := .newValue s _
  have knows₁ := steady.knows knows
  have compiling₁ : (s.withSymbol (aklGetOrCreateSymbol l.text) b).Compiling f :=
    compiling.of_funs rfl
  have notForm := CompState.prefetch_ordinary ((congrFun knows₁.names _).trans ordinary)
  obtain ⟨⟨pfSt, fun_⟩, fetched⟩ : ∃ r, prefetchFunction
    (s.withSymbol (aklGetOrCreateSymbol l.text) b) (aklGetOrCreateSymbol l.text) = r := ⟨_, rfl⟩
  rw [fetched] at notForm
  have named (callable : pfSt = .normal ∨ pfSt = .notFound) :
      Leaves f (.loop ⟨f, f⟩ loc) (q ++ l :: ls) s n' e v := by
    obtain ⟨fn, s', loop, knows', value, left⟩ := others
      { loc with pfSt, fun_, felem := false, sym := some (aklGetOrCreateSymbol l.text) } _
      ⟨rfl, nofun, rfl⟩ compiling₁ knows₁
    exact ⟨fn, s', .headName mark stands.felem tok rfl fetched callable loop, knows', value,
      left.start rfl⟩
  cases pfSt with
  | sform => exact absurd rfl notForm
  | normal => exact named (.inl rfl)
  | notFound => exact named (.inr rfl)
  | notFn =>
      have none := prefetch_notFn fetched
      obtain ⟨fn, s', loop, knows', value, left⟩ := others
        { loc with pfSt := .notFn, fun_, felem := false } _
        ⟨rfl, nofun, by simp [ListLocals.close, stands.unnamed rfl, none]⟩ compiling₁ knows₁
      exact ⟨fn, s', .headOther mark stands.felem tok rfl fetched loop, knows', value,
        left.start rfl⟩

/-- An element behind which the loop goes on as before. -/
theorem left_item {s s₁ : CompState Unit} {loc : ListLocals} (stands : loc.Stands atHead c)
    (others : (EndPart.items false c).Taken f ls n₁ n' e v) (left : Ending.instr.Left f s s₁)
    (compiling : s₁.Compiling f) (knows : s₁.Knows n₁) {ts : List Lexeme}
    (round : ∀ fn s', Translates (.loop ⟨f, f⟩ loc.countArg) ls s₁ fn s' →
      Translates (.loop ⟨f, f⟩ loc) ts s fn s') :
    Leaves f (.loop ⟨f, f⟩ loc) ts s n' (Ending.instr.followed e) v := by
  obtain ⟨fn, s', loop, knows', value, left'⟩ :=
    others loc.countArg s₁ ⟨rfl, nofun, stands.close⟩ compiling knows
  exact ⟨fn, s', round fn s' loop, knows', value, left.followed left'⟩

theorem left_itemLeaf (mark : QuoteMark q b) (leaf : l.tok.isLeaf = true)
    (notHead : atHead = true → l.tok ≠ .tATOM)
    (others : (EndPart.items false c).Taken f ls n n' e v) :
    (EndPart.items atHead c).Taken f (q ++ l :: ls) n n' (Ending.instr.followed e) v := by
  intro loc s stands compiling knows
  by_cases atom : l.tok = .tATOM
  · cases atHead with
    | true => exact absurd atom (notHead rfl)
    | false =>
        let named := s.withSymbol (aklGetOrCreateSymbol l.text) b
        have compiling₁ : named.Compiling f := compiling.of_funs rfl
        have steady := (Steady.newValue s ⟨.symbol (aklGetOrCreateSymbol l.text), b, false⟩).trans
          (.compileAtom ⟨f, f⟩ b s.data.values.length (aklGetOrCreateSymbol l.text) _)
        have settles : Settles f named (compileAtom ⟨f, f⟩ b s.data.values.length
            (aklGetOrCreateSymbol l.text) named) := .compileAtom _ _ _ _ _
        have emitted : Ending.instr.Left f s (compileAtom ⟨f, f⟩ b s.data.values.length
            (aklGetOrCreateSymbol l.text) named) := by
          cases b with
          | true => exact .emit compiling₁ rfl _
          | false =>
              obtain ⟨ufun, found⟩ := compiling₁.user
              simp only [compileAtom, aklBuildLoad, found, Bool.false_eq_true, if_false]
              cases argumentFinder ufun (aklGetOrCreateSymbol l.text) with
              | some ind => exact .emit compiling₁ rfl _
              | none => exact .emit compiling₁ rfl _
        exact left_item stands others emitted (settles.compiling compiling₁) (steady.knows knows)
          fun fn s' loop => .atom mark stands.felem atom rfl loop
  · obtain ⟨leaf, leafEq⟩ := leaf_of_isLeaf leaf
    let valued := s.withData (s.data.newValue (leafValue leaf true)).2
    have compiling₁ : valued.Compiling f := compiling.of_funs rfl
    have steady := (Steady.newValue s (leafValue leaf true)).trans
      (.emit ⟨f, f⟩ _ (.push (some s.data.values.length)))
    have settles : Settles f valued (aklBuildPush ⟨f, f⟩ valued (some s.data.values.length)) :=
      .emit _ _ _ rfl
    have emitted : Ending.instr.Left f s
        (aklBuildPush ⟨f, f⟩ valued (some s.data.values.length)) :=
      Ending.Left.emit compiling₁ rfl _
    exact left_item stands others emitted (settles.compiling compiling₁) (steady.knows knows)
      fun fn s' loop => .leaf mark leafEq atom loop

theorem left_itemQuoted {quote : Lexeme} (mark : quote.tok = .tQUOTE) (tok : l.tok = .tLBRACE)
    (inside : DataTokens items) (others : (EndPart.items false c).Taken f ls n n' e v) :
    (EndPart.items atHead c).Taken f (quote :: l :: (items ++ ls)) n n'
      (Ending.instr.followed e) v := by
  intro loc s stands compiling knows
  obtain ⟨w, d', reads, globals, values⟩ := (DatumTokens.list tok inside).reads true s.data
  have compiling₁ : (s.withData d').Compiling f := compiling.of_funs rfl
  have steady := (Steady.withData s globals values).trans (.emit ⟨f, f⟩ _ (.push (some w)))
  have settles : Settles f (s.withData d') (aklBuildPush ⟨f, f⟩ (s.withData d') (some w)) :=
    .emit _ _ _ rfl
  have emitted : Ending.instr.Left f s (aklBuildPush ⟨f, f⟩ (s.withData d') (some w)) :=
    Ending.Left.emit compiling₁ rfl _
  exact left_item stands others emitted (settles.compiling compiling₁) (steady.knows knows)
    fun fn s' loop => .quotedList mark tok reads loop

theorem left_itemList (tok : l.tok = .tLBRACE)
    (inside : (EndPart.items true .instr).Taken f items n n₁ e v)
    (others : (EndPart.items false (c.behind atHead v)).Taken f ls n₁ n' e' v') :
    (EndPart.items atHead c).Taken f (l :: (items ++ ls)) n n'
      ((e.followed (.ofInner atHead v)).followed e') v' := by
  intro loc s stands compiling knows
  obtain ⟨g, s₁, inner, knows₁, rfl, left⟩ :=
    inside .init s ⟨rfl, fun _ => rfl, rfl⟩ compiling knows
  have compiling₁ := (inner.settles rfl compiling.user f).compiling compiling
  obtain ⟨behind, left₁⟩ := compileInner_left compiling₁ stands g
  have settles : Settles f s₁ (compileInner ⟨f, f⟩ loc g s₁).2 := .compileInner _ _ _ _
  obtain ⟨fn, s', loop, knows', value, left'⟩ := others _ _ behind (settles.compiling compiling₁)
    ((Steady.compileInner ⟨f, f⟩ loc g s₁).knows knows₁)
  exact ⟨fn, s', .inner tok inner loop, knows', value, (left.followed left₁).followed left'⟩

/-- The ending that can be read off the tokens is what they leave. -/
theorem Ends.taken {part : EndPart} {ts : List Lexeme} (ends : Ends part ts n n' e v) :
    part.Taken f ts n n' e v := by
  induction ends with
  | leaf leaf =>
      intro s compiling knows
      obtain ⟨leaf, leafEq⟩ := leaf_of_isLeaf leaf
      have compiling₁ : (s.withData (s.data.newValue (leafValue leaf false)).2).Compiling f :=
        compiling.of_funs rfl
      exact ⟨_, _, .nextLeaf leafEq, ((Steady.newValue s _).trans (.emit _ _ _)).knows knows, rfl,
        Ending.Left.emit compiling₁ rfl _⟩
  | quoted tok datum =>
      intro s compiling knows
      obtain ⟨w, d', reads, globals, values⟩ := datum.reads true s.data
      have compiling₁ : (s.withData d').Compiling f := compiling.of_funs rfl
      have steady := (Steady.withData s globals values).trans (.emit ⟨f, f⟩ _ (.push (some w)))
      have left : Ending.instr.Left f s (aklBuildPush ⟨f, f⟩ (s.withData d') (some w)) :=
        Ending.Left.emit compiling₁ rfl _
      cases datum with
      | leaf leaf => exact ⟨_, _, .nextQuoted tok reads, steady.knows knows, rfl, left⟩
      | list open_ inside => exact ⟨_, _, .nextQuoted tok reads, steady.knows knows, rfl, left⟩
  | list tok inside ih =>
      intro s compiling knows
      obtain ⟨fn, s', loop, knows', value, left⟩ :=
        ih .init s ⟨rfl, fun _ => rfl, rfl⟩ compiling knows
      exact ⟨fn, s', .nextList tok loop, knows', value, left⟩
  | close mark tok =>
      intro loc s stands compiling knows
      obtain ⟨value, left⟩ := compileEnd_left compiling loc
      rw [stands.close] at value left
      exact ⟨_, _, .close mark tok, (Steady.compileEnd _ loc s).knows knows, value, left⟩
  | headForm mark tok special operands others ih => exact left_headForm mark tok special operands ih
  | headName mark tok ordinary others ih => exact left_headName mark tok ordinary ih
  | itemLeaf mark leaf notHead others ih => exact left_itemLeaf mark leaf notHead ih
  | itemQuoted mark tok inside others ih => exact left_itemQuoted mark tok inside ih
  | itemList tok inside others ihInside ih => exact left_itemList tok ihInside ih

end

/-! ### Programs -/

/-- The end of the input. -/
def endLexeme : Lexeme := ⟨.tEOF, []⟩

section

variable [Libc] {f : FRef} {tss : List (List Lexeme)} {n : FormNames} {e : Ending}

/-- The loop of `akl_compile` takes the expressions of a program and leaves its ending. -/
theorem ProgramEnds.compiles {σ : Type} [TokenSource σ] (D : Delivery σ)
    (ends : ProgramEnds tss n e) {s : CompState Unit} (compiling : s.Compiling f)
    (knows : s.Knows n) :
    ∃ s', (∀ fuel dev, tss.flatten.length < fuel → D.Ready (tss.flatten ++ [endLexeme]) dev →
      ∃ dev', compileForms fuel ⟨f, f⟩ (s.withDev dev) = .ok (s'.withDev dev')) ∧
      e.Left f s s' := by
  induction ends generalizing s with
  | nil =>
      refine ⟨s, fun fuel dev enough ready => ?_, rfl⟩
      obtain ⟨fuel, rfl⟩ := Nat.exists_eq_succ_of_ne_zero (Nat.ne_of_gt enough)
      obtain ⟨dev', lexEq, -⟩ := CompState.aklLex_offers (Delivery.offers ready) s
      refine ⟨dev', ?_⟩
      simp only [compileForms, aklCompileNext, compileNextWith, lexEq, endLexeme, bind, Except.bind,
        pure, Except.pure, if_true]
  | @cons ts tss n n' e v e' first others ih =>
      obtain ⟨fn, s₁, translates, knows₁, -, left⟩ := first.taken (f := f) s compiling knows
      have compiling₁ := (translates.settles rfl compiling.user f).compiling compiling
      obtain ⟨s', runs, left'⟩ := ih compiling₁ knows₁
      refine ⟨s', fun fuel dev enough ready => ?_, left.followed left'⟩
      have some : 0 < ts.length := List.length_pos_iff.mpr first.nonempty
      rw [List.flatten_cons, List.length_append] at enough
      rw [List.flatten_cons, List.append_assoc] at ready
      obtain ⟨fuel, rfl⟩ : ∃ k, fuel = k + 1 := ⟨fuel - 1, by omega⟩
      obtain ⟨tok, dev₁, nextEq, notEof, ready₁⟩ :=
        translates.sound fuel _ dev (by omega) (Delivery.offers ready)
      obtain ⟨dev', formsEq⟩ := runs fuel dev₁ (by omega) ready₁
      refine ⟨dev', ?_⟩
      simp only [compileForms, nextEq, bind, Except.bind, if_neg notEof]
      exact formsEq

omit [Libc] in
theorem aklNewUserFunction_compiling (s : CompState Unit) :
    (aklNewUserFunction s).2.Compiling s.funs.length := by
  refine ⟨aklNewUserFunction_isUser s, (Settles.newFunction s).settled _ ?_⟩
  intro f ufun behind found
  exact absurd (List.getElem?_eq_some_iff.mp found).1 (Nat.not_lt_of_le behind)

omit [Libc] in
/-- From an empty function on the ending is what is at the end. -/
theorem Ending.Left.endsLabelled_iff {s s' : CompState Unit} {ufun : LispFun} (left : e.Left f s s')
    (empty : s.funs[f]? = some (.user default)) (found : s'.funs[f]? = some (.user ufun)) :
    ufun.EndsLabelled f ↔ e = .label := by
  cases e with
  | kept =>
      have same : s'.funs[f]? = s.funs[f]? := left
      rw [found, empty] at same
      cases same
      constructor
      · rintro ⟨instr, mem, -⟩
        cases mem
      · rintro ⟨⟩
  | instr =>
      constructor
      · exact fun ends => absurd ends (left ufun found)
      · rintro ⟨⟩
  | label =>
      obtain ⟨ufun', found', ends⟩ := left
      cases found.symm.trans found'
      exact ⟨fun _ => rfl, fun _ => ends⟩

/-- `akl_compile` compiles a program whose special forms have their operands, and the jumps are
linked when it does not end with a label. -/
theorem ProgramEnds.jumpsLinked_iff {σ : Type} [TokenSource σ] (D : Delivery σ)
    {s : CompState Unit} (bound : s.data.Bound) (ends : ProgramEnds tss s.formName e) {fuel : Nat}
    (enough : tss.flatten.length < fuel) {dev : σ}
    (ready : D.Ready (tss.flatten ++ [endLexeme]) dev) :
    ∃ st', aklCompile fuel (s.withDev dev) = .ok (s.funs.length, st') ∧
      (st'.JumpsLinked s.funs.length ↔ e ≠ .label) := by
  have created := Steady.aklNewUserFunction s
  obtain ⟨s', runs, left⟩ :=
    ends.compiles D (aklNewUserFunction_compiling s) (created.knows ⟨bound, rfl⟩)
  obtain ⟨dev', forms⟩ := runs fuel dev enough ready
  have made : aklCompile fuel (s.withDev dev) = .ok (s.funs.length,
      (s'.withDev dev').modifyUfun s.funs.length fun ufun =>
        { ufun with ufBody := popNop ufun.ufBody }) := by
    have new : (aklNewUserFunction s).1 = s.funs.length := rfl
    simp only [aklCompile, CompState.aklNewUserFunction_withDev, bind, Except.bind]
    rw [new, forms]
    rfl
  obtain ⟨-, st₁, ufun, formsEq, found, iff⟩ := aklCompile_jumpsLinked_iff made
  obtain rfl : s'.withDev dev' = st₁ := by
    rw [CompState.aklNewUserFunction_withDev, forms] at formsEq
    injection formsEq
  have empty : (aklNewUserFunction s).2.funs[s.funs.length]? = some (.user default) := by
    simp [aklNewUserFunction]
  exact ⟨_, made, iff.trans (not_congr (left.endsLabelled_iff empty found))⟩

/-- The jumps of the main function and of all functions compiled on the way are linked
exactly when no jump of the main function leads to its placeholder; for a program whose
special forms have their operands, when it does not end with an `if`, a `when` or a
`while`. -/
theorem jumps_linked_iff {σ : Type} [TokenSource σ] :
    (∀ (fuel : Nat) (st st' : CompState σ) (f : FRef), aklCompile fuel st = .ok (f, st') →
      f = st.funs.length ∧
        ∃ st₁ ufun, compileForms fuel ⟨f, f⟩ (aklNewUserFunction st).2 = .ok st₁ ∧
          st₁.funs[f]? = some (.user ufun) ∧ (st'.JumpsLinked f ↔ ¬ufun.EndsLabelled f)) ∧
    ∀ (D : Delivery σ) (s : CompState Unit) (tss : List (List Lexeme)) (e : Ending) (fuel : Nat)
      (dev : σ), s.data.Bound → ProgramEnds tss s.formName e → tss.flatten.length < fuel →
      D.Ready (tss.flatten ++ [endLexeme]) dev →
      ∃ st', aklCompile fuel (s.withDev dev) = .ok (s.funs.length, st') ∧
        (st'.JumpsLinked s.funs.length ↔ e ≠ .label) := by
  constructor
  · exact fun fuel st st' f ran => aklCompile_jumpsLinked_iff ran
  · exact fun D s tss e fuel dev bound ends enough ready =>
      ends.jumpsLinked_iff D bound enough ready

end

/-- `(when NIL NIL)` -/
def whenNil : List Lexeme :=
  openLexeme :: atomLexeme SForm.when.text :: (([nilLexeme] ++ [nilLexeme]) ++ [closeLexeme])

theorem whenNil_ends :
    Ends .operand whenNil firstState.formName firstState.formName .label false := by
  have operand (n : FormNames) : HasOperands .operand [nilLexeme] n n := .leaf rfl
  exact .list rfl (.headForm .plain rfl (firstState_special .when)
    (.when (operand _) (operand _)) (.close .plain rfl))

/-- With a `NIL` behind it the jump of a `when` is linked. -/
theorem jumps_linked_nil :
    ∃ st', @aklCompile TokStream _ decimalLibc 7
        (firstState.withDev (.ofList (whenNil ++ [nilLexeme, endLexeme]))) =
          .ok (firstState.funs.length, st') ∧
      st'.JumpsLinked firstState.funs.length ∧
      ∃ st₁ ufun, @compileForms TokStream _ decimalLibc 7 ⟨firstState.funs.length,
          firstState.funs.length⟩ (aklNewUserFunction
            (firstState.withDev (.ofList (whenNil ++ [nilLexeme, endLexeme])))).2 = .ok st₁ ∧
        st₁.funs[firstState.funs.length]? = some (.user ufun) ∧
        ¬ufun.EndsLabelled firstState.funs.length := by
  let libc := decimalLibc
  have ends : ProgramEnds [whenNil, [nilLexeme]] firstState.formName .instr :=
    .cons whenNil_ends (.cons (.leaf rfl) .nil)
  have compiled := (jumps_linked_iff (σ := TokStream)).2 tokStreamDelivery firstState
    [whenNil, [nilLexeme]] .instr 7 _ Machine.init_bound ends (by decide)
    (TokStream.ready_ofList _)
  obtain ⟨st', ran, iff⟩ := compiled
  obtain ⟨-, st₁, ufun, forms, found, iff'⟩ := (jumps_linked_iff (σ := TokStream)).1 _ _ _ _ ran
  have linked := iff.mpr (by decide)
  exact ⟨st', ran, linked, st₁, ufun, forms, found, iff'.mp linked⟩

/-- The main function a new interpreter compiles the tokens to. -/
def mainFunction (ts : List Lexeme) : Option LispFun :=
  (@aklCompile TokStream _ decimalLibc (ts.length + 1)
    (firstState.withDev (.ofList ts))).toOption.bind fun r =>
      r.2.funs[r.1]?.bind AklFunction.ufun?

/-- Behind the entry the label is bound to there is none left. -/
theorem whenNil_function : (mainFunction whenNil).map (fun ufun =>
    (ufun.ufBody.length, ufun.ufBody[1]?, ufun.ufLabels[0]?.bind Label.laBranch)) =
      some (3, some (.jn ⟨firstState.funs.length, 0⟩), some (firstState.funs.length, 3)) := by
  decide +kernel

/-- The label a `when` at the end of a program jumps to is bound to an entry that is taken off
the list. -/
theorem when_jump_dangles :
    ∃ f st', @aklCompile TokStream _ decimalLibc 6
        (firstState.withDev (.ofList whenNil)) = .ok (f, st') ∧ ¬st'.JumpsLinked f := by
  have function := whenNil_function
  unfold mainFunction at function
  change Option.map _ (Option.bind (@aklCompile TokStream _ decimalLibc 6 _).toOption _) = _
    at function
  cases ran : @aklCompile TokStream _ decimalLibc 6 (firstState.withDev (.ofList whenNil)) with
  | error e => simp [ran, Except.toOption] at function
  | ok r =>
      obtain ⟨f, st'⟩ := r
      refine ⟨f, st', rfl, fun linked => ?_⟩
      simp only [ran, Except.toOption, Option.bind_some, Option.map_eq_some_iff,
        Option.bind_eq_some_iff, Prod.mk.injEq] at function
      obtain ⟨ufun, ⟨fn, found, user⟩, length, jump, label, labelled, branch⟩ := function
      cases fn with
      | user ufun' =>
          cases user
          have mem := List.mem_of_getElem? jump
          obtain ⟨-, ⟨label', pos, found', -, branch', inside⟩, -⟩ :=
            linked f ufun (le_refl _) found _ mem _ (List.mem_singleton_self _)
          cases labelled.symm.trans found'
          cases branch.symm.trans branch'
          omega
      | cfun c => cases user
      | special form => cases user

end AkLisp
