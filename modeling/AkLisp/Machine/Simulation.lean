import AkLisp.Machine.Run

/-!
# Compiled code does what the evaluator says

By induction on the evaluation: a run of the code of an expression pushes its
value and changes the data as the evaluator does, whatever lies on the stack
below and whatever C calls are in progress, provided the evaluation notes no
slip.  The frame of the enclosing function keeps covering its arguments while
values are pushed above them.
-/

namespace AkLisp

open Linked Machine

/-- The functions of the machine are those of the program. -/
structure Implements (funs : List AklFunction) (Γ : Program) : Prop where
  cfun : ∀ {fn cfun}, Γ fn = some (.cfun cfun) → funs[fn]? = some (.cfun cfun)
  user : ∀ {fn argc body}, Γ fn = some (.user argc body) →
    ∃ ufun, funs[fn]? = some (.user ufun) ∧ ufun.ufArgs.length = argc ∧
      ufun.ufBody = body.code fn 0 ++ [.nop] ∧
      ufun.ufLabels = boundLabels fn 0 (body.binds 0)

theorem boundLabels_branch (f : FRef) (lc : Nat) (binds : List Nat) :
    (boundLabels f lc binds).map Label.laBranch = binds.map fun pos => some (f, pos) := by
  apply List.ext_getElem?
  intro i
  simp [boundLabels, boundLabel, Function.comp_def]

/-- The code of a user function of the program. -/
theorem Implements.code {funs : List AklFunction} {Γ : Program} (impl : Implements funs Γ)
    {fn argc body} (callee : Γ fn = some (.user argc body)) :
    (∃ ufun, funs[fn]? = some (.user ufun)) ∧ CodeAt funs fn 0 (body.code fn 0) ∧
      CodeAt funs fn body.size [.nop] ∧ LabelsAt funs fn 0 (body.binds 0) ∧
      Machine.fetch funs (fn, body.size + 1) = none := by
  obtain ⟨ufun, found, -, bodyEq, labelsEq⟩ := impl.user callee
  have ufunEq : ufun? funs fn = some ufun := by simp [ufun?, found, AklFunction.ufun?]
  have whole : CodeAt funs fn 0 (body.code fn 0 ++ [.nop]) := by
    refine ⟨ufun, ufunEq, ?_⟩
    rw [bodyEq]
    simpa using SegmentAt.of_append [] (body.code fn 0 ++ [.nop]) []
  rw [CodeAt.append, Expr.code_length, Nat.zero_add] at whole
  refine ⟨⟨ufun, found⟩, whole.1, whole.2, ⟨ufun, ufunEq, ?_⟩, ?_⟩
  · rw [labelsEq, boundLabels_branch]
    simpa using SegmentAt.of_append [] ((body.binds 0).map fun pos => some (fn, pos)) []
  · simp [Machine.fetch, ufunEq, bodyEq]

/-- The frame covers the arguments of the running function, with the values
`ps`, somewhere on the stack. -/
def FrameArgs (frame : AklList) (cells : List (Cell VRef)) (ps : List VRef) : Prop :=
  ∃ below args above, cells = below ++ args ++ above ∧ FrameOn frame args ∧
    args.map Prod.snd = ps

theorem FrameArgs.push {frame : AklList} {cells : List (Cell VRef)} {ps : List VRef}
    (frameArgs : FrameArgs frame cells ps) (new : List (Cell VRef)) :
    FrameArgs frame (cells ++ new) ps := by
  obtain ⟨below, args, above, rfl, on, values⟩ := frameArgs
  exact ⟨below, args, above ++ new, by simp, on, values⟩

/-- Reading a parameter that was given. -/
theorem FrameArgs.load {frame : AklList} {cells : List (Cell VRef)} {ps : List VRef}
    (frameArgs : FrameArgs frame cells ps) {s : StackState VRef} (holds : s.Holds cells)
    {k : Nat} {v : VRef} (given : ps[k]? = some v) : aklFrameAt s frame k = some v := by
  obtain ⟨below, args, above, rfl, on, rfl⟩ := frameArgs
  have bound : k < args.length := by
    simpa using (List.getElem?_eq_some_iff.mp given).1
  have nonempty : args ≠ [] := by
    rintro rfl
    simp at bound
  rw [Covers.aklFrameAt ⟨holds, on⟩ nonempty, List.getElem?_append_left bound, ← given,
    List.getElem?_map]

/-- What the run of a task has to achieve. -/
def Simulated (funs : List AklFunction) (d : Data) (vs : List VRef) (d' : Data) : Task → Prop
  | .expr ps e => ∀ (m : Machine) (f : FRef) (pos lc : Nat) (cx : Context)
      (rest : List Activation) (cells : List (Cell VRef)),
      CodeAt funs f pos (e.code f lc) → LabelsAt funs f lc (e.binds pos) →
      FrameArgs cx.cxFrame cells ps → m.At funs d cells (.branch cx (some (f, pos)) :: rest) →
      m.Yields funs d' cells vs (.branch cx (some (f, pos + e.size)) :: rest)
  | .args ps es => ∀ (m : Machine) (f : FRef) (pos lc : Nat) (cx : Context)
      (rest : List Activation) (cells : List (Cell VRef)),
      CodeAt funs f pos (es.code f lc) → LabelsAt funs f lc (es.binds pos) →
      FrameArgs cx.cxFrame cells ps → m.At funs d cells (.branch cx (some (f, pos)) :: rest) →
      m.Yields funs d' cells vs (.branch cx (some (f, pos + es.size)) :: rest)
  | .loop ps c a done => ∀ (m : Machine) (f : FRef) (pos lc : Nat) (cx : Context)
      (rest : List Activation) (cells new : List (Cell VRef)),
      CodeAt funs f pos ((Expr.swhile c a).code f lc) →
      LabelsAt funs f lc ((Expr.swhile c a).binds pos) →
      FrameArgs cx.cxFrame cells ps → new.map Prod.snd = done →
      m.At funs d (cells ++ new) (.branch cx (some (f, pos)) :: rest) →
      m.Yields funs d' cells vs (.branch cx (some (f, pos + (Expr.swhile c a).size)) :: rest)
  | .apply fn args => ∀ (m : Machine) (name : String) (rest control : List Activation)
      (cells new : List (Cell VRef)),
      new.map Prod.snd = args → m.At funs d (cells ++ new) control →
      (m.aklCallFunctionBound name fn args.length rest).Yields funs d' cells vs
        (resume vs.head? rest)
  | .cprog prog args own => ∀ (m : Machine) (cx : Context) (rest : List Activation)
      (cells left above : List (Cell VRef)),
      left.map Prod.snd = args → above.map Prod.snd = own → FrameOn cx.cxFrame left →
      m.At funs d (cells ++ left ++ above) (.cfun cx prog :: rest) →
      m.Yields funs d' cells vs (resume vs.head? rest)

section Cases

variable {funs : List AklFunction} {m : Machine} {d d₁ d₂ : Data} {cells : List (Cell VRef)}
  {ps : List VRef} {c a b : Expr} {w v : VRef} {f : FRef} {pos lc : Nat} {cx : Context}
  {rest : List Activation}

/-- The condition of a form with the jump behind it: the condition is gone from
the stack, and the jump is taken exactly when it was `NIL`. -/
theorem condition_run {l : LabelRef} (sim : Simulated funs d [w] d₁ (.expr ps c))
    (code : CodeAt funs f pos (c.code f lc)) (jump : CodeAt funs f (pos + c.size) [.jn l])
    (labels : LabelsAt funs f lc (c.binds pos)) (frameArgs : FrameArgs cx.cxFrame cells ps)
    (at_ : m.At funs d cells (.branch cx (some (f, pos)) :: rest)) :
    ∃ m', Reaches m m' ∧ m'.At funs d₁ cells
      (.branch cx (if d₁.isNil (some w) then Machine.target funs l
        else some (f, pos + c.size + 1)) :: rest) := by
  obtain ⟨m₁, a, reaches₁, at₁⟩ := (sim m f pos lc cx rest cells code labels frameArgs at_).pushed
  obtain ⟨m₂, reaches₂, at₂⟩ := (at₁.jn jump).silent
  exact ⟨m₂, reaches₁.trans reaches₂, at₂⟩

theorem sif_size (pos : Nat) (c a b : Expr) :
    pos + (Expr.sif c a b).size = pos + c.size + 1 + a.size + 1 + b.size := by
  simp only [Expr.size]
  omega

theorem sif_true (cond : Simulated funs d [w] d₁ (.expr ps c))
    (holds : d₁.isNil (some w) = false) (body : Simulated funs d₁ [v] d₂ (.expr ps a)) :
    Simulated funs d [v] d₂ (.expr ps (.sif c a b)) := by
  intro m f pos lc cx rest cells code labels frameArgs at_
  simp only [Expr.code, CodeAt.append, Expr.code_length, List.length_singleton] at code
  obtain ⟨codeC, jump, codeA, leave, -⟩ := code
  simp only [Expr.binds, List.cons_append, List.nil_append, LabelsAt.cons (_ :: _),
    LabelsAt.cons (_ ++ _), LabelsAt.append, Expr.binds_length] at labels
  obtain ⟨behind, -, labelsC, labelsA, -⟩ := labels
  obtain ⟨m₁, reaches₁, at₁⟩ := condition_run cond codeC jump labelsC frameArgs at_
  rw [holds] at at₁
  obtain ⟨m₂, x, reaches₂, at₂⟩ :=
    (body m₁ f _ _ cx rest cells codeA labelsA frameArgs at₁).pushed
  obtain ⟨m₃, reaches₃, at₃⟩ := (at₂.jmp leave behind.target).silent
  rw [sif_size]
  exact ⟨m₃, [(x, v)], reaches₁.trans (reaches₂.trans reaches₃), rfl, at₃⟩

theorem sif_false (cond : Simulated funs d [w] d₁ (.expr ps c))
    (fails : d₁.isNil (some w) = true) (body : Simulated funs d₁ [v] d₂ (.expr ps b)) :
    Simulated funs d [v] d₂ (.expr ps (.sif c a b)) := by
  intro m f pos lc cx rest cells code labels frameArgs at_
  simp only [Expr.code, CodeAt.append, Expr.code_length, List.length_singleton] at code
  obtain ⟨codeC, jump, -, -, codeB⟩ := code
  simp only [Expr.binds, List.cons_append, List.nil_append, LabelsAt.cons (_ :: _),
    LabelsAt.cons (_ ++ _), LabelsAt.append, Expr.binds_length] at labels
  obtain ⟨-, other, labelsC, -, labelsB⟩ := labels
  obtain ⟨m₁, reaches₁, at₁⟩ := condition_run cond codeC jump labelsC frameArgs at_
  rw [fails, if_pos rfl, other.target] at at₁
  obtain ⟨m₂, x, reaches₂, at₂⟩ :=
    (body m₁ f _ _ cx rest cells codeB labelsB frameArgs at₁).pushed
  rw [sif_size]
  exact ⟨m₂, [(x, v)], reaches₁.trans reaches₂, rfl, at₂⟩

theorem set_value {x : Symbol} {e : Expr} (rhs : Simulated funs d [v] d₁ (.expr ps e)) :
    Simulated funs d [v] (d₁.aklSetGlobalVar x v) (.expr ps (.set x e)) := by
  intro m f pos lc cx rest cells code labels frameArgs at_
  simp only [Expr.code, CodeAt.append, Expr.code_length] at code
  simp only [Expr.binds] at labels
  obtain ⟨m₁, y, reaches₁, at₁⟩ := (rhs m f pos lc cx rest cells code.1 labels frameArgs at_).pushed
  obtain ⟨m₂, reaches₂, at₂⟩ := (at₁.set code.2).silent
  exact ⟨m₂, [(y, v)], reaches₁.trans reaches₂, rfl, at₂⟩

theorem when_true (cond : Simulated funs d [w] d₁ (.expr ps c))
    (holds : d₁.isNil (some w) = false) (body : Simulated funs d₁ [v] d₂ (.expr ps a)) :
    Simulated funs d [v] d₂ (.expr ps (.when c a)) := by
  intro m f pos lc cx rest cells code labels frameArgs at_
  simp only [Expr.code, CodeAt.append, Expr.code_length, List.length_singleton] at code
  obtain ⟨codeC, jump, codeA⟩ := code
  simp only [Expr.binds, List.cons_append, List.nil_append,
    LabelsAt.cons (_ ++ _), LabelsAt.append, Expr.binds_length] at labels
  obtain ⟨-, labelsC, labelsA⟩ := labels
  obtain ⟨m₁, reaches₁, at₁⟩ := condition_run cond codeC jump labelsC frameArgs at_
  rw [holds] at at₁
  obtain ⟨m₂, x, reaches₂, at₂⟩ :=
    (body m₁ f _ _ cx rest cells codeA labelsA frameArgs at₁).pushed
  have sizeEq : pos + (Expr.when c a).size = pos + c.size + 1 + a.size := by
    simp only [Expr.size]
    omega
  rw [sizeEq]
  exact ⟨m₂, [(x, v)], reaches₁.trans reaches₂, rfl, at₂⟩

theorem swhile_size (pos : Nat) (c a : Expr) :
    pos + (Expr.swhile c a).size = pos + c.size + 1 + a.size + 1 := by
  simp only [Expr.size]
  omega

/-- The condition fails behind as many rounds as there are values on the stack. -/
theorem loop_end {done : List VRef} (cond : Simulated funs d [w] d₁ (.expr ps c))
    (fails : d₁.isNil (some w) = true) :
    Simulated funs d done d₁ (.loop ps c a done) := by
  intro m f pos lc cx rest cells new code labels frameArgs values at_
  simp only [Expr.code, CodeAt.append, Expr.code_length, List.length_singleton] at code
  obtain ⟨codeC, jump, -, -⟩ := code
  simp only [Expr.binds, List.cons_append, List.nil_append, LabelsAt.cons (_ :: _),
    LabelsAt.cons (_ ++ _), LabelsAt.append, Expr.binds_length] at labels
  obtain ⟨-, behind, labelsC, -⟩ := labels
  obtain ⟨m₁, reaches₁, at₁⟩ := condition_run cond codeC jump labelsC (frameArgs.push new) at_
  rw [fails, if_pos rfl, behind.target] at at₁
  rw [swhile_size]
  exact ⟨m₁, new, reaches₁, values, at₁⟩

/-- A round of the loop: the value of the body stays on the stack. -/
theorem loop_round {done vs : List VRef} {u : VRef} {d₃ : Data}
    (cond : Simulated funs d [w] d₁ (.expr ps c)) (holds : d₁.isNil (some w) = false)
    (body : Simulated funs d₁ [u] d₂ (.expr ps a))
    (rounds : Simulated funs d₂ vs d₃ (.loop ps c a (done ++ [u]))) :
    Simulated funs d vs d₃ (.loop ps c a done) := by
  intro m f pos lc cx rest cells new code labels frameArgs values at_
  have whole := code
  have binds := labels
  simp only [Expr.code, CodeAt.append, Expr.code_length, List.length_singleton] at code
  obtain ⟨codeC, jump, codeA, back⟩ := code
  simp only [Expr.binds, List.cons_append, List.nil_append, LabelsAt.cons (_ :: _),
    LabelsAt.cons (_ ++ _), LabelsAt.append, Expr.binds_length] at labels
  obtain ⟨start, -, labelsC, labelsA⟩ := labels
  obtain ⟨m₁, reaches₁, at₁⟩ := condition_run cond codeC jump labelsC (frameArgs.push new) at_
  rw [holds] at at₁
  obtain ⟨m₂, x, reaches₂, at₂⟩ :=
    (body m₁ f _ _ cx rest _ codeA labelsA (frameArgs.push new) at₁).pushed
  obtain ⟨m₃, reaches₃, at₃⟩ := (at₂.jmp back start.target).silent
  rw [List.append_assoc] at at₃
  refine .of_reaches (reaches₁.trans (reaches₂.trans reaches₃)) ?_
  exact rounds m₃ f pos lc cx rest cells (new ++ [(x, u)]) whole binds frameArgs
    (by rw [List.map_append, values]; rfl) at₃

theorem args_cons {e : Expr} {es : Args} {vs : List VRef}
    (first : Simulated funs d [v] d₁ (.expr ps e))
    (others : Simulated funs d₁ vs d₂ (.args ps es)) :
    Simulated funs d (v :: vs) d₂ (.args ps (.cons e es)) := by
  intro m f pos lc cx rest cells code labels frameArgs at_
  simp only [Args.code, CodeAt.append, Expr.code_length] at code
  simp only [Args.binds, LabelsAt.append, Expr.binds_length] at labels
  obtain ⟨m₁, x, reaches₁, at₁⟩ :=
    (first m f pos lc cx rest cells code.1 labels.1 frameArgs at_).pushed
  obtain ⟨m₂, new, reaches₂, values, at₂⟩ :=
    others m₁ f _ _ cx rest _ code.2 labels.2 (frameArgs.push _) at₁
  refine ⟨m₂, (x, v) :: new, reaches₁.trans reaches₂, by rw [List.map_cons, values], ?_⟩
  rw [List.append_assoc, List.singleton_append] at at₂
  simpa only [Args.size, Nat.add_assoc] using at₂

/-- A call: the arguments, then the function on a frame over them. -/
theorem call_value {name : Symbol} {prefetched : Option FRef} {es : Args} {vs : List VRef}
    {r : VRef} {fn : FRef} (lengthEq : vs.length = es.length)
    (args : Simulated funs d vs d₁ (.args ps es))
    (bound : d₁.globals name = some r) (function : d₁.function? r = some fn)
    (keeps : prefetched = none ∨ prefetched = some fn)
    (applied : Simulated funs d₁ [v] d₂ (.apply fn vs)) :
    Simulated funs d [v] d₂ (.expr ps (.call name prefetched es)) := by
  intro m f pos lc cx rest cells code labels frameArgs at_
  simp only [Expr.code, CodeAt.append, Args.code_length] at code
  simp only [Expr.binds] at labels
  obtain ⟨m₁, new, reaches₁, values, at₁⟩ :=
    args m f pos lc cx rest cells code.1 labels frameArgs at_
  have boundEq : m₁.aklBoundFunction name prefetched = .ok fn := by
    rcases keeps with rfl | rfl
    · simp [aklBoundFunction, at₁.data_eq, bound, function]
    · rfl
  have stepEq := at₁.step_instr code.2
  simp only [execInstr, boundEq] at stepEq
  refine .of_reaches reaches₁ (.of_step stepEq ?_)
  rw [← lengthEq]
  exact applied m₁ name.text _ _ cells new values at₁

/-- A user function runs on a frame over its arguments and leaves its value in
their place. -/
theorem apply_user {Γ : Program} (impl : Implements funs Γ) {fn : FRef} {args : List VRef}
    {body : Expr} (callee : Γ fn = some (.user args.length body))
    (intArgc : args.length < 2 ^ 31) (value : Simulated funs d [v] d₁ (.expr args body)) :
    Simulated funs d [v] d₁ (.apply fn args) := by
  intro m name rest control cells new values at_
  obtain ⟨⟨ufun, found⟩, code, nop, labels, last⟩ := impl.code callee
  have lengthEq : new.length = args.length := by rw [← values, List.length_map]
  have covers := at_.holds.aklInitFrame (by rw [lengthEq]; exact intArgc)
  rw [lengthEq] at covers
  rw [← at_.funs_eq] at found
  simp only [aklCallFunctionBound, found]
  have frameArgs : FrameArgs (aklInitFrame m.stack args.length) (cells ++ new) args :=
    ⟨cells, new, [], by simp, covers.on, values⟩
  obtain ⟨m₁, x, reaches₁, at₁⟩ :=
    (value { m with control := .branch ⟨name, _⟩ (some (fn, 0)) :: rest } fn 0 0 _ rest _ code
      labels frameArgs ⟨at_.funs_eq, at_.data_eq, at_.holds, rfl⟩).pushed
  rw [Nat.zero_add] at at₁
  obtain ⟨m₂, reaches₂, at₂⟩ := (at₁.nop nop).silent
  obtain ⟨m₃, stepEq, at₃⟩ := at₂.return_branch covers.on last
  have topEq : aklStackTop m₂.stack = some v := by simp [at₂.holds.top]
  rw [topEq] at at₃
  exact ⟨m₃, [(x, v)], reaches₁.trans (reaches₂.tail stepEq), rfl, at₃⟩

theorem apply_cfun {Γ : Program} (impl : Implements funs Γ) {fn : FRef} {args : List VRef}
    {cfun : Nat → CProg} (callee : Γ fn = some (.cfun cfun)) (intArgc : args.length < 2 ^ 31)
    (value : Simulated funs d [v] d₁ (.cprog (cfun args.length) args [])) :
    Simulated funs d [v] d₁ (.apply fn args) := by
  intro m name rest control cells new values at_
  have found := impl.cfun callee
  have lengthEq : new.length = args.length := by rw [← values, List.length_map]
  have covers := at_.holds.aklInitFrame (by rw [lengthEq]; exact intArgc)
  rw [lengthEq] at covers
  rw [← at_.funs_eq] at found
  simp only [aklCallFunctionBound, found]
  refine value _ _ rest cells new [] values rfl covers.on ⟨at_.funs_eq, at_.data_eq, ?_, rfl⟩
  simpa using at_.holds

/-- Taking an argument in a C function. -/
theorem cprog_take (op : FrameOp) {k : Option VRef → CProg} {prog : CProg}
    {args own : List VRef}
    (exec : ∀ (m : Machine) cx rest, m.execCfun cx rest prog =
      { m with
        stack := (op.run m.stack cx.cxFrame).2.1
        control := .cfun { cx with cxFrame := (op.run m.stack cx.cxFrame).2.2 }
          (k (op.run m.stack cx.cxFrame).1) :: rest })
    (next : Simulated funs d [v] d₁ (.cprog (k (op.take args).1) (op.take args).2 own)) :
    Simulated funs d [v] d₁ (.cprog prog args own) := by
  intro m cx rest cells left above values ownValues on at_
  obtain ⟨s', frame', runEq, covers⟩ := Covers.run ⟨at_.holds, on⟩ op
  have stepEq : step m = some (m.execCfun cx rest prog) := by
    rw [step, at_.control_eq]
  have tookEq : op.take args = ((op.take left).1.map Prod.snd, (op.take left).2.map Prod.snd) := by
    rw [← values]
    cases op <;> simp [FrameOp.take]
  rw [tookEq] at next
  refine .of_step stepEq ?_
  rw [exec, runEq]
  exact next _ _ rest cells _ above rfl ownValues covers.on
    ⟨at_.funs_eq, at_.data_eq, covers.holds, rfl⟩

theorem cprog_ret {args : List VRef} : Simulated funs d [v] d (.cprog (.ret (some v)) args []) := by
  intro m cx rest cells left above values ownValues on at_
  cases List.map_eq_nil_iff.mp ownValues
  obtain ⟨m', x, stepEq, at'⟩ := at_.return_cfun on
  refine ⟨m', [(x, v)], .single stepEq, rfl, ?_⟩
  rw [List.append_nil] at at'
  exact at'

theorem cprog_push {k : CProg} {args own : List VRef}
    (next : Simulated funs d [v] d₁ (.cprog k args (own ++ [w]))) :
    Simulated funs d [v] d₁ (.cprog (.push w k) args own) := by
  intro m cx rest cells left above values ownValues on at_
  have covers : Covers m.stack cx.cxFrame cells left above := ⟨at_.holds, on⟩
  have stepEq : step m = some (m.execCfun cx rest (.push w k)) := by
    rw [step, at_.control_eq]
  refine .of_step stepEq (next _ cx rest cells left (above ++ [(m.stack.mem.top, w)]) values ?_ on
    ⟨at_.funs_eq, at_.data_eq, (covers.push w).holds, rfl⟩)
  rw [List.map_append, ownValues]
  rfl

theorem cprog_stackPop {k : Option VRef → CProg} {args own : List VRef}
    (next : Simulated funs d [v] d₁ (.cprog (k (some w)) args own)) :
    Simulated funs d [v] d₁ (.cprog (.stackPop k) args (own ++ [w])) := by
  intro m cx rest cells left above values ownValues on at_
  obtain ⟨front, last, rfl, frontValues, lastValues⟩ := List.map_eq_append_iff.mp ownValues
  obtain ⟨c, rfl⟩ : ∃ c, last = [c] := by
    rw [← List.length_eq_one_iff, ← List.length_map Prod.snd, lastValues]
    rfl
  obtain rfl : c.2 = w := by simpa using lastValues
  have stepEq : step m = some (m.execCfun cx rest (.stackPop k)) := by
    rw [step, at_.control_eq]
  have holds : m.stack.Holds ((cells ++ left ++ front) ++ [c]) := by
    simpa using at_.holds
  obtain ⟨s', popEq, holds'⟩ := holds.pop
  refine .of_step stepEq ?_
  simp only [execCfun, popEq]
  exact next _ cx rest cells left front values frontValues on
    ⟨at_.funs_eq, at_.data_eq, holds', rfl⟩

theorem cprog_read {k : Data → CProg} {args own : List VRef}
    (next : Simulated funs d [v] d₁ (.cprog (k d) args own)) :
    Simulated funs d [v] d₁ (.cprog (.read k) args own) := by
  intro m cx rest cells left above values ownValues on at_
  have stepEq : step m = some (m.execCfun cx rest (.read k)) := by
    rw [step, at_.control_eq]
  refine .of_step stepEq (next _ cx rest cells left above values ownValues on
    ⟨at_.funs_eq, at_.data_eq, at_.holds, ?_⟩)
  rw [execCfun, at_.data_eq]

theorem cprog_write {g : Data → Data} {k : CProg} {args own : List VRef}
    (next : Simulated funs (g d) [v] d₁ (.cprog k args own)) :
    Simulated funs d [v] d₁ (.cprog (.write g k) args own) := by
  intro m cx rest cells left above values ownValues on at_
  have stepEq : step m = some (m.execCfun cx rest (.write g k)) := by
    rw [step, at_.control_eq]
  exact .of_step stepEq (next _ cx rest cells left above values ownValues on
    ⟨at_.funs_eq, congrArg g at_.data_eq, at_.holds, rfl⟩)

theorem cprog_raise {level : Level} {message : String → String} {k : CProg}
    {args own : List VRef} (next : Simulated funs d [v] d₁ (.cprog k args own)) :
    Simulated funs d [v] d₁ (.cprog (.raise level message k) args own) := by
  intro m cx rest cells left above values ownValues on at_
  have stepEq : step m = some (m.execCfun cx rest (.raise level message k)) := by
    rw [step, at_.control_eq]
  exact .of_step stepEq (next _ cx rest cells left above values ownValues on
    ⟨at_.funs_eq, at_.data_eq, at_.holds, rfl⟩)

/-- A C function calls back with arguments it has pushed and finds the value in
their place. -/
theorem cprog_callback {name : Option Symbol} {fn : FRef} {k : Option VRef → CProg}
    {args own vs : List VRef} (applied : Simulated funs d [w] d₁ (.apply fn vs))
    (next : Simulated funs d₁ [v] d₂ (.cprog (k (some w)) args (own ++ [w]))) :
    Simulated funs d [v] d₂ (.cprog (.call name fn vs.length k) args (own ++ vs)) := by
  intro m cx rest cells left above values ownValues on at_
  obtain ⟨front, new, rfl, frontValues, newValues⟩ := List.map_eq_append_iff.mp ownValues
  have stepEq : step m = some (m.execCfun cx rest (.call name fn vs.length k)) := by
    rw [step, at_.control_eq]
  have at' : m.At funs d ((cells ++ left ++ front) ++ new)
      (.cfun cx (.call name fn vs.length k) :: rest) := by
    rw [List.append_assoc (cells ++ left)]
    exact at_
  obtain ⟨m₁, x, reaches₁, at₁⟩ :=
    (applied m ((name.map Symbol.text).getD "lambda") (.await cx k :: rest) _ _ _ newValues
      at').pushed
  refine .of_step stepEq (.of_reaches reaches₁ ?_)
  rw [List.append_assoc (cells ++ left)] at at₁
  exact next m₁ cx rest cells left (front ++ [(x, w)]) values
    (by rw [List.map_append, frontValues]; rfl) on at₁

end Cases

/-- An argument list has as many values as arguments. -/
theorem Eval.args_length {Γ : Program} {ps : List VRef} {es : Args} {d d' : Data}
    {slips : List Slip} {vs : List VRef} (eval : Eval Γ (.args ps es) d slips vs d') :
    vs.length = es.length := by
  generalize taskEq : Task.args ps es = task at eval
  induction eval generalizing ps es with
  | argsNil => cases taskEq; rfl
  | argsCons first others _ ih =>
      cases taskEq
      rw [List.length_cons, ih rfl, Args.length]
  | _ => cases taskEq

/-- The run of a task follows its evaluation, if that notes no slip. -/
theorem Eval.simulated {funs : List AklFunction} {Γ : Program} (impl : Implements funs Γ)
    {task : Task} {d d' : Data} {slips : List Slip} {vs : List VRef}
    (eval : Eval Γ task d slips vs d') (clean : slips = []) :
    Simulated funs d vs d' task := by
  induction eval with
  | lit =>
      intro m f pos lc cx rest cells code labels frameArgs at_
      exact at_.push code
  | param found =>
      intro m f pos lc cx rest cells code labels frameArgs at_
      exact at_.load code (frameArgs.load at_.holds found)
  | globalBound found =>
      intro m f pos lc cx rest cells code labels frameArgs at_
      exact at_.get_bound code found
  | globalUndefined undefined =>
      intro m f pos lc cx rest cells code labels frameArgs at_
      exact at_.get_undefined code undefined
  | pushes => simp at clean
  | call args bound function keeps applied ihArgs ihApplied =>
      obtain ⟨cleanArgs, cleanApplied⟩ := List.append_eq_nil_iff.mp clean
      exact call_value args.args_length (ihArgs cleanArgs) bound function keeps
        (ihApplied cleanApplied)
  | sifTrue cond holds body ihCond ihBody =>
      obtain ⟨cleanCond, cleanBody⟩ := List.append_eq_nil_iff.mp clean
      exact sif_true (ihCond cleanCond) holds (ihBody cleanBody)
  | sifFalse cond fails body ihCond ihBody =>
      obtain ⟨cleanCond, cleanBody⟩ := List.append_eq_nil_iff.mp clean
      exact sif_false (ihCond cleanCond) fails (ihBody cleanBody)
  | set rhs ih => exact set_value (ih clean)
  | whenTrue cond holds body ihCond ihBody =>
      obtain ⟨cleanCond, cleanBody⟩ := List.append_eq_nil_iff.mp clean
      exact when_true (ihCond cleanCond) holds (ihBody cleanBody)
  | whenFalse cond fails ih => simp at clean
  | swhile rounds ih =>
      intro m f pos lc cx rest cells code labels frameArgs at_
      exact ih clean m f pos lc cx rest cells [] code labels frameArgs rfl (by simpa using at_)
  | @loopEnd ps c a d₀ s w d₁ done cond fails ih =>
      obtain ⟨cleanCond, once⟩ := List.append_eq_nil_iff.mp clean
      have single : done.length = 1 := by
        by_contra other
        simp [other] at once
      obtain ⟨v, rfl⟩ := List.length_eq_one_iff.mp single
      exact loop_end (ih cleanCond) fails
  | loopRound cond holds body rounds ihCond ihBody ihRounds =>
      obtain ⟨cleanFront, cleanRounds⟩ := List.append_eq_nil_iff.mp clean
      obtain ⟨cleanCond, cleanBody⟩ := List.append_eq_nil_iff.mp cleanFront
      exact loop_round (ihCond cleanCond) holds (ihBody cleanBody) (ihRounds cleanRounds)
  | argsNil =>
      intro m f pos lc cx rest cells code labels frameArgs at_
      exact at_.here
  | argsCons first others ihFirst ihOthers =>
      obtain ⟨cleanFirst, cleanOthers⟩ := List.append_eq_nil_iff.mp clean
      exact args_cons (ihFirst cleanFirst) (ihOthers cleanOthers)
  | applyUser callee intArgc value ih => exact apply_user impl callee intArgc (ih clean)
  | applyCfun callee intArgc value ih => exact apply_cfun impl callee intArgc (ih clean)
  | ret => exact cprog_ret
  | shift next ih => exact cprog_take .shift (fun _ _ _ => rfl) (ih clean)
  | pop next ih => exact cprog_take .pop (fun _ _ _ => rfl) (ih clean)
  | push next ih => exact cprog_push (ih clean)
  | stackPop next ih => exact cprog_stackPop (ih clean)
  | read next ih => exact cprog_read (ih clean)
  | write next ih => exact cprog_write (ih clean)
  | raise next ih => exact cprog_raise (ih clean)
  | callback applied next ihApplied ihNext =>
      obtain ⟨cleanApplied, cleanNext⟩ := List.append_eq_nil_iff.mp clean
      exact cprog_callback (ihApplied cleanApplied) (ihNext cleanNext)

end AkLisp
