import AkLisp.Machine.Run

/-!
# What the calls in progress have on the stack

The machine is observed with a tally: for each C call in progress, down to a
chosen user function, the number of values it has put on the stack and not
taken back.  A step that takes more than the running call has is not tallied.
As long as every step is, the stack is the one the chosen function began with
and above it, for each call in progress, the arguments it has not taken and the
values of its tally.
-/

namespace AkLisp

open Linked

/-- The context of a C call. -/
def Activation.context : Activation → Context
  | .branch cx _ | .cfun cx _ | .await cx _ => cx

namespace Machine

/-- A call returns and leaves `own` values to its caller. -/
def tallyReturn (own : Nat) : List Nat → Option (List Nat)
  | [] => none
  | caller :: owns => some ((caller + own) :: owns)

/-- A value is popped. -/
def tallyPop (own : Nat) (owns : List Nat) : Option (List Nat) :=
  if own = 0 then none else some ((own - 1) :: owns)

/-- A function is called with arguments off the stack. -/
def tallyCall (m : Machine) (fn : FRef) (argc own : Nat) (owns : List Nat) :
    Option (List Nat) :=
  if argc ≤ own ∧ argc < 2 ^ 31 then
    match m.funs[fn]? with
    | some (.cfun _) | some (.user _) => some (0 :: (own - argc) :: owns)
    | _ => some ((own - argc) :: owns)
  else none

/-- The tally behind an instruction. -/
def tallyInstr (m : Machine) (cx : Context) (own : Nat) (owns : List Nat) :
    Instr → Option (List Nat)
  | .nop | .ret | .set _ | .jmp _ => some (own :: owns)
  | .get _ | .push (some _) => some ((own + 1) :: owns)
  | .push none => tallyReturn own owns
  | .load ind =>
      some ((if (aklFrameAt m.stack cx.cxFrame ind).isSome then own + 1 else own) :: owns)
  | .jt _ | .jn _ | .branch _ _ => tallyPop own owns
  | .call sym fn argc =>
      match m.aklBoundFunction sym fn with
      | .error _ => some (own :: owns)
      | .ok fn => m.tallyCall fn argc own owns

/-- The tally behind a step of a C function. -/
def tallyCfun (m : Machine) (own : Nat) (owns : List Nat) : CProg → Option (List Nat)
  | .ret none => tallyReturn own owns
  | .ret (some _) => tallyReturn (own + 1) owns
  | .shift _ | .pop _ | .read _ | .write _ _ | .raise _ _ _ => some (own :: owns)
  | .push _ _ => some ((own + 1) :: owns)
  | .stackPop _ => tallyPop own owns
  | .call _ fn argc _ => m.tallyCall fn argc own owns
  | .abort => none

/-- The tally behind a step. -/
def tally (m : Machine) : List Nat → Option (List Nat)
  | [] => none
  | own :: owns =>
      match m.control with
      | [] | .await _ _ :: _ => none
      | .branch cx ip :: _ =>
          match ip.bind (fetch m.funs) with
          | none => tallyReturn own owns
          | some instr => m.tallyInstr cx own owns instr
      | .cfun _ prog :: _ => m.tallyCfun own owns prog

/-- A run all of whose steps are tallied. -/
inductive Tallied : Machine → List Nat → Machine → List Nat → Prop where
  | refl {m owns} : Tallied m owns m owns
  | head {m owns m₁ owns₁ m' owns'} (stepEq : step m = some m₁)
      (tallyEq : m.tally owns = some owns₁) (others : Tallied m₁ owns₁ m' owns') :
      Tallied m owns m' owns'

/-- The stack over `floor`, on which the body of a user function began: what
each call in progress has there. -/
inductive Layers (cx : Context) (rest : List Activation) (floor : List (Cell VRef)) :
    List Nat → List Activation → List (Cell VRef) → Prop where
  | body {ip own} : Layers cx rest floor [own.length] (.branch cx ip :: rest) (floor ++ own)
  | call {owns control cells act taken own} (below : Layers cx rest floor owns control cells)
      (on : FrameOn act.context.cxFrame taken) :
      Layers cx rest floor (own.length :: owns) (act :: control) (cells ++ taken ++ own)

/-- A machine with the layers of a tally on its stack. -/
def Layered (cx : Context) (rest : List Activation) (floor : List (Cell VRef)) (m : Machine)
    (owns : List Nat) : Prop :=
  ∃ cells, Layers cx rest floor owns m.control cells ∧ m.stack.Holds cells

/-- How a C call goes on with the same context. -/
inductive Continues : Activation → Activation → Prop where
  | branch {cx ip ip'} : Continues (.branch cx ip) (.branch cx ip')
  | cfun {cx prog prog'} : Continues (.cfun cx prog) (.cfun cx prog')
  | await {cx prog k} : Continues (.cfun cx prog) (.await cx k)
  | resume {cx k prog} : Continues (.await cx k) (.cfun cx prog)

theorem Continues.context_eq {act act' : Activation} (continues : Continues act act') :
    act'.context = act.context := by
  cases continues <;> rfl

variable {cx : Context} {rest : List Activation} {floor cells : List (Cell VRef)}
  {m m' : Machine} {own : Nat} {owns owns' : List Nat} {act act' : Activation}
  {control : List Activation}

/-- The body begins. -/
theorem Layers.begin (ip : Option EntryRef) :
    Layers cx rest floor [0] (.branch cx ip :: rest) floor := by
  have layers : Layers cx rest floor [([] : List (Cell VRef)).length] (.branch cx ip :: rest)
      (floor ++ []) := .body
  rw [List.append_nil] at layers
  exact layers

/-- The values of the running call are on top, and it can exchange them. -/
theorem Layers.top (layers : Layers cx rest floor (own :: owns) (act :: control) cells) :
    ∃ base top, cells = base ++ top ∧ top.length = own ∧
      ∀ act' top', Continues act act' →
        Layers cx rest floor (List.length top' :: owns) (act' :: control) (base ++ top') := by
  cases layers with
  | body =>
      refine ⟨_, _, rfl, rfl, ?_⟩
      intro act' top' continues
      cases continues with
      | branch => exact .body
  | call below on =>
      refine ⟨_, _, rfl, rfl, ?_⟩
      intro act' top' continues
      exact .call below (continues.context_eq ▸ on)

/-- A call that another one waits for. -/
theorem Layers.caller {caller : Nat}
    (layers : Layers cx rest floor (own :: caller :: owns) (act :: control) cells) :
    ∃ base taken top, cells = base ++ taken ++ top ∧ top.length = own ∧
      FrameOn act.context.cxFrame taken ∧ Layers cx rest floor (caller :: owns) control base := by
  cases layers with
  | call below on => exact ⟨_, _, _, rfl, rfl, on, below⟩

/-- The bottom of the layers is a user function. -/
theorem Layers.cfun {fcx : Context} {prog : CProg}
    (layers : Layers cx rest floor (own :: owns) (.cfun fcx prog :: control) cells) :
    ∃ base taken top, cells = base ++ taken ++ top ∧ top.length = own ∧
      FrameOn fcx.cxFrame taken ∧ Layers cx rest floor owns control base := by
  cases layers with
  | call below on => exact ⟨_, _, _, rfl, rfl, on, below⟩

/-- Only the body at the bottom is running. -/
theorem Layers.only (layers : Layers cx rest floor [own] control cells) :
    ∃ ip top, control = .branch cx ip :: rest ∧ cells = floor ++ top ∧ top.length = own := by
  cases layers with
  | body => exact ⟨_, _, rfl, rfl, rfl⟩
  | call none => cases none

/-- The values a call leaves become values of its caller. -/
theorem Layers.resume {base : List (Cell VRef)} (value : Option VRef)
    (layers : Layers cx rest floor (own :: owns) control base) (left : List (Cell VRef)) :
    Layers cx rest floor ((own + left.length) :: owns) (Machine.resume value control)
      (base ++ left) := by
  cases control with
  | nil => cases layers
  | cons act control =>
      obtain ⟨base', top, rfl, rfl, exchange⟩ := layers.top
      rw [List.append_assoc, ← List.length_append]
      cases act with
      | branch => exact exchange _ _ .branch
      | cfun => exact exchange _ _ .cfun
      | await => exact exchange _ _ .resume

namespace Layered

theorem same (layered : Layered cx rest floor m (own :: owns))
    (controlEq : m.control = act :: control)
    (continues : Continues act act') (controlEq' : m'.control = act' :: control)
    (stackEq : m'.stack = m.stack) : Layered cx rest floor m' (own :: owns) := by
  obtain ⟨cells, layers, holds⟩ := layered
  rw [controlEq] at layers
  obtain ⟨base, top, rfl, rfl, exchange⟩ := layers.top
  refine ⟨base ++ top, ?_, ?_⟩
  · rw [controlEq']
    exact exchange act' top continues
  · rw [stackEq]
    exact holds

theorem push {v : VRef} (layered : Layered cx rest floor m (own :: owns))
    (controlEq : m.control = act :: control) (continues : Continues act act')
    (controlEq' : m'.control = act' :: control) (stackEq : m'.stack = aklStackPush m.stack v) :
    Layered cx rest floor m' ((own + 1) :: owns) := by
  obtain ⟨cells, layers, holds⟩ := layered
  rw [controlEq] at layers
  obtain ⟨base, top, rfl, rfl, exchange⟩ := layers.top
  refine ⟨base ++ (top ++ [(m.stack.mem.top, v)]), ?_, ?_⟩
  · rw [controlEq']
    simpa using exchange act' (top ++ [(m.stack.mem.top, v)]) continues
  · rw [stackEq, ← List.append_assoc]
    exact holds.push v

theorem pop (layered : Layered cx rest floor m (own :: owns))
    (controlEq : m.control = act :: control) (continues : Continues act act')
    (tallyEq : tallyPop own owns = some owns') (controlEq' : m'.control = act' :: control)
    (stackEq : m'.stack = (aklStackPop m.stack).2) : Layered cx rest floor m' owns' := by
  obtain ⟨cells, layers, holds⟩ := layered
  rw [controlEq] at layers
  obtain ⟨base, top, rfl, rfl, exchange⟩ := layers.top
  rcases List.eq_nil_or_concat top with rfl | ⟨init, c, rfl⟩
  · simp [tallyPop] at tallyEq
  · rw [List.concat_eq_append] at *
    have ownsEq : init.length :: owns = owns' := by simpa [tallyPop] using tallyEq
    rw [← List.append_assoc] at holds
    obtain ⟨stack, popEq, holds'⟩ := holds.pop
    refine ⟨base ++ init, ?_, ?_⟩
    · rw [controlEq', ← ownsEq]
      exact exchange act' init continues
    · rw [stackEq, popEq]
      exact holds'

/-- A C function takes one of its arguments. -/
theorem take {fcx : Context} {prog prog' : CProg} (op : FrameOp)
    (layered : Layered cx rest floor m (own :: owns))
    (controlEq : m.control = .cfun fcx prog :: control)
    (controlEq' : m'.control =
      .cfun { fcx with cxFrame := (op.run m.stack fcx.cxFrame).2.2 } prog' :: control)
    (stackEq : m'.stack = (op.run m.stack fcx.cxFrame).2.1) :
    Layered cx rest floor m' (own :: owns) := by
  obtain ⟨cells, layers, holds⟩ := layered
  rw [controlEq] at layers
  obtain ⟨base, taken, top, rfl, rfl, on, below⟩ := layers.cfun
  obtain ⟨stack, frame, runEq, covers⟩ := Covers.run ⟨holds, on⟩ op
  rw [runEq] at controlEq' stackEq
  refine ⟨base ++ (op.take taken).2 ++ top, ?_, ?_⟩
  · rw [controlEq']
    exact .call below covers.on
  · rw [stackEq]
    exact covers.holds

/-- The running call returns: what is left of its arguments goes. -/
theorem leave {value : Option VRef} (layered : Layered cx rest floor m (own :: owns))
    (controlEq : m.control = act :: control) (tallyEq : tallyReturn own owns = some owns')
    (controlEq' : m'.control = Machine.resume value control)
    (stackEq : m'.stack = (aklFrameDestroy m.stack act.context.cxFrame).1) :
    Layered cx rest floor m' owns' := by
  obtain ⟨cells, layers, holds⟩ := layered
  rw [controlEq] at layers
  cases owns with
  | nil => cases tallyEq
  | cons caller owns =>
      cases tallyEq
      obtain ⟨base, taken, top, rfl, rfl, on, below⟩ := layers.caller
      obtain ⟨stack, frame, destroyEq, holds'⟩ := Covers.aklFrameDestroy ⟨holds, on⟩
      refine ⟨base ++ top, ?_, ?_⟩
      · rw [controlEq']
        exact below.resume value top
      · rw [stackEq, destroyEq]
        exact holds'

/-- A function is called with the topmost values of the running call. -/
theorem call {name : String} {fn : FRef} {argc : Nat}
    (layered : Layered cx rest floor m (own :: owns)) (controlEq : m.control = act :: control)
    (continues : Continues act act') (tallyEq : m.tallyCall fn argc own owns = some owns') :
    Layered cx rest floor (m.aklCallFunctionBound name fn argc (act' :: control)) owns' := by
  obtain ⟨cells, layers, holds⟩ := layered
  rw [controlEq] at layers
  obtain ⟨base, top, rfl, rfl, exchange⟩ := layers.top
  rw [tallyCall] at tallyEq
  split at tallyEq
  case isFalse => cases tallyEq
  case isTrue enough =>
    obtain ⟨kept, args, rfl, argsLength⟩ : ∃ kept args, top = kept ++ args ∧ args.length = argc :=
      ⟨top.take (top.length - argc), top.drop (top.length - argc), by simp, by
        rw [List.length_drop]
        omega⟩
    have keptLength : (kept ++ args).length - argc = kept.length := by
      rw [List.length_append]
      omega
    rw [keptLength] at tallyEq
    rw [← List.append_assoc] at holds
    have covers := holds.aklInitFrame (argsLength ▸ enough.2)
    rw [argsLength] at covers
    have below := exchange act' kept continues
    have refused : Layered cx rest floor
        { m with
          stack := (aklFrameDestroy m.stack (aklInitFrame m.stack argc)).1
          control := Machine.resume none (act' :: control) } (kept.length :: owns) := by
      obtain ⟨stack, frame, destroyEq, holds'⟩ := covers.aklFrameDestroy
      refine ⟨base ++ kept, ?_, ?_⟩
      · simpa using below.resume none []
      · rw [destroyEq]
        simpa using holds'
    have called (act : Activation) (contextEq : act.context = ⟨name, aklInitFrame m.stack argc⟩) :
        Layered cx rest floor { m with control := act :: act' :: control }
          (0 :: kept.length :: owns) := by
      have on : FrameOn act.context.cxFrame args := by
        rw [contextEq]
        exact covers.on
      have layers : Layers cx rest floor
        (List.length ([] : List (Cell VRef)) :: kept.length :: owns)
          (act :: act' :: control) (base ++ kept ++ args ++ []) := .call below on
      exact ⟨base ++ kept ++ args ++ [], layers, covers.holds⟩
    rw [aklCallFunctionBound]
    cases found : m.funs[fn]? with
    | none =>
        simp only [found] at tallyEq ⊢
        cases tallyEq
        exact refused
    | some callee =>
        cases callee with
        | cfun cfun =>
            simp only [found] at tallyEq ⊢
            cases tallyEq
            exact called (.cfun ⟨name, _⟩ (cfun argc)) rfl
        | user ufun =>
            simp only [found] at tallyEq ⊢
            cases tallyEq
            exact called (.branch ⟨name, _⟩ (some (fn, 0))) rfl
        | special form =>
            simp only [found] at tallyEq ⊢
            cases tallyEq
            exact refused

theorem instr {bcx : Context} {ip : EntryRef} {instr : Instr}
    (layered : Layered cx rest floor m (own :: owns))
    (controlEq : m.control = .branch bcx (some ip) :: control)
    (tallyEq : m.tallyInstr bcx own owns instr = some owns') :
    Layered cx rest floor (m.execInstr bcx ip control instr) owns' := by
  cases instr with
  | nop | ret =>
      cases tallyEq
      exact layered.same controlEq .branch rfl rfl
  | jmp l =>
      cases tallyEq
      exact layered.same controlEq .branch rfl rfl
  | set sym =>
      cases tallyEq
      rw [execInstr]
      cases aklStackTop m.stack with
      | none => exact layered.same controlEq .branch rfl rfl
      | some v => exact layered.same controlEq .branch rfl rfl
  | get sym =>
      cases tallyEq
      rw [execInstr]
      cases m.data.globals sym with
      | none => exact layered.push controlEq .branch rfl rfl
      | some v => exact layered.push controlEq .branch rfl rfl
  | push value =>
      cases value with
      | none => exact layered.leave controlEq tallyEq rfl rfl
      | some v =>
          cases tallyEq
          exact layered.push controlEq .branch rfl rfl
  | load ind =>
      rw [tallyInstr] at tallyEq
      rw [execInstr]
      cases found : aklFrameAt m.stack bcx.cxFrame ind with
      | none =>
          rw [found] at tallyEq
          cases tallyEq
          exact layered.same controlEq .branch rfl rfl
      | some v =>
          rw [found] at tallyEq
          cases tallyEq
          exact layered.push controlEq .branch rfl rfl
  | jt l | jn l => exact layered.pop controlEq .branch tallyEq rfl rfl
  | branch lt lf => exact layered.pop controlEq .branch tallyEq rfl rfl
  | call sym fn argc =>
      rw [tallyInstr] at tallyEq
      rw [execInstr]
      cases bound : m.aklBoundFunction sym fn with
      | error message =>
          rw [bound] at tallyEq
          cases tallyEq
          exact layered.same controlEq .branch rfl rfl
      | ok fn =>
          rw [bound] at tallyEq
          exact layered.call controlEq .branch tallyEq

theorem cfun {fcx : Context} {prog : CProg} (layered : Layered cx rest floor m (own :: owns))
    (controlEq : m.control = .cfun fcx prog :: control)
    (tallyEq : m.tallyCfun own owns prog = some owns') :
    Layered cx rest floor (m.execCfun fcx control prog) owns' := by
  cases prog with
  | ret value =>
      cases value with
      | none => exact layered.leave controlEq tallyEq rfl rfl
      | some v =>
          have pushed : Layered cx rest floor { m with stack := aklStackPush m.stack v }
              ((own + 1) :: owns) := layered.push controlEq .cfun controlEq rfl
          exact pushed.leave controlEq tallyEq rfl rfl
  | shift k =>
      cases tallyEq
      exact layered.take .shift controlEq rfl rfl
  | pop k =>
      cases tallyEq
      exact layered.take .pop controlEq rfl rfl
  | push value k =>
      cases tallyEq
      exact layered.push controlEq .cfun rfl rfl
  | stackPop k => exact layered.pop controlEq .cfun tallyEq rfl rfl
  | read k =>
      cases tallyEq
      exact layered.same controlEq .cfun rfl rfl
  | write f k =>
      cases tallyEq
      exact layered.same controlEq .cfun rfl rfl
  | call name fn argc k => exact layered.call controlEq .await tallyEq
  | raise level message k =>
      cases tallyEq
      exact layered.same controlEq .cfun rfl rfl
  | abort => cases tallyEq

/-- A tallied step. -/
theorem step (layered : Layered cx rest floor m owns) (stepEq : Machine.step m = some m')
    (tallyEq : m.tally owns = some owns') : Layered cx rest floor m' owns' := by
  cases owns with
  | nil => cases tallyEq
  | cons own owns =>
      cases controlEq : m.control with
      | nil => simp [tally, controlEq] at tallyEq
      | cons act control =>
          cases act with
          | await acx k => simp [tally, controlEq] at tallyEq
          | branch bcx ip =>
              simp only [tally, controlEq] at tallyEq
              cases fetched : ip.bind (fetch m.funs) with
              | none =>
                  rw [fetched] at tallyEq
                  have returnEq : m.returnBranch bcx control = m' := by
                    cases ip with
                    | none => simpa [Machine.step, controlEq] using stepEq
                    | some ip =>
                        rw [Option.bind_some] at fetched
                        simpa [Machine.step, controlEq, fetched] using stepEq
                  subst returnEq
                  exact layered.leave controlEq tallyEq rfl rfl
              | some instr =>
                  rw [fetched] at tallyEq
                  obtain ⟨ip, rfl, found⟩ := Option.bind_eq_some_iff.mp fetched
                  have execEq : m.execInstr bcx ip control instr = m' := by
                    simp only [Machine.step, controlEq, found] at stepEq
                    exact Option.some.inj stepEq
                  subst execEq
                  exact layered.instr controlEq tallyEq
          | cfun fcx prog =>
              simp only [tally, controlEq] at tallyEq
              have execEq : m.execCfun fcx control prog = m' := by
                simpa [Machine.step, controlEq] using stepEq
              subst execEq
              exact layered.cfun controlEq tallyEq

end Layered

/-- A tallied run. -/
theorem Tallied.layered (tallied : Tallied m owns m' owns')
    (layered : Layered cx rest floor m owns) : Layered cx rest floor m' owns' := by
  induction tallied with
  | refl => exact layered
  | head stepEq tallyEq others ih => exact ih (layered.step stepEq tallyEq)

end Machine

end AkLisp
