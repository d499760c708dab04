import AkLisp.Machine.Run

/-!
# Built-ins that call back

A call is a run of the machine that ends when no C call is left; on top of other C calls
it is the same run, and then the first of these goes on.  `Trace` is what a built-in does
that calls a function back, pops the value and ignores the pointer that is returned.
-/

namespace AkLisp

open Linked

/-- The C function is about to call a function. -/
def CProg.IsCall : CProg → Prop
  | .call _ _ _ _ => True
  | _ => False

namespace Machine

variable {m m' m₁ : Machine} {rest tail : List Activation}

/-! ### A call on top of other calls -/

/-- The machine with `rest` below its C calls; if these have come to an end, the first of
`rest` goes on with the pointer that was returned. -/
def onTopOf (value : Option VRef) (rest : List Activation) (m : Machine) : Machine :=
  match m.control with
  | [] => { m with control := resume value rest }
  | act :: control => { m with control := act :: (control ++ rest) }

theorem onTopOf_nil (ended : m.control = []) (value : Option VRef) :
    m.onTopOf value rest = { m with control := resume value rest } := by
  simp only [onTopOf, ended]

theorem onTopOf_cons {act : Activation} {control : List Activation}
    (controlEq : m.control = act :: control) (value : Option VRef) :
    m.onTopOf value rest = { m with control := act :: (control ++ rest) } := by
  simp only [onTopOf, controlEq]

/-- A return to a C call below. -/
theorem onTopOf_resume (m : Machine) (value : Option VRef) (tail rest : List Activation) :
    { m with control := resume value (tail ++ rest) } =
      onTopOf value rest { m with control := resume value tail } := by
  cases tail with
  | nil => rfl
  | cons act tail => cases act <;> rfl

theorem aklCallFunctionBound_onTopOf (m : Machine) (name : String) (fn : FRef) (argc : Nat)
    (tail rest : List Activation) :
    m.aklCallFunctionBound name fn argc (tail ++ rest) =
      (m.aklCallFunctionBound name fn argc tail).onTopOf none rest := by
  unfold aklCallFunctionBound
  split
  · rfl
  · rfl
  · exact onTopOf_resume { m with
      stack := (aklFrameDestroy m.stack (aklInitFrame m.stack argc)).1 } none tail rest

theorem returnBranch_onTopOf (m : Machine) (cx : Context) (tail rest : List Activation) :
    m.returnBranch cx (tail ++ rest) =
      (m.returnBranch cx tail).onTopOf (aklStackTop m.stack) rest :=
  onTopOf_resume { m with stack := (aklFrameDestroy m.stack cx.cxFrame).1 } _ tail rest

theorem returnCfun_onTopOf (m : Machine) (cx : Context) (tail rest : List Activation)
    (value : Option VRef) :
    m.returnCfun cx (tail ++ rest) value = (m.returnCfun cx tail value).onTopOf value rest := by
  cases value with
  | none =>
      exact onTopOf_resume { m.aklRaiseError .error
        ("Function '" ++ cx.cxFuncName ++ "' gave back NULL") with
        stack := (aklFrameDestroy m.stack cx.cxFrame).1 } none tail rest
  | some v =>
      exact onTopOf_resume { m with
        stack := (aklFrameDestroy (aklStackPush m.stack v) cx.cxFrame).1 } (some v) tail rest

theorem execInstr_onTopOf (m : Machine) (cx : Context) (ip : EntryRef) (tail rest : List Activation)
    (instr : Instr) : ∃ value,
      m.execInstr cx ip (tail ++ rest) instr =
        (m.execInstr cx ip tail instr).onTopOf value rest := by
  cases instr with
  | push v =>
      cases v with
      | none => exact ⟨_, returnBranch_onTopOf _ cx tail rest⟩
      | some v => exact ⟨none, rfl⟩
  | load ind =>
      simp only [execInstr]
      cases aklFrameAt m.stack cx.cxFrame ind with
      | none => exact ⟨none, rfl⟩
      | some v => exact ⟨none, rfl⟩
  | call sym fn argc =>
      simp only [execInstr]
      cases m.aklBoundFunction sym fn with
      | error message => exact ⟨none, rfl⟩
      | ok fn =>
          exact ⟨none, m.aklCallFunctionBound_onTopOf sym.text fn argc (.branch cx _ :: tail) rest⟩
  | get sym =>
      simp only [execInstr]
      cases m.data.globals sym with
      | none => exact ⟨none, rfl⟩
      | some v => exact ⟨none, rfl⟩
  | set sym =>
      simp only [execInstr]
      cases aklStackTop m.stack with
      | none => exact ⟨none, rfl⟩
      | some v => exact ⟨none, rfl⟩
  | nop => exact ⟨none, rfl⟩
  | ret => exact ⟨none, rfl⟩
  | jmp l => exact ⟨none, rfl⟩
  | jt l => exact ⟨none, rfl⟩
  | jn l => exact ⟨none, rfl⟩
  | branch lt lf => exact ⟨none, rfl⟩

theorem execCfun_onTopOf (m : Machine) (cx : Context) (tail rest : List Activation) (prog : CProg) :
    ∃ value, m.execCfun cx (tail ++ rest) prog = (m.execCfun cx tail prog).onTopOf value rest := by
  cases prog with
  | ret value => exact ⟨value, m.returnCfun_onTopOf cx tail rest value⟩
  | call name fn argc k =>
      exact ⟨none, m.aklCallFunctionBound_onTopOf _ fn argc (.await cx k :: tail) rest⟩
  | _ => exact ⟨none, rfl⟩

/-- One step of the calls on top. -/
theorem step_onTopOf (stepEq : step m = some m') (value : Option VRef) (rest : List Activation) :
    ∃ value', step (m.onTopOf value rest) = some (m'.onTopOf value' rest) := by
  cases controlEq : m.control with
  | nil =>
      simp only [step, controlEq] at stepEq
      cases stepEq
  | cons act tail =>
      rw [onTopOf_cons controlEq]
      cases act with
      | await cx k =>
          simp only [step, controlEq] at stepEq
          cases stepEq
      | cfun cx prog =>
          simp only [step, controlEq, Option.some.injEq] at stepEq
          subst stepEq
          obtain ⟨value', execEq⟩ := m.execCfun_onTopOf cx tail rest prog
          refine ⟨value', ?_⟩
          rw [← execEq]
          cases prog with
          | ret value => cases value <;> rfl
          | _ => rfl
      | branch cx ip =>
          cases ip with
          | none =>
              simp only [step, controlEq, Option.some.injEq] at stepEq
              subst stepEq
              exact ⟨_, congrArg some (m.returnBranch_onTopOf cx tail rest)⟩
          | some ip =>
              simp only [step, controlEq] at stepEq
              simp only [step]
              cases fetched : fetch m.funs ip with
              | none =>
                  simp only [fetched, Option.some.injEq] at stepEq
                  subst stepEq
                  exact ⟨_, congrArg some (m.returnBranch_onTopOf cx tail rest)⟩
              | some instr =>
                  simp only [fetched, Option.some.injEq] at stepEq
                  subst stepEq
                  obtain ⟨value', execEq⟩ := m.execInstr_onTopOf cx ip tail rest instr
                  refine ⟨value', ?_⟩
                  rw [← execEq]
                  cases instr <;> rfl

/-- The whole run of a call, on top of others. -/
theorem reaches_onTopOf (reaches : Reaches m m') (ended : m'.control = []) (value : Option VRef)
    (rest : List Activation) :
    ∃ value', Reaches (m.onTopOf value rest) { m' with control := resume value' rest } := by
  induction reaches using Relation.ReflTransGen.head_induction_on generalizing value with
  | refl =>
      rw [onTopOf_nil ended]
      exact ⟨value, .refl⟩
  | head stepMem others ih =>
      obtain ⟨value₁, stepEq⟩ := step_onTopOf stepMem value rest
      obtain ⟨value', reaches⟩ := ih value₁
      exact ⟨value', .head stepEq reaches⟩

/-! ### Calls of a built-in -/

/-- What a built-in does that calls `fn`: its own steps, and the calls with their arguments
and the value each of them leaves.  The pointer a call returns is ignored. -/
inductive Trace (fn : FRef) (rest : List Activation) :
    Machine → List (List VRef × VRef) → Machine → Prop where
  | done {m : Machine} : Trace fn rest m [] m
  | own {m m₁ m' : Machine} {cx : Context} {prog : CProg} {calls : List (List VRef × VRef)}
      (controlEq : m.control = .cfun cx prog :: rest) (noCall : ¬ prog.IsCall)
      (stepEq : step m = some m₁) (others : Trace fn rest m₁ calls m') :
      Trace fn rest m calls m'
  | call {m m₁ m' : Machine} {cx : Context} {name : Option Symbol} {next : CProg}
      {below args : List (Cell VRef)} {a : Addr} {w : VRef} {calls : List (List VRef × VRef)}
      (controlEq : m.control = .cfun cx (.call name fn args.length fun _ => next) :: rest)
      (holds : m.stack.Holds (below ++ args))
      (ran : Reaches (m.aklCallFunctionBound ((name.map Symbol.text).getD "lambda") fn
        args.length []) m₁)
      (ended : m₁.control = []) (left : m₁.stack.Holds (below ++ [(a, w)]))
      (others : Trace fn rest { m₁ with control := .cfun cx next :: rest } calls m') :
      Trace fn rest m ((args.map Prod.snd, w) :: calls) m'

namespace Trace

variable {fn : FRef} {calls calls' : List (List VRef × VRef)}

/-- What a built-in does is a run of the machine. -/
theorem reaches (trace : Trace fn rest m calls m') : Reaches m m' := by
  induction trace with
  | done => exact .refl
  | own controlEq noCall stepEq others ih => exact .head stepEq ih
  | @call m m₁ m' cx name next below args a w calls controlEq holds ran ended left others ih =>
      obtain ⟨value, called⟩ := reaches_onTopOf ran ended none (.await cx (fun _ => next) :: rest)
      rw [← aklCallFunctionBound_onTopOf] at called
      have stepEq : step m = some (m.execCfun cx rest
          (.call name fn args.length fun _ => next)) := by
        rw [step, controlEq]
      exact .head stepEq (called.trans ih)

theorem trans (first : Trace fn rest m calls m₁) (second : Trace fn rest m₁ calls' m') :
    Trace fn rest m (calls ++ calls') m' := by
  induction first with
  | done => exact second
  | own controlEq noCall stepEq others ih => exact .own controlEq noCall stepEq (ih second)
  | call controlEq holds ran ended left others ih =>
      exact .call controlEq holds ran ended left (ih second)

/-- The machine is deterministic: behind some steps of its own the built-in goes on to
the same end. -/
theorem after (first : Trace fn rest m [] m₁) (whole : Trace fn rest m calls m')
    (final : ∀ cx prog, m'.control ≠ .cfun cx prog :: rest) : Trace fn rest m₁ calls m' := by
  generalize noCalls : ([] : List (List VRef × VRef)) = before at first
  induction first with
  | done => exact whole
  | call => cases noCalls
  | own controlEq noCall stepEq others ih =>
      apply ih _ noCalls
      cases whole with
      | done => exact absurd controlEq (final _ _)
      | own controlEq' noCall' stepEq' others' =>
          rw [stepEq] at stepEq'
          cases stepEq'
          exact others'
      | call controlEq' holds ran ended left others' =>
          rw [controlEq] at controlEq'
          cases controlEq'
          exact absurd trivial noCall

end Trace

/-- A call of `fn` with the arguments `vs`, above `below` and in the data `d`, succeeds: it
leaves the value `w` in their place and the data `d'`. -/
def Gives (funs : List AklFunction) (fn : FRef) (below : List (Cell VRef)) (vs : List VRef)
    (d : Data) (w : VRef) (d' : Data) : Prop :=
  ∀ (m : Machine) (args : List (Cell VRef)), args.map Prod.snd = vs →
    m.At funs d (below ++ args) m.control →
      ∃ m' a, Reaches (m.aklCallFunctionBound "lambda" fn vs.length []) m' ∧
        m'.At funs d' (below ++ [(a, w)]) []

section Steps

variable {funs : List AklFunction} {d d' : Data} {cells left args : List (Cell VRef)}
  {cx : Context} {k : CProg}

/-- A step of the built-in itself. -/
theorem At.own (fn : FRef) {prog next : CProg} {cells' : List (Cell VRef)} {cx' : Context}
    (at_ : m.At funs d cells (.cfun cx prog :: rest)) (noCall : ¬ prog.IsCall)
    (at' : (m.execCfun cx rest prog).At funs d' cells' (.cfun cx' next :: rest)) :
    ∃ m', Trace fn rest m [] m' ∧ m'.At funs d' cells' (.cfun cx' next :: rest) := by
  have stepEq : step m = some (m.execCfun cx rest prog) := by
    rw [step, at_.control_eq]
  exact ⟨_, .own at_.control_eq noCall stepEq .done, at'⟩

theorem At.own_push (fn : FRef) {v : VRef}
    (at_ : m.At funs d cells (.cfun cx (.push v k) :: rest)) :
    ∃ m' a, Trace fn rest m [] m' ∧ m'.At funs d (cells ++ [(a, v)]) (.cfun cx k :: rest) := by
  obtain ⟨m', trace, at'⟩ := at_.own fn id ⟨at_.funs_eq, at_.data_eq, at_.holds.push v, rfl⟩
  exact ⟨m', m.stack.mem.top, trace, at'⟩

theorem At.own_stackPop (fn : FRef) {k : Option VRef → CProg} {c : Cell VRef}
    (at_ : m.At funs d (cells ++ [c]) (.cfun cx (.stackPop k) :: rest)) :
    ∃ m', Trace fn rest m [] m' ∧ m'.At funs d cells (.cfun cx (k (some c.2)) :: rest) := by
  obtain ⟨stack, popEq, holds⟩ := at_.holds.pop
  apply at_.own fn id
  simp only [execCfun, popEq]
  exact ⟨at_.funs_eq, at_.data_eq, holds, rfl⟩

theorem At.own_read (fn : FRef) {k : Data → CProg}
    (at_ : m.At funs d cells (.cfun cx (.read k) :: rest)) :
    ∃ m', Trace fn rest m [] m' ∧ m'.At funs d cells (.cfun cx (k d) :: rest) := by
  apply at_.own fn id
  refine ⟨at_.funs_eq, at_.data_eq, at_.holds, ?_⟩
  rw [execCfun, at_.data_eq]

theorem At.own_write (fn : FRef) {f : Data → Data}
    (at_ : m.At funs d cells (.cfun cx (.write f k) :: rest)) :
    ∃ m', Trace fn rest m [] m' ∧ m'.At funs (f d) cells (.cfun cx k :: rest) :=
  at_.own fn id ⟨at_.funs_eq, congrArg f at_.data_eq, at_.holds, rfl⟩

/-- An argument is taken off the frame, under which nothing was pushed. -/
theorem At.own_shift (fn : FRef) {k : Option VRef → CProg} {c : Cell VRef}
    (at_ : m.At funs d (cells ++ c :: left) (.cfun cx (.shift k) :: rest))
    (on : FrameOn cx.cxFrame (c :: left)) :
    ∃ m' cx', Trace fn rest m [] m' ∧ FrameOn cx'.cxFrame left ∧
      m'.At funs d (cells ++ left) (.cfun cx' (k (some c.2)) :: rest) := by
  have covers : Covers m.stack cx.cxFrame cells (c :: left) [] := by
    refine ⟨?_, on⟩
    rw [List.append_nil]
    exact at_.holds
  obtain ⟨stack, frame, shiftEq, covers'⟩ := covers.shift
  have holds := covers'.holds
  rw [List.append_nil] at holds
  have ran : (m.execCfun cx rest (.shift k)).At funs d (cells ++ left)
      (.cfun { cx with cxFrame := frame } (k (some c.2)) :: rest) := by
    simp only [execCfun, shiftEq]
    exact ⟨at_.funs_eq, at_.data_eq, holds, rfl⟩
  obtain ⟨m', trace, at'⟩ := at_.own fn id ran
  exact ⟨m', _, trace, covers'.on, at'⟩

/-- The built-in returns a value; nothing is left in its frame. -/
theorem At.own_ret (fn : FRef) {v : VRef}
    (at_ : m.At funs d cells (.cfun cx (.ret (some v)) :: rest)) (on : FrameOn cx.cxFrame
      ([] : List (Cell VRef))) :
    ∃ m' a, Trace fn rest m [] m' ∧ m'.At funs d (cells ++ [(a, v)]) (resume (some v) rest) := by
  have at₀ : m.At funs d (cells ++ [] ++ []) (.cfun cx (.ret (some v)) :: rest) := by
    rw [List.append_nil, List.append_nil]
    exact at_
  obtain ⟨m', a, stepEq, at'⟩ := at₀.return_cfun on
  rw [List.append_nil] at at'
  exact ⟨m', a, .own at_.control_eq id stepEq .done, at'⟩

/-- A call whose value is popped again. -/
theorem At.round {fn : FRef} {k : Option VRef → CProg} {vs : List VRef} {w : VRef}
    (at_ : m.At funs d (cells ++ args)
      (.cfun cx (.call none fn args.length fun _ => .stackPop k) :: rest))
    (values : args.map Prod.snd = vs) (gives : Gives funs fn cells vs d w d') :
    ∃ m', Trace fn rest m [(vs, w)] m' ∧ m'.At funs d' cells (.cfun cx (k (some w)) :: rest) := by
  have lengthEq : vs.length = args.length := by
    rw [← values, List.length_map]
  obtain ⟨m₁, a, ran, at₁⟩ := gives m args values (at_.control_eq ▸ at_)
  rw [lengthEq] at ran
  have at₂ : Machine.At { m₁ with control := .cfun cx (.stackPop k) :: rest } funs d'
      (cells ++ [(a, w)]) (.cfun cx (.stackPop k) :: rest) :=
    ⟨at₁.funs_eq, at₁.data_eq, at₁.holds, rfl⟩
  obtain ⟨m', trace, at'⟩ := at₂.own_stackPop fn
  subst values
  exact ⟨m', .call at_.control_eq at_.holds ran at₁.control_eq at₁.holds trace, at'⟩

end Steps

end Machine

end AkLisp
