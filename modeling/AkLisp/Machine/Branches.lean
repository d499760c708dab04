import AkLisp.Machine.Core
import AkLisp.Transition.Arrival
import AkLisp.Transition.Expansion

/-!
# A branch as two jumps

`br .Lt, .Lf` should do what `jn .Lf` and `jmp .Lt` do one after the other.  Replacing the
branches of some instruction lists moves the entries behind them, and with them the labels
and the places where the machine is.  The two machines run in step as long as no branch
that is executed takes a NIL off the stack, since the first operand of a branch is read
for both of its targets.
-/

namespace AkLisp

open StateTransition Transition

/-- An instruction of a list in which branches are replaced or not. -/
def Instr.asJumps (replaced : Bool) : Instr → List Instr
  | .branch lt lf => if replaced then [.jn lf, .jmp lt] else [.branch lt lf]
  | instr => [instr]

/-- The entry of the new instruction lists for an entry of the old ones, when the lists of
the functions `sel` are rewritten. -/
def movedEntry (sel : FRef → Bool) (funs : List AklFunction) (ip : EntryRef) : EntryRef :=
  match Machine.ufun? funs ip.1 with
  | none => ip
  | some ufun => (ip.1, offset (Instr.asJumps (sel ip.1)) ufun.ufBody ip.2)

/-- A user function with its branches replaced. -/
def LispFun.withJumps (sel : FRef → Bool) (funs : List AklFunction) (f : FRef) (ufun : LispFun) :
    LispFun where
  ufArgs := ufun.ufArgs
  ufBody := ufun.ufBody.flatMap (Instr.asJumps (sel f))
  ufLabels := ufun.ufLabels.map fun label =>
    { label with laBranch := label.laBranch.map (movedEntry sel funs) }

/-- A function with its branches replaced. -/
def AklFunction.withJumps (sel : FRef → Bool) (funs : List AklFunction) (f : FRef) :
    AklFunction → AklFunction
  | .user ufun => .user (ufun.withJumps sel funs f)
  | fn => fn

/-- A C call in progress in the rewritten lists. -/
def Activation.withJumps (sel : FRef → Bool) (funs : List AklFunction) : Activation → Activation
  | .branch cx ip => .branch cx (ip.map (movedEntry sel funs))
  | activation => activation

/-- The machine with the branches of the functions `sel` replaced. -/
def Machine.withJumps (sel : FRef → Bool) (m : Machine) : Machine :=
  { m with
    funs := m.funs.mapIdx (AklFunction.withJumps sel m.funs)
    control := m.control.map (Activation.withJumps sel m.funs) }

namespace Machine

variable {sel : FRef → Bool} {funs : List AklFunction} {m : Machine} {cx : Context}
  {ip : Option EntryRef} {rest : List Activation}

/-- The functions of the machine with its branches replaced. -/
abbrev jumpFuns (sel : FRef → Bool) (funs : List AklFunction) : List AklFunction :=
  funs.mapIdx (AklFunction.withJumps sel funs)

theorem ufun?_jumpFuns (f : FRef) :
    ufun? (jumpFuns sel funs) f = (ufun? funs f).map (LispFun.withJumps sel funs f) := by
  rw [ufun?, ufun?, List.getElem?_mapIdx]
  cases funs[f]? with
  | none => rfl
  | some fn => cases fn <;> rfl

theorem movedEntry_eq {f : FRef} {pos : Nat} {ufun : LispFun} (user : ufun? funs f = some ufun) :
    movedEntry sel funs (f, pos) =
      (f, offset (Instr.asJumps (sel f)) ufun.ufBody pos) := by
  simp only [movedEntry, user]

/-- The first entry of a function stays its first one. -/
theorem movedEntry_zero (f : FRef) : movedEntry sel funs (f, 0) = (f, 0) := by
  rw [movedEntry]
  cases ufun? funs f with
  | none => rfl
  | some ufun => simp only [offset_zero]

theorem target_jumpFuns (l : LabelRef) :
    target (jumpFuns sel funs) l = (target funs l).map (movedEntry sel funs) := by
  rw [target, target, ufun?_jumpFuns]
  cases ufun? funs l.fn with
  | none => rfl
  | some ufun =>
      simp only [Option.map_some, Option.bind_some, LispFun.withJumps, List.getElem?_map]
      cases ufun.ufLabels[l.ind]? <;> rfl

/-- Behind the last instruction of a list is the end of the rewritten one. -/
theorem fetch_jumpFuns_none {ip : EntryRef} (last : fetch funs ip = none) :
    fetch (jumpFuns sel funs) (movedEntry sel funs ip) = none := by
  obtain ⟨f, pos⟩ := ip
  cases user : ufun? funs f with
  | none =>
      have unmoved : movedEntry sel funs (f, pos) = (f, pos) := by
        simp only [movedEntry, user]
      rw [unmoved, fetch, ufun?_jumpFuns, user]
      rfl
  | some ufun =>
      rw [fetch, user, Option.bind_some] at last
      rw [movedEntry_eq user, fetch, ufun?_jumpFuns, user]
      exact getElem?_offset_none _ last

/-- What an instruction was replaced by is found where it has moved to. -/
theorem fetch_jumpFuns (sel : FRef → Bool) {f : FRef} {pos i : Nat} {instr : Instr}
    (fetched : fetch funs (f, pos) = some instr)
    (inside : i < (instr.asJumps (sel f)).length) :
    fetch (jumpFuns sel funs) ((movedEntry sel funs (f, pos)).1,
        (movedEntry sel funs (f, pos)).2 + i) = (instr.asJumps (sel f))[i]? := by
  obtain ⟨ufun, user, found⟩ := Option.bind_eq_some_iff.mp fetched
  rw [movedEntry_eq user, fetch, ufun?_jumpFuns, user]
  exact getElem?_offset _ found inside

/-- The next entry moves behind what the instruction was replaced by. -/
theorem movedEntry_succ {f : FRef} {pos : Nat} {instr : Instr}
    (fetched : fetch funs (f, pos) = some instr) :
    movedEntry sel funs (f, pos + 1) = ((movedEntry sel funs (f, pos)).1,
      (movedEntry sel funs (f, pos)).2 + (instr.asJumps (sel f)).length) := by
  obtain ⟨ufun, user, found⟩ := Option.bind_eq_some_iff.mp fetched
  rw [movedEntry_eq user, movedEntry_eq user, offset_succ _ found]

/-! ## Steps -/

theorem resume_withJumps (value : Option VRef) (control : List Activation) :
    resume value (control.map (Activation.withJumps sel funs)) =
      (resume value control).map (Activation.withJumps sel funs) := by
  cases control with
  | nil => rfl
  | cons activation rest => cases activation <;> rfl

theorem returnBranch_withJumps (m : Machine) (cx : Context) (rest : List Activation) :
    (m.returnBranch cx rest).withJumps sel =
      (m.withJumps sel).returnBranch cx (rest.map (Activation.withJumps sel m.funs)) := by
  simp only [returnBranch, withJumps, resume_withJumps]

theorem returnCfun_withJumps (m : Machine) (cx : Context) (rest : List Activation)
    (value : Option VRef) :
    (m.returnCfun cx rest value).withJumps sel =
      (m.withJumps sel).returnCfun cx (rest.map (Activation.withJumps sel m.funs)) value := by
  cases value with
  | none => simp only [returnCfun, withJumps, resume_withJumps, aklRaiseError]
  | some v => simp only [returnCfun, withJumps, resume_withJumps]

theorem aklCallFunctionBound_withJumps (m : Machine) (name : String) (fn : FRef) (argc : Nat)
    (rest : List Activation) :
    (m.aklCallFunctionBound name fn argc rest).withJumps sel =
      (m.withJumps sel).aklCallFunctionBound name fn argc
        (rest.map (Activation.withJumps sel m.funs)) := by
  have found : (m.withJumps sel).funs[fn]? =
      m.funs[fn]?.map (AklFunction.withJumps sel m.funs fn) := List.getElem?_mapIdx
  simp only [aklCallFunctionBound, found]
  cases m.funs[fn]? with
  | none => simp only [Option.map_none, withJumps, resume_withJumps]
  | some function =>
      cases function with
      | cfun cfun => rfl
      | special form =>
          simp only [Option.map_some, AklFunction.withJumps, withJumps, resume_withJumps]
      | user ufun =>
          simp only [Option.map_some, AklFunction.withJumps, withJumps, List.map_cons,
            Activation.withJumps, movedEntry_zero]

theorem goto_withJumps (m : Machine) (cx : Context) (ip : Option EntryRef)
    (rest : List Activation) :
    (m.goto cx ip rest).withJumps sel =
      (m.withJumps sel).goto cx (ip.map (movedEntry sel m.funs))
        (rest.map (Activation.withJumps sel m.funs)) :=
  rfl

/-- An instruction that stays does the same, wherever it has moved to. -/
theorem execInstr_withJumps {ip : EntryRef} {instr : Instr}
    (fetched : fetch m.funs ip = some instr) (stays : instr.asJumps (sel ip.1) = [instr])
    (cx : Context) (rest : List Activation) :
    (m.execInstr cx ip rest instr).withJumps sel =
      (m.withJumps sel).execInstr cx (movedEntry sel m.funs ip)
        (rest.map (Activation.withJumps sel m.funs)) instr := by
  obtain ⟨f, pos⟩ := ip
  have next : movedEntry sel m.funs (f, pos + 1) = ((movedEntry sel m.funs (f, pos)).1,
      (movedEntry sel m.funs (f, pos)).2 + 1) := by
    rw [movedEntry_succ fetched, stays]
    rfl
  have targets : ∀ l, target (m.withJumps sel).funs l =
      (target m.funs l).map (movedEntry sel m.funs) := target_jumpFuns
  cases instr with
  | nop => simp only [execInstr, goto_withJumps, Option.map_some, next]
  | ret => simp only [execInstr, goto_withJumps, Option.map_some, next]
  | set sym =>
      have stackEq : (m.withJumps sel).stack = m.stack := rfl
      simp only [execInstr, stackEq]
      cases aklStackTop m.stack with
      | none => simp only [goto_withJumps, Option.map_some, next]
      | some v =>
          simp only [goto_withJumps, Option.map_some, next]
          rfl
  | get sym =>
      have dataEq : (m.withJumps sel).data = m.data := rfl
      simp only [execInstr, dataEq]
      cases m.data.globals sym with
      | none =>
          simp only [goto_withJumps, Option.map_some, ← next]
          rfl
      | some v =>
          simp only [goto_withJumps, Option.map_some, ← next]
          rfl
  | push value =>
      cases value with
      | none =>
          simp only [execInstr, returnBranch_withJumps]
          rfl
      | some v =>
          simp only [execInstr, goto_withJumps, Option.map_some, ← next]
          rfl
  | load ind =>
      have stackEq : (m.withJumps sel).stack = m.stack := rfl
      simp only [execInstr, stackEq]
      cases aklFrameAt m.stack cx.cxFrame ind with
      | none => simp only [goto_withJumps, Option.map_some, next]
      | some v =>
          simp only [goto_withJumps, Option.map_some, ← next]
          rfl
  | call sym fn argc =>
      have boundEq : (m.withJumps sel).aklBoundFunction sym fn = m.aklBoundFunction sym fn := rfl
      simp only [execInstr, boundEq]
      cases m.aklBoundFunction sym fn with
      | error message =>
          simp only [goto_withJumps, Option.map_some, ← next]
          rfl
      | ok fn =>
          simp only [aklCallFunctionBound_withJumps, List.map_cons, Activation.withJumps,
            Option.map_some, next]
  | jmp l => simp only [execInstr, goto_withJumps, targets]
  | jt l =>
      simp only [execInstr, goto_withJumps, targets, apply_ite (Option.map (movedEntry sel m.funs)),
        Option.map_some, next]
      rfl
  | jn l =>
      simp only [execInstr, goto_withJumps, targets, apply_ite (Option.map (movedEntry sel m.funs)),
        Option.map_some, next]
      rfl
  | branch lt lf =>
      simp only [execInstr, goto_withJumps, targets]
      rfl

theorem execCfun_withJumps (m : Machine) (cx : Context) (rest : List Activation) (prog : CProg) :
    (m.execCfun cx rest prog).withJumps sel =
      (m.withJumps sel).execCfun cx (rest.map (Activation.withJumps sel m.funs)) prog := by
  cases prog with
  | ret value => exact returnCfun_withJumps m cx rest value
  | call name fn argc k =>
      simp only [execCfun, aklCallFunctionBound_withJumps, List.map_cons, Activation.withJumps]
  | _ => rfl

/-- A branch that is about to be executed and replaced takes no NIL off the stack, or it
has one target. -/
def BranchAgrees (sel : FRef → Bool) (m : Machine) : Prop :=
  ∀ cx ip rest lt lf, m.control = .branch cx (some ip) :: rest →
    fetch m.funs ip = some (.branch lt lf) → sel ip.1 = true →
      m.isNil (aklStackPop m.stack).1 = false ∨ target m.funs lt = target m.funs lf

theorem step_branch_some {ip : EntryRef} {instr : Instr}
    (controlEq : m.control = .branch cx (some ip) :: rest)
    (fetched : fetch m.funs ip = some instr) :
    step m = some (m.execInstr cx ip rest instr) := by
  rw [step, controlEq]
  simp only [fetched]

theorem step_branch_none {ip : EntryRef} (controlEq : m.control = .branch cx (some ip) :: rest)
    (fetched : fetch m.funs ip = none) : step m = some (m.returnBranch cx rest) := by
  rw [step, controlEq]
  simp only [fetched]

/-- A replaced branch is executed by one or two steps. -/
theorem branch_withJumps {ip : EntryRef} {lt lf : LabelRef}
    (controlEq : m.control = .branch cx (some ip) :: rest)
    (fetched : fetch m.funs ip = some (.branch lt lf)) (selected : sel ip.1 = true)
    (agrees : m.BranchAgrees sel) :
    Reaches₁ step (m.withJumps sel) ((m.execInstr cx ip rest (.branch lt lf)).withJumps sel) := by
  obtain ⟨f, pos⟩ := ip
  have pair : Instr.asJumps (sel f) (.branch lt lf) = [.jn lf, .jmp lt] := if_pos selected
  have targets : ∀ l, target (m.withJumps sel).funs l =
      (target m.funs l).map (movedEntry sel m.funs) := target_jumpFuns
  have first : fetch (m.withJumps sel).funs (movedEntry sel m.funs (f, pos)) = some (.jn lf) := by
    have moved := fetch_jumpFuns sel (i := 0) fetched (by rw [pair]; exact Nat.zero_lt_two)
    rwa [pair] at moved
  have second : fetch (m.withJumps sel).funs ((movedEntry sel m.funs (f, pos)).1,
      (movedEntry sel m.funs (f, pos)).2 + 1) = some (.jmp lt) := by
    have moved := fetch_jumpFuns sel (i := 1) fetched (by rw [pair]; exact Nat.one_lt_two)
    rwa [pair] at moved
  have started : (m.withJumps sel).control =
      .branch cx (some (movedEntry sel m.funs (f, pos))) ::
        rest.map (Activation.withJumps sel m.funs) := by
    rw [withJumps, controlEq]
    rfl
  have jumped := step_branch_some started first
  have nilEq : (m.withJumps sel).isNil (aklStackPop (m.withJumps sel).stack).1 =
      m.isNil (aklStackPop m.stack).1 := rfl
  have result : (m.execInstr cx (f, pos) rest (.branch lt lf)).withJumps sel =
      { m.withJumps sel with stack := (aklStackPop m.stack).2 }.goto cx
        (target (m.withJumps sel).funs lt) (rest.map (Activation.withJumps sel m.funs)) := by
    rw [targets]
    rfl
  rw [result]
  cases nil : m.isNil (aklStackPop m.stack).1 with
  | true =>
      -- `jn` jumps, to where the branch goes
      have same : target m.funs lt = target m.funs lf := by
        rcases agrees cx (f, pos) rest lt lf controlEq fetched selected with notNil | same
        · rw [nil] at notNil
          cases notNil
        · exact same
      apply Relation.TransGen.single
      rw [targets, same, ← targets]
      simp only [execInstr, nilEq, nil, if_true] at jumped
      exact jumped
  | false =>
      -- `jn` goes on to the `jmp`
      simp only [execInstr, nilEq, nil, if_false, Bool.false_eq_true] at jumped
      have atJmp : ({ m.withJumps sel with stack := (aklStackPop m.stack).2 }.goto cx
          (some ((movedEntry sel m.funs (f, pos)).1, (movedEntry sel m.funs (f, pos)).2 + 1))
          (rest.map (Activation.withJumps sel m.funs))).control =
        .branch cx (some ((movedEntry sel m.funs (f, pos)).1,
          (movedEntry sel m.funs (f, pos)).2 + 1)) ::
            rest.map (Activation.withJumps sel m.funs) := rfl
      exact .head jumped (.single (step_branch_some atJmp second))

/-- The machine with its branches replaced runs in step, as long as they agree. -/
theorem step_withJumps (agrees : m.BranchAgrees sel) :
    match step m with
    | some m' => Reaches₁ step (m.withJumps sel) (m'.withJumps sel)
    | none => step (m.withJumps sel) = none := by
  cases controlEq : m.control with
  | nil =>
      have stopped : step m = none := by rw [step, controlEq]
      rw [stopped]
      simp only [step, withJumps, controlEq, List.map_nil]
  | cons activation rest =>
      cases activation with
      | await cx k =>
          have stopped : step m = none := by rw [step, controlEq]
          rw [stopped]
          simp only [step, withJumps, controlEq, List.map_cons, Activation.withJumps]
      | cfun cx prog =>
          have stepEq : step m = some (m.execCfun cx rest prog) := by rw [step, controlEq]
          rw [stepEq]
          apply Relation.TransGen.single
          rw [execCfun_withJumps]
          simp only [step, withJumps, controlEq, List.map_cons, Activation.withJumps]
          rfl
      | branch cx ip =>
          cases ip with
          | none =>
              have stepEq : step m = some (m.returnBranch cx rest) := by rw [step, controlEq]
              rw [stepEq]
              apply Relation.TransGen.single
              rw [returnBranch_withJumps]
              simp only [step, withJumps, controlEq, List.map_cons, Activation.withJumps]
              rfl
          | some ip =>
              have started : (m.withJumps sel).control =
                  .branch cx (some (movedEntry sel m.funs ip)) ::
                    rest.map (Activation.withJumps sel m.funs) := by
                rw [withJumps, controlEq]
                rfl
              cases fetched : fetch m.funs ip with
              | none =>
                  rw [step_branch_none controlEq fetched]
                  apply Relation.TransGen.single
                  rw [returnBranch_withJumps]
                  exact step_branch_none started (fetch_jumpFuns_none fetched)
              | some instr =>
                  rw [step_branch_some controlEq fetched]
                  by_cases stays : instr.asJumps (sel ip.1) = [instr]
                  · apply Relation.TransGen.single
                    rw [execInstr_withJumps fetched stays]
                    have moved : fetch (m.withJumps sel).funs (movedEntry sel m.funs ip) =
                        some instr := by
                      have found := fetch_jumpFuns sel (i := 0) fetched
                        (by rw [stays]; exact Nat.one_pos)
                      rwa [stays] at found
                    exact step_branch_some started moved
                  · cases instr with
                    | branch lt lf =>
                        have selected : sel ip.1 = true := by
                          by_contra kept
                          exact stays (if_neg kept)
                        exact branch_withJumps controlEq fetched selected agrees
                    | _ => exact absurd rfl stays

/-- Two machines have the same outcome: one run ends if the other one does, and then with
the same stack and the same data, the global variables among them. -/
structure SameOutcome (m m' : Machine) : Prop where
  ends : (eval step m').Dom ↔ (eval step m).Dom
  same : ∀ final ∈ eval step m, ∃ final' ∈ eval step m',
    final'.stack = final.stack ∧ final'.data = final.data

/-- A branch is a `jn` followed by a `jmp`: a machine and the one in which the branches of
some functions are replaced have the same outcome if no branch that is executed takes a
NIL off the stack, or its two labels are bound to one entry. -/
theorem branch_as_jumps (sel : FRef → Bool) (m : Machine)
    (agree : ∀ m', Machine.Reaches m m' → m'.BranchAgrees sel) :
    SameOutcome m (m.withJumps sel) := by
  have respects : Respects step step fun m m' => m' = m.withJumps sel ∧
      ∀ m₁, Machine.Reaches m m₁ → m₁.BranchAgrees sel := by
    rintro m _ ⟨rfl, agree⟩
    have stepped := step_withJumps (agree m .refl)
    cases stepEq : step m with
    | none =>
        rw [stepEq] at stepped
        exact stepped
    | some m₁ =>
        rw [stepEq] at stepped
        exact ⟨m₁.withJumps sel, ⟨rfl, fun m₂ reaches => agree m₂ (.head stepEq reaches)⟩, stepped⟩
  constructor
  · exact tr_eval_dom respects ⟨rfl, agree⟩
  · intro final ended
    obtain ⟨final', ⟨rfl, -⟩, ended'⟩ := tr_eval respects ⟨rfl, agree⟩ ended
    exact ⟨_, ended', rfl, rfl⟩

/-- A function that pushes a value and branches on it: to its end, or to the push of `T`. -/
def branchOn (v : VRef) : Machine where
  funs := [.user ⟨[], [.push (some v), .branch ⟨0, 0⟩ ⟨0, 1⟩, .push (some Data.aklTrue), .nop],
    [⟨some 0, some (0, 3), 0⟩, ⟨some 0, some (0, 2), 1⟩]⟩]
  data := .init
  stack := default
  errors := []
  control := [.branch ⟨"f", aklInitList⟩ (some (0, 0))]

/-- Without a branch in front there is nothing to agree. -/
theorem branchAgrees_of_fetch {cx : Context} {ip : EntryRef} {rest : List Activation}
    (controlEq : m.control = .branch cx (some ip) :: rest)
    (other : ∀ lt lf, fetch m.funs ip ≠ some (.branch lt lf)) : m.BranchAgrees sel := by
  intro cx' ip' rest' lt lf controlEq' fetched
  rw [controlEq] at controlEq'
  cases controlEq'
  exact absurd fetched (other lt lf)

/-- What is reached is the machine itself, or it is reached from the next one. -/
theorem Reaches.next {m₁ m' : Machine} (reaches : Machine.Reaches m m')
    (stepEq : step m = some m₁) : m' = m ∨ Machine.Reaches m₁ m' :=
  reaches_next stepEq reaches

theorem branch_as_jumps_true :
    SameOutcome (branchOn Data.aklTrue) ((branchOn Data.aklTrue).withJumps fun _ => true) := by
  refine branch_as_jumps _ _ fun m' reaches => ?_
  rcases Reaches.next reaches rfl with rfl | reaches
  · exact branchAgrees_of_fetch rfl fun lt lf => nofun
  rcases Reaches.next reaches rfl with rfl | reaches
  · intro cx ip rest lt lf _ _ _
    exact .inl rfl
  rcases Reaches.next reaches rfl with rfl | reaches
  · exact branchAgrees_of_fetch rfl fun lt lf => nofun
  rcases Reaches.next reaches rfl with rfl | reaches
  · exact branchAgrees_of_fetch rfl fun lt lf => nofun
  rw [reaches_stopped rfl reaches]
  intro cx ip rest lt lf controlEq
  cases controlEq

/-- On NIL the branch goes to its end, and the two jumps push `T`. -/
theorem branch_on_nil :
    ¬ SameOutcome (branchOn Data.aklNil) ((branchOn Data.aklNil).withJumps fun _ => true) := by
  intro outcome
  obtain ⟨final, ended, top⟩ : ∃ final ∈ eval step (branchOn Data.aklNil),
      aklStackTop final.stack = none :=
    ⟨_, mem_eval.mpr ⟨.head rfl (.head rfl (.head rfl (.head rfl .refl))), rfl⟩, rfl⟩
  obtain ⟨jumped, endedJumped, topJumped⟩ :
      ∃ final ∈ eval step ((branchOn Data.aklNil).withJumps fun _ => true),
        aklStackTop final.stack = some Data.aklTrue :=
    ⟨_, mem_eval.mpr ⟨.head rfl (.head rfl (.head rfl (.head rfl (.head rfl .refl)))), rfl⟩, rfl⟩
  obtain ⟨final', ended', stackEq, -⟩ := outcome.same final ended
  rw [Part.mem_unique ended' endedJumped] at stackEq
  rw [stackEq, top] at topJumped
  cases topJumped

end Machine

end AkLisp
