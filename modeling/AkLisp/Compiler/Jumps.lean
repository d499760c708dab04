import AkLisp.Compiler.Labels

/-!
# Jumps stay in the code

Every call of the front end binds the labels of the jumps it emits to entries of the
list the jumps are in.  `akl_compile` takes the last entry off the list of the main
function, and a label that is bound to it is left without one.
-/

namespace AkLisp

open Outcome Outcome.Body

/-! ### The front end -/

namespace FrontCall

variable {σ : Type}

/-- The code is for a user function, which has it in its own list. -/
def ForUser : FrontCall σ → Prop
  | .next _ cx st | .list _ cx _ st | .switch _ cx _ _ _ st | .form _ cx _ st | .forms _ cx st =>
      ∃ f, cx = ⟨f, f⟩ ∧ IsUser st.funs f
  | _ => True

variable {n : FRef}

/-- What a body does is settled from a state on. -/
abbrev SettledBody {α : Type} (n : FRef) (last : α → CompState σ) (st : CompState σ)
    (body : Body σ α) : Prop :=
  body.Respects ForUser (fun c r => Settles n c.state (c.resultState r))
    (fun a => Settles n st (last a)) fun _ => True

/-- A computation that builds no code, and what comes behind it. -/
theorem settledBody_leaf {α β : Type} {last : α → CompState σ} {st st₀ : CompState σ}
    {x : Except Fault (β × CompState σ)} {k : β × CompState σ → Body σ α}
    (kept : KeepsCode st x)
    (others : ∀ b st', st'.funs = st.funs → SettledBody n last st₀ (k (b, st'))) :
    SettledBody n last st₀ (leaf x k) := by
  apply respects_leaf
  · exact fun _ _ => trivial
  · exact fun (b, st') returned => others b st' (kept.ok returned)

variable [TokenSource σ]

theorem switchBody_settles (fuel : Nat) {f : FRef} (loc : ListLocals) (isQuoted : Bool)
    (tok : Token) {st : CompState σ} (user : IsUser st.funs f) :
    SettledBody n Round.state st (switchBody fuel ⟨f, f⟩ loc isQuoted st tok) := by
  cases tok with
  | tATOM =>
      apply settledBody_leaf (aklLexGetSymbol_keepsCode st)
      intro sym st₁ same
      have named : Settles n st (st₁.newValue (.symbol sym) isQuoted false).2 := .of_funs same
      by_cases first : loc.felem
      · simp only [if_pos first, headBody]
        generalize prefetchFunction _ sym = fetched
        obtain ⟨pfSt, fun_⟩ := fetched
        cases pfSt with
        | sform =>
            dsimp only
            cases fun_.bind _ with
            | some sform =>
                refine ⟨⟨f, rfl, named.isUser user⟩, ?_⟩
                rintro ⟨fn, st₂⟩ form
                exact named.trans form
            | none => exact named
        | _ => exact named
      · simp only [if_neg first]
        exact named.trans (.compileAtom ⟨f, f⟩ isQuoted _ sym _)
  | tLBRACE =>
      cases isQuoted with
      | true => exact ⟨trivial, fun r read => read.trans (.emit _ r.2 _ rfl)⟩
      | false =>
          refine ⟨⟨f, rfl, user⟩, ?_⟩
          rintro ⟨fn, st₁⟩ inner
          exact inner.trans (.compileInner _ loc fn st₁)
  | tRBRACE => exact .compileEnd ⟨f, f⟩ loc st
  | _ =>
      refine ⟨trivial, ?_⟩
      rintro ⟨v, st₁⟩ read
      cases v with
      | none => trivial
      | some v => exact read.trans (.emit _ st₁ _ rfl)

theorem formBody_settles (fuel : Nat) {f : FRef} (sform : SForm) {st : CompState σ}
    (user : IsUser st.funs f) :
    SettledBody n Prod.snd st (formBody fuel ⟨f, f⟩ st sform) := by
  have created : Settles n st (aklNewUserFunction st).2 := .newFunction st
  have new := aklNewUserFunction_isUser st
  cases sform with
  | «when» =>
      have labels : Settles n st (aklNewLabels ⟨f, f⟩ st 1).2 := .newLabels ⟨f, f⟩ st 1
      have user₁ := labels.isUser user
      refine ⟨⟨f, rfl, user₁⟩, fun (r, st₁) cond => ?_⟩
      have jumped := (LabelsKept.emit ⟨f, f⟩ st₁
        (.jn ⟨f, (aklNewLabels ⟨f, f⟩ st 1).1⟩)).isUser (cond.isUser user₁)
      exact ⟨⟨f, rfl, jumped⟩, fun (r, st₂) body => .when user cond body⟩
  | sif =>
      have labels : Settles n st (aklNewLabels ⟨f, f⟩ st 2).2 := .newLabels ⟨f, f⟩ st 2
      have user₁ := labels.isUser user
      refine ⟨⟨f, rfl, user₁⟩, fun (r, st₁) cond => ?_⟩
      have jumped := (LabelsKept.emit ⟨f, f⟩ st₁
        (.jn ⟨f, (aklNewLabels ⟨f, f⟩ st 2).1 + 1⟩)).isUser (cond.isUser user₁)
      refine ⟨⟨f, rfl, jumped⟩, fun (r, st₂) body => ?_⟩
      have passed := (LabelsKept.emit ⟨f, f⟩ st₂
        (.jmp ⟨f, (aklNewLabels ⟨f, f⟩ st 2).1⟩)).isUser (body.isUser jumped)
      have labelled := (LabelsKept.label passed ((aklNewLabels ⟨f, f⟩ st 2).1 + 1)).isUser passed
      exact ⟨⟨f, rfl, labelled⟩, fun (r, st₃) other => .sif user cond body other⟩
  | swhile =>
      have labels : Settles n st (aklNewLabels ⟨f, f⟩ st 2).2 := .newLabels ⟨f, f⟩ st 2
      have user₁ := labels.isUser user
      have labelled := (LabelsKept.label user₁ (aklNewLabels ⟨f, f⟩ st 2).1).isUser user₁
      refine ⟨⟨f, rfl, labelled⟩, fun (r, st₁) cond => ?_⟩
      have jumped := (LabelsKept.emit ⟨f, f⟩ st₁
        (.jn ⟨f, (aklNewLabels ⟨f, f⟩ st 2).1 + 1⟩)).isUser (cond.isUser labelled)
      exact ⟨⟨f, rfl, jumped⟩, fun (r, st₂) body => .swhile user cond body⟩
  | set =>
      refine ⟨trivial, fun (tok, st₁) lexed => ?_⟩
      by_cases atom : tok ≠ .tATOM
      · simp only [if_pos atom]
        exact lexed.trans (.of_funs rfl)
      · simp only [if_neg atom]
        apply settledBody_leaf (aklLexGetSymbol_keepsCode st₁)
        intro sym st₂ same
        have named := lexed.trans (Settles.of_funs same)
        refine ⟨⟨f, rfl, named.isUser user⟩, fun ((tok, fn), st₃) rhs => ?_⟩
        cases fn with
        | none => exact named.trans (rhs.trans (.emit _ st₃ _ rfl))
        | some fn =>
            have pushed : Settles n st₃ (aklBuildPush ⟨f, f⟩
                { st₃ with data := (st₃.data.newFunctionValue fn).2 }
                (some (st₃.data.newFunctionValue fn).1)) := .push _ st₃ _ _
            exact named.trans (rhs.trans (pushed.trans (.emit _ _ _ rfl)))
  | defun =>
      refine ⟨trivial, fun (tok, st₁) lexed => ?_⟩
      have opened : Settles n st st₁ := created.trans (.start lexed rfl)
      by_cases atom : tok ≠ .tATOM
      · simp only [if_pos atom]
        exact opened.trans (.of_funs rfl)
      · simp only [if_neg atom]
        apply settledBody_leaf (aklLexGetSymbol_keepsCode st₁)
        intro sym st₂ same
        have named := lexed.trans (Settles.of_funs same)
        refine ⟨trivial, fun st₃ params => ⟨trivial, fun st₄ doc => ?_⟩⟩
        have behind := named.trans (params.trans doc)
        refine ⟨⟨_, rfl, behind.isUser new⟩, fun (r, st₅) body => ?_⟩
        have bound : Settles n st₄ st₅ := .start body rfl
        have pushed : Settles n st₅ (aklBuildPush ⟨f, f⟩
            { st₅ with data := (st₅.data.newSymValue sym).2 }
            (some (st₅.data.newSymValue sym).1)) := .push _ st₅ _ _
        exact (opened.trans (Settles.of_funs same)).trans
          ((params.trans doc).trans (bound.trans pushed))
  | lambda =>
      refine ⟨trivial, fun st₁ params => ⟨trivial, fun st₂ doc => ?_⟩⟩
      refine ⟨⟨_, rfl, (params.trans doc).isUser new⟩, fun (r, st₃) body => ?_⟩
      exact created.trans ((params.trans doc).trans body)

variable [Libc]

/-- Every call of the front end settles the jumps it emits. -/
theorem body_settles (c : FrontCall σ) (forUser : c.ForUser) :
    SettledBody n c.resultState c.state c.body := by
  cases c with
  | lex st => exact settledBody_leaf (aklLex_keepsCode st) fun tok st' same => .of_funs same
  | token fuel st tok isQuoted =>
      by_cases list : tok = .tLBRACE
      · subst list
        refine ⟨trivial, ?_⟩
        rintro ⟨l, st'⟩ items
        have read : Settles n st st' := .start items rfl
        exact read.trans (.of_funs rfl)
      · rw [body, tokenBody_leaf fuel st isQuoted list]
        exact settledBody_leaf (aklParseToken_keepsCode fuel st isQuoted list)
          fun v st' same => .of_funs same
  | value fuel st =>
      refine ⟨trivial, ?_⟩
      rintro ⟨tok, st₁⟩ lexed
      by_cases mark : tok = .tQUOTE
      · simp only [if_pos mark]
        exact ⟨trivial, fun _ lexed' => ⟨trivial, fun r read =>
          lexed.trans (lexed'.trans read)⟩⟩
      · simp only [if_neg mark]
        exact ⟨trivial, fun r read => lexed.trans read⟩
  | items fuel l st =>
      cases fuel with
      | zero => trivial
      | succ fuel =>
          refine ⟨trivial, ?_⟩
          rintro ⟨v, st₁⟩ read
          cases v with
          | none => exact read.trans (.of_funs rfl)
          | some v => exact ⟨trivial, fun r others =>
              read.trans (.start others rfl)⟩
  | next fuel cx st =>
      obtain ⟨f, rfl, user⟩ := forUser
      refine ⟨trivial, ?_⟩
      rintro ⟨tok, st₁⟩ lexed
      cases tok with
      | tEOF => exact lexed
      | tLBRACE => exact ⟨⟨f, rfl, lexed.isUser user⟩, fun r list => lexed.trans list⟩
      | tQUOTE =>
          refine ⟨trivial, fun _ lexed' => ⟨trivial, ?_⟩⟩
          rintro ⟨v, st₃⟩ read
          exact lexed.trans (lexed'.trans (read.trans (.emit _ st₃ _ rfl)))
      | _ => exact ⟨trivial, fun r read => lexed.trans (read.trans (.emit _ r.2 _ rfl))⟩
  | list fuel cx loc st =>
      obtain ⟨f, rfl, user⟩ := forUser
      cases fuel with
      | zero => trivial
      | succ fuel =>
          have round (r : Round σ) (so : Settles n st r.state) :
              SettledBody n (FrontCall.list (fuel + 1) ⟨f, f⟩ loc st).resultState st
                (roundBody fuel ⟨f, f⟩ r) := by
            cases r with
            | done fn st₁ => exact so
            | again loc st₁ => exact ⟨⟨f, rfl, so.isUser user⟩, fun r others => so.trans others⟩
          refine ⟨trivial, ?_⟩
          rintro ⟨tok, st₁⟩ lexed
          by_cases ended : tok = .tEOF
          · simp only [if_pos ended]
            exact lexed
          · by_cases mark : tok = .tQUOTE
            · simp only [if_neg ended, if_pos mark]
              refine ⟨trivial, ?_⟩
              rintro ⟨tok, st₂⟩ lexed'
              have behind := lexed.trans lexed'
              exact ⟨⟨f, rfl, behind.isUser user⟩, fun r taken => round r (behind.trans taken)⟩
            · simp only [if_neg ended, if_neg mark]
              exact ⟨⟨f, rfl, lexed.isUser user⟩, fun r taken => round r (lexed.trans taken)⟩
  | switch fuel cx loc isQuoted tok st =>
      obtain ⟨f, rfl, user⟩ := forUser
      exact switchBody_settles fuel loc isQuoted tok user
  | form fuel cx sform st =>
      obtain ⟨f, rfl, user⟩ := forUser
      exact formBody_settles fuel sform user
  | args fuel st fname func =>
      refine ⟨trivial, ?_⟩
      rintro ⟨tok, st₁⟩ lexed
      cases tok with
      | tNIL => exact lexed
      | tLBRACE => exact ⟨trivial, fun st₂ params => lexed.trans params⟩
      | _ => exact lexed.trans (.of_funs rfl)
  | params fuel func st =>
      cases fuel with
      | zero => trivial
      | succ fuel =>
          refine ⟨trivial, ?_⟩
          rintro ⟨tok, st₁⟩ lexed
          cases tok with
          | tRBRACE => exact lexed
          | tATOM =>
              apply settledBody_leaf (aklLexGetSymbol_keepsCode st₁)
              intro sym st₂ same
              have named := lexed.trans (Settles.of_funs same)
              exact ⟨trivial, fun st₃ others =>
                named.trans ((Settles.addArg st₂ func sym).trans others)⟩
          | _ => exact ⟨trivial, fun st₂ others => lexed.trans others⟩
  | docstring st =>
      refine ⟨trivial, ?_⟩
      rintro ⟨tok, st₁⟩ lexed
      by_cases string : tok = .tSTRING
      · simp only [if_pos string]
        apply settledBody_leaf (takeText_keepsCode st₁)
        intro text st₂ same
        exact ⟨trivial, fun r dropped => (lexed.trans (Settles.of_funs same)).trans dropped⟩
      · simp only [if_neg string]
        exact lexed.trans (.of_funs rfl)
  | forms fuel cx st =>
      obtain ⟨f, rfl, user⟩ := forUser
      cases fuel with
      | zero => trivial
      | succ fuel =>
          refine ⟨⟨f, rfl, user⟩, ?_⟩
          rintro ⟨⟨tok, fn⟩, st₁⟩ first
          by_cases ended : tok = .tEOF
          · simp only [if_pos ended]
            exact first
          · simp only [if_neg ended]
            exact ⟨⟨f, rfl, first.isUser user⟩, fun st₂ others => first.trans others⟩

/-- What a call that returns has emitted is settled. -/
theorem settles {c : FrontCall σ} (forUser : c.ForUser) {r : c.Result} (ran : c.run = .ok r) :
    Settles n c.state (c.resultState r) :=
  ((frontEnd σ).recursion body_settles c forUser).1 r ran

end FrontCall

/-! ### The end of the main function -/

/-- All jumps of the function name labels that are bound to entries of its list, and a line is
printed for each of these labels. -/
def LispFun.JumpsLinked (f : FRef) (ufun : LispFun) : Prop :=
  ∀ instr ∈ ufun.ufBody, ∀ l ∈ instr.labels, l.fn = f ∧ ufun.Linked f l.ind ∧
    ∃ label, ufun.ufLabels[l.ind]? = some label ∧
      DumpLine.label label.laInd ∈ aklDumpIr f (.user ufun)

/-- A jump of the function names a label that is bound to the last entry of its list. -/
def LispFun.EndsLabelled (f : FRef) (ufun : LispFun) : Prop :=
  ∃ instr ∈ ufun.ufBody, ∃ l ∈ instr.labels, l.fn = f ∧
    ∃ label, ufun.ufLabels[l.ind]? = some label ∧
      label.laBranch = some (f, ufun.ufBody.length - 1)

/-- The jumps of all user functions from `n` on are linked. -/
def CompState.JumpsLinked {σ : Type} (n : FRef) (st : CompState σ) : Prop :=
  ∀ (f : FRef) (ufun : LispFun), n ≤ f → st.funs[f]? = some (.user ufun) → ufun.JumpsLinked f

namespace LispFun

variable {f : FRef} {ufun : LispFun}

/-- With nothing left to be bound the jumps are linked. -/
theorem Settled.jumpsLinked (settled : ufun.Settled (fun _ => False) f) : ufun.JumpsLinked f := by
  intro instr mem l named
  obtain ⟨own, -, bound⟩ := settled.jumps instr mem l named
  have linked := bound.resolve_left id
  exact ⟨own, linked, linked.printed⟩

/-- Without the placeholder they are so if none of them leads to it. -/
theorem Settled.popNop_iff (settled : ufun.Settled (fun _ => False) f) :
    ({ ufun with ufBody := popNop ufun.ufBody } : LispFun).JumpsLinked f ↔
      ¬ufun.EndsLabelled f := by
  rcases settled.placeholder with empty | last
  · have popped : popNop ufun.ufBody = [] := by simp [popNop, empty]
    constructor
    · rintro - ⟨instr, mem, -⟩
      simp [empty] at mem
    · intro _ instr mem
      simp [popped] at mem
  · have popped : popNop ufun.ufBody = ufun.ufBody.dropLast := if_pos last
    have bodyEq := List.dropLast_append_getLast? _ last
    simp only [popped]
    constructor
    · rintro linked ⟨instr, mem, l, named, own, label, found, branch⟩
      have front : instr ∈ ufun.ufBody.dropLast := by
        rw [← bodyEq] at mem
        rcases List.mem_append.mp mem with front | nop
        · exact front
        · cases List.mem_singleton.mp nop
          cases named
      obtain ⟨-, ⟨label', pos, found', -, branch', inside⟩, -⟩ := linked instr front l named
      cases found.symm.trans found'
      cases branch.symm.trans branch'
      simp at inside
    · intro notLast instr front l named
      have mem := List.dropLast_subset _ front
      obtain ⟨own, -, bound⟩ := settled.jumps instr mem l named
      obtain ⟨label, pos, found, ir, branch, inside⟩ := bound.resolve_left id
      have before : pos ≠ ufun.ufBody.length - 1 := by
        rintro rfl
        exact notLast ⟨instr, mem, l, named, own, label, found, branch⟩
      have linked : ({ ufun with ufBody := ufun.ufBody.dropLast } : LispFun).Linked f l.ind := by
        refine ⟨label, pos, found, ir, branch, ?_⟩
        rw [List.length_dropLast]
        omega
      exact ⟨own, linked, linked.printed⟩

end LispFun

section

variable {σ : Type} [TokenSource σ] [Libc]

/-- Behind the loop of `akl_compile` all jumps are linked, and without the placeholder of
the main function they are so if none of them leads to it. -/
theorem aklCompile_jumpsLinked_iff {fuel : Nat} {st st' : CompState σ} {f : FRef}
    (ran : aklCompile fuel st = .ok (f, st')) :
    f = st.funs.length ∧
      ∃ st₁ ufun, compileForms fuel ⟨f, f⟩ (aklNewUserFunction st).2 = .ok st₁ ∧
        st₁.funs[f]? = some (.user ufun) ∧ (st'.JumpsLinked f ↔ ¬ufun.EndsLabelled f) := by
  simp only [aklCompile, bind, Except.bind] at ran
  cases forms : compileForms fuel ⟨(aklNewUserFunction st).1, (aklNewUserFunction st).1⟩
      (aklNewUserFunction st).2 with
  | error e => simp [forms] at ran
  | ok st₁ =>
      simp only [forms, pure, Except.pure, Except.ok.injEq, Prod.mk.injEq] at ran
      obtain ⟨rfl, rfl⟩ := ran
      have new := aklNewUserFunction_isUser st
      have compiled : Settles (aklNewUserFunction st).1 (aklNewUserFunction st).2 st₁ :=
        FrontCall.settles (c := .forms fuel _ _) ⟨_, rfl, new⟩ forms
      have made : Settles (aklNewUserFunction st).1 st st₁ :=
        (Settles.newFunction st).trans compiled
      have settled := made.settled (fun _ => False) fun g ufun behind found => by
        have inside := (List.getElem?_eq_some_iff.mp found).1
        exact absurd inside (Nat.not_lt_of_le behind)
      obtain ⟨ufun, found⟩ := compiled.isUser new
      have main := settled _ ufun (le_refl _) found
      refine ⟨rfl, st₁, ufun, forms, found, ?_⟩
      rw [← main.popNop_iff]
      constructor
      · intro linked
        apply linked _ _ (le_refl _)
        simp [CompState.modifyUfun, found]
      · intro linked g other behind found'
        simp only [CompState.modifyUfun, List.getElem?_modify] at found'
        by_cases same : (aklNewUserFunction st).1 = g
        · subst same
          simp only [found, if_pos, Option.map_eq_map, Option.map_some, Option.some.injEq,
            AklFunction.user.injEq] at found'
          rwa [found'] at linked
        · simp only [if_neg same, Option.map_id_fun', id_eq, Option.map_eq_map] at found'
          exact (settled g other behind found').jumpsLinked

end

end AkLisp
