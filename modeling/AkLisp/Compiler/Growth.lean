import AkLisp.Compiler.Calls
import AkLisp.Outcome.Results

/-!
# Code stays in place

No function of the front end takes back an instruction: the entries of a body in
front of the placeholder keep their places, and parameters are only appended.
So what a call emits is found at the same place in the finished code, which is
the code of the function under compilation.
-/

namespace AkLisp

open Outcome Outcome.Body

/-- Every user function keeps its parameters and the instructions in front of the
placeholder. -/
def CodeGrows (funs funs' : List AklFunction) : Prop :=
  ∀ (f : FRef) (ufun : LispFun), funs[f]? = some (.user ufun) →
    ∃ ufun', funs'[f]? = some (.user ufun') ∧ ufun.ufArgs <+: ufun'.ufArgs ∧
      ufun.ufBody.dropLast <+: ufun'.ufBody.dropLast

namespace CodeGrows

theorem refl (funs : List AklFunction) : CodeGrows funs funs :=
  fun _ ufun found => ⟨ufun, found, List.prefix_refl _, List.prefix_refl _⟩

theorem trans {funs funs' funs'' : List AklFunction} (first : CodeGrows funs funs')
    (second : CodeGrows funs' funs'') : CodeGrows funs funs'' := by
  intro f ufun found
  obtain ⟨ufun', found', args, body⟩ := first f ufun found
  obtain ⟨ufun'', found'', args', body'⟩ := second f ufun' found'
  exact ⟨ufun'', found'', args.trans args', body.trans body'⟩

end CodeGrows

/-- The code of a state has grown to that of another one. -/
def CompState.Grown {σ : Type} (st st' : CompState σ) : Prop := CodeGrows st.funs st'.funs

section Builders

variable {σ : Type} {st st' : CompState σ}

theorem CompState.Grown.refl (st : CompState σ) : st.Grown st := CodeGrows.refl st.funs

theorem CompState.Grown.trans {st'' : CompState σ} (first : st.Grown st')
    (second : st'.Grown st'') : st.Grown st'' :=
  CodeGrows.trans first second

/-- A change of one function that keeps its parameters and its code. -/
theorem modifyUfun_grown (st : CompState σ) (f : FRef) {g : LispFun → LispFun}
    (args : ∀ ufun, ufun.ufArgs <+: (g ufun).ufArgs)
    (body : ∀ ufun, ufun.ufBody.dropLast <+: (g ufun).ufBody.dropLast) :
    st.Grown (st.modifyUfun f g) := by
  intro f' ufun found
  simp only [CompState.modifyUfun, List.getElem?_modify, found, Option.map_eq_map,
    Option.map_some]
  by_cases same : f = f'
  · simp only [if_pos same]
    exact ⟨g ufun, rfl, args ufun, body ufun⟩
  · simp only [if_neg same]
    exact ⟨ufun, rfl, List.prefix_refl _, List.prefix_refl _⟩

theorem createOrGetInstr_grows (ir : List Instr) :
    ir.dropLast <+: (createOrGetInstr ir).dropLast := by
  unfold createOrGetInstr
  split
  · next empty =>
      rw [empty]
      exact List.nil_prefix
  · exact List.prefix_refl _

theorem createInstr_dropLast (ir : List Instr) (instr : Instr) :
    (createInstr ir instr).dropLast = (createOrGetInstr ir).dropLast ++ [instr] := by
  unfold createInstr
  rw [List.dropLast_append_of_ne_nil (by simp)]
  rfl

theorem emit_grown (cx : CompContext) (st : CompState σ) (instr : Instr) :
    st.Grown (st.emit cx instr) := by
  refine modifyUfun_grown st cx.cxIr (fun ufun => List.prefix_refl _) fun ufun => ?_
  rw [createInstr_dropLast]
  exact (createOrGetInstr_grows _).trans (List.prefix_append _ _)

theorem aklBuildLoad_grown (cx : CompContext) (st : CompState σ) (sym : Symbol) :
    st.Grown (aklBuildLoad cx st sym) := by
  unfold aklBuildLoad
  split
  · split
    · exact emit_grown cx st _
    · exact emit_grown cx st _
  · exact .refl st

theorem aklBuildLabel_grown (cx : CompContext) (st : CompState σ) (l : LabelRef) :
    st.Grown (aklBuildLabel cx st l) := by
  have created : st.Grown (st.modifyUfun cx.cxIr fun ufun =>
      { ufun with ufBody := createOrGetInstr ufun.ufBody }) :=
    modifyUfun_grown st cx.cxIr (fun _ => List.prefix_refl _) fun _ => createOrGetInstr_grows _
  exact created.trans
    (modifyUfun_grown _ l.fn (fun _ => List.prefix_refl _) fun _ => List.prefix_refl _)

theorem aklNewLabels_grown (cx : CompContext) (st : CompState σ) (n : Nat) :
    st.Grown (aklNewLabels cx st n).2 :=
  modifyUfun_grown st cx.cxCompFunc (fun _ => List.prefix_refl _) fun _ => List.prefix_refl _

theorem aklNewUserFunction_grown (st : CompState σ) : st.Grown (aklNewUserFunction st).2 := by
  intro f ufun found
  refine ⟨ufun, ?_, List.prefix_refl _, List.prefix_refl _⟩
  exact (List.getElem?_append_left (List.getElem?_eq_some_iff.mp found).1).trans found

theorem compileAtom_grown (cx : CompContext) (isQuoted : Bool) (v : VRef) (sym : Symbol)
    (st : CompState σ) : st.Grown (compileAtom cx isQuoted v sym st) := by
  unfold compileAtom
  split
  · exact emit_grown cx st _
  · exact aklBuildLoad_grown cx st sym

theorem compileInner_grown (cx : CompContext) (loc : ListLocals) (f : Option FRef)
    (st : CompState σ) : st.Grown (compileInner cx loc f st).2 := by
  unfold compileInner
  split
  · exact .refl st
  · split
    · exact .refl st
    · exact emit_grown cx { st with data := _ } _

theorem compileEnd_grown (cx : CompContext) (loc : ListLocals) (st : CompState σ) :
    st.Grown (compileEnd cx loc st).2 := by
  unfold compileEnd
  split
  · exact emit_grown cx st _
  · split
    · exact .refl st
    · split
      · exact emit_grown cx { st with data := _ } _
      · exact .refl st

end Builders

/-- The state a round ends in. -/
def Round.state {σ : Type} : Round σ → CompState σ
  | .done _ st | .again _ st => st

namespace FrontCall

variable {σ : Type}

/-- The state a call starts in. -/
def state : FrontCall σ → CompState σ
  | .lex st | .token _ st _ _ | .value _ st | .items _ _ st | .next _ _ st | .list _ _ _ st
  | .switch _ _ _ _ _ st | .form _ _ _ st | .args _ st _ _ | .params _ _ st | .docstring st
  | .forms _ _ st => st

/-- The state a call leaves. -/
def resultState : (c : FrontCall σ) → c.Result → CompState σ
  | .lex _, r | .token _ _ _ _, r | .value _ _, r | .items _ _ _, r | .next _ _ _, r
  | .list _ _ _ _, r | .form _ _ _ _, r => r.2
  | .switch _ _ _ _ _ _, round => round.state
  | .args _ _ _ _, st | .params _ _ _, st | .docstring _, st | .forms _ _ _, st => st

/-- The code grows along a body from a state on. -/
abbrev GrowsTo {α : Type} (last : α → CompState σ) (st : CompState σ) (body : Body σ α) : Prop :=
  body.Grows CompState.Grown state resultState last st

variable [TokenSource σ]

/-- A computation builds no code. -/
abbrev KeepsCode {α : Type} (st : CompState σ) (x : Except Fault (α × CompState σ)) : Prop :=
  Ensures (fun r => r.2.funs = st.funs) x

theorem aklLex_keepsCode (st : CompState σ) : KeepsCode st st.aklLex := by
  unfold CompState.aklLex
  cases TokenSource.aklLex st.dev with
  | error e => trivial
  | ok r => exact rfl

theorem takeText_keepsCode (st : CompState σ) : KeepsCode st st.takeText := by
  unfold CompState.takeText
  cases TokenSource.takeText st.dev with
  | error e => trivial
  | ok r => exact rfl

theorem aklLexGetSymbol_keepsCode (st : CompState σ) : KeepsCode st st.aklLexGetSymbol :=
  (takeText_keepsCode st).bind fun _ kept => kept

theorem aklParseToken_keepsCode [Libc] (fuel : Nat) (st : CompState σ) {tok : Token}
    (isQuoted : Bool) (notList : tok ≠ .tLBRACE) :
    KeepsCode st (aklParseToken (aklParseList fuel) st tok isQuoted) := by
  cases tok with
  | tLBRACE => exact absurd rfl notList
  | tQUOTE => trivial
  | tATOM => exact (aklLexGetSymbol_keepsCode st).bind fun _ kept => kept
  | tNUMBER => exact (takeText_keepsCode st).bind fun _ kept => kept
  | tSTRING => exact (takeText_keepsCode st).bind fun _ kept => kept
  | _ => exact rfl

omit [TokenSource σ] in
/-- A computation that builds no code, and what comes behind it. -/
theorem growsTo_leaf {α β : Type} {last : α → CompState σ} {st : CompState σ}
    {x : Except Fault (β × CompState σ)} {k : β × CompState σ → Body σ α}
    (kept : KeepsCode st x)
    (others : ∀ b st', GrowsTo last st' (k (b, st'))) : GrowsTo last st (leaf x k) := by
  refine grows_leaf fun (b, st') returned => ?_
  have same : st'.funs = st.funs := kept.ok returned
  have grown : st.Grown st' := by
    unfold CompState.Grown
    rw [same]
    exact .refl _
  exact Grows.of_le (fun _ _ _ first second => first.trans second) grown (others b st')

theorem switchBody_grows (fuel : Nat) (cx : CompContext) (loc : ListLocals) (isQuoted : Bool)
    (tok : Token) (st : CompState σ) :
    GrowsTo Round.state st (switchBody fuel cx loc isQuoted st tok) := by
  cases tok with
  | tATOM =>
      refine growsTo_leaf (aklLexGetSymbol_keepsCode st) fun sym st₁ => ?_
      by_cases first : loc.felem
      · simp only [if_pos first, headBody]
        generalize prefetchFunction _ sym = fetched
        obtain ⟨pfSt, fun_⟩ := fetched
        cases pfSt with
        | sform =>
            dsimp only
            cases fun_.bind _ with
            | some sform => exact ⟨.refl st₁, fun r => .refl r.2⟩
            | none => exact .refl st₁
        | _ => exact .refl st₁
      · simp only [if_neg first]
        exact compileAtom_grown cx isQuoted _ sym (st₁.newValue (.symbol sym) isQuoted false).2
  | tLBRACE =>
      cases isQuoted with
      | true => exact ⟨.refl st, fun r => emit_grown cx r.2 _⟩
      | false => exact ⟨.refl st, fun r => compileInner_grown cx loc r.1 r.2⟩
  | tRBRACE => exact compileEnd_grown cx loc st
  | _ =>
      refine ⟨.refl st, ?_⟩
      rintro ⟨v, st₁⟩
      cases v with
      | none => trivial
      | some v => exact emit_grown cx st₁ _

theorem formBody_grows (fuel : Nat) (cx : CompContext) (sform : SForm) (st : CompState σ) :
    GrowsTo Prod.snd st (formBody fuel cx st sform) := by
  cases sform with
  | sif =>
      refine ⟨aklNewLabels_grown cx st 2, fun (r, st₁) => ⟨emit_grown cx st₁ _, fun (r, st₂) => ?_⟩⟩
      have jumped := emit_grown cx st₂ (.jmp ⟨cx.cxCompFunc, (aklNewLabels cx st 2).1⟩)
      refine ⟨jumped.trans (aklBuildLabel_grown cx _ _), fun (r, st₃) => ?_⟩
      exact aklBuildLabel_grown cx st₃ _
  | when =>
      refine ⟨aklNewLabels_grown cx st 1, fun (r, st₁) => ⟨emit_grown cx st₁ _, fun (r, st₂) => ?_⟩⟩
      exact aklBuildLabel_grown cx st₂ _
  | swhile =>
      have labels := aklNewLabels_grown cx st 2
      refine ⟨labels.trans (aklBuildLabel_grown cx _ _), fun (r, st₁) => ?_⟩
      refine ⟨emit_grown cx st₁ _, fun (r, st₂) => ?_⟩
      have jumped := emit_grown cx st₂ (.jmp ⟨cx.cxCompFunc, (aklNewLabels cx st 2).1⟩)
      exact jumped.trans (aklBuildLabel_grown cx _ _)
  | set =>
      refine ⟨.refl st, fun (tok, st₁) => ?_⟩
      by_cases atom : tok ≠ .tATOM
      · simp only [if_pos atom]
        exact .refl st₁
      · simp only [if_neg atom]
        refine growsTo_leaf (aklLexGetSymbol_keepsCode st₁) fun sym st₂ => ?_
        refine ⟨.refl st₂, fun ((tok, fn), st₃) => ?_⟩
        cases fn with
        | none => exact emit_grown cx st₃ _
        | some fn =>
            have pushed := emit_grown cx { st₃ with data := (st₃.data.newFunctionValue fn).2 }
              (.push (some (st₃.data.newFunctionValue fn).1))
            exact pushed.trans (emit_grown cx _ _)
  | defun =>
      have new := aklNewUserFunction_grown st
      refine ⟨new, fun (tok, st₁) => ?_⟩
      by_cases atom : tok ≠ .tATOM
      · simp only [if_pos atom]
        exact .refl st₁
      · simp only [if_neg atom]
        refine growsTo_leaf (aklLexGetSymbol_keepsCode st₁) fun sym st₂ => ?_
        refine ⟨.refl st₂, fun st₃ => ⟨.refl st₃, fun st₄ => ⟨.refl st₄, fun (r, st₅) => ?_⟩⟩⟩
        exact emit_grown _ { st₅ with data := _ } _
  | lambda =>
      exact ⟨aklNewUserFunction_grown st, fun st₁ => ⟨.refl st₁, fun st₂ => ⟨.refl st₂, fun r =>
        .refl r.2⟩⟩⟩

variable [Libc]

/-- No function of the front end takes back an instruction. -/
theorem body_grows (c : FrontCall σ) : GrowsTo c.resultState c.state c.body := by
  cases c with
  | lex st => exact growsTo_leaf (aklLex_keepsCode st) fun tok st' => .refl st'
  | token fuel st tok isQuoted =>
      by_cases list : tok = .tLBRACE
      · subst list
        refine ⟨.refl _, ?_⟩
        rintro ⟨l, st'⟩
        exact .refl st'
      · rw [body, tokenBody_leaf fuel st isQuoted list]
        exact growsTo_leaf (aklParseToken_keepsCode fuel st isQuoted list) fun v st' => .refl st'
  | value fuel st =>
      refine ⟨.refl st, ?_⟩
      rintro ⟨tok, st₁⟩
      by_cases mark : tok = .tQUOTE
      · simp only [if_pos mark]
        refine ⟨.refl st₁, ?_⟩
        rintro ⟨tok, st₂⟩
        exact ⟨.refl st₂, fun r => .refl r.2⟩
      · simp only [if_neg mark]
        exact ⟨.refl st₁, fun r => .refl r.2⟩
  | items fuel l st =>
      cases fuel with
      | zero => trivial
      | succ fuel =>
          refine ⟨.refl st, ?_⟩
          rintro ⟨v, st₁⟩
          cases v with
          | none => exact .refl st₁
          | some v => exact ⟨.refl st₁, fun r => .refl r.2⟩
  | next fuel cx st =>
      refine ⟨.refl st, ?_⟩
      rintro ⟨tok, st₁⟩
      cases tok with
      | tEOF => exact .refl st₁
      | tLBRACE => exact ⟨.refl st₁, fun r => .refl r.2⟩
      | tQUOTE =>
          refine ⟨.refl st₁, fun r => ⟨.refl r.2, ?_⟩⟩
          rintro ⟨v, st₃⟩
          exact emit_grown cx st₃ _
      | _ => exact ⟨.refl st₁, fun r => emit_grown cx r.2 _⟩
  | list fuel cx loc st =>
      cases fuel with
      | zero => trivial
      | succ fuel =>
          have round (r : Round σ) : GrowsTo (FrontCall.list (fuel + 1) cx loc st).resultState
              r.state (roundBody fuel cx r) := by
            cases r with
            | done fn st₁ => exact .refl st₁
            | again loc st₁ => exact ⟨.refl st₁, fun r => .refl r.2⟩
          refine ⟨.refl st, ?_⟩
          rintro ⟨tok, st₁⟩
          by_cases ended : tok = .tEOF
          · simp only [if_pos ended]
            exact .refl st₁
          · by_cases mark : tok = .tQUOTE
            · simp only [if_neg ended, if_pos mark]
              refine ⟨.refl st₁, ?_⟩
              rintro ⟨tok, st₂⟩
              exact ⟨.refl st₂, round⟩
            · simp only [if_neg ended, if_neg mark]
              exact ⟨.refl st₁, round⟩
  | switch fuel cx loc isQuoted tok st => exact switchBody_grows fuel cx loc isQuoted tok st
  | form fuel cx sform st => exact formBody_grows fuel cx sform st
  | args fuel st fname func =>
      refine ⟨.refl st, ?_⟩
      rintro ⟨tok, st₁⟩
      cases tok with
      | tLBRACE => exact ⟨.refl st₁, fun st₂ => .refl st₂⟩
      | _ => exact .refl st₁
  | params fuel func st =>
      cases fuel with
      | zero => trivial
      | succ fuel =>
          refine ⟨.refl st, ?_⟩
          rintro ⟨tok, st₁⟩
          cases tok with
          | tRBRACE => exact .refl st₁
          | tATOM =>
              refine growsTo_leaf (aklLexGetSymbol_keepsCode st₁) fun sym st₂ => ?_
              refine ⟨?_, fun st₃ => .refl st₃⟩
              exact modifyUfun_grown st₂ func (fun _ => List.prefix_append _ _)
                fun _ => List.prefix_refl _
          | _ => exact ⟨.refl st₁, fun st₂ => .refl st₂⟩
  | docstring st =>
      refine ⟨.refl st, ?_⟩
      rintro ⟨tok, st₁⟩
      by_cases string : tok = .tSTRING
      · simp only [if_pos string]
        exact growsTo_leaf (takeText_keepsCode st₁) fun text st₂ =>
          ⟨.refl st₂, fun r => .refl r.2⟩
      · simp only [if_neg string]
        exact .refl st₁
  | forms fuel cx st =>
      cases fuel with
      | zero => trivial
      | succ fuel =>
          refine ⟨.refl st, ?_⟩
          rintro ⟨⟨tok, fn⟩, st₁⟩
          by_cases ended : tok = .tEOF
          · simp only [if_pos ended]
            exact .refl st₁
          · simp only [if_neg ended]
            exact ⟨.refl st₁, fun st₂ => .refl st₂⟩

/-- What a call that returns has left is in the code at the end, and so is what each
call has left that it comes to. -/
theorem code_grows {c : FrontCall σ} {r : c.Result} (ran : c.run = .ok r) :
    c.state.Grown (c.resultState r) ∧
      ∀ c', (frontEnd σ).ComesTo c c' →
        ∃ r', c'.run = .ok r' ∧ (c'.resultState r').Grown (c.resultState r) :=
  (frontEnd σ).growth CompState.Grown.refl (fun _ _ _ first second => first.trans second)
    body_grows ran

/-- The instructions of a function are written into its own list. -/
def OwnList : FrontCall σ → Prop
  | .next _ cx _ | .list _ cx _ _ | .switch _ cx _ _ _ _ | .form _ cx _ _ | .forms _ cx _ =>
      cx.cxIr = cx.cxCompFunc
  | _ => True

/-- A call is compiled for the function under compilation. -/
theorem body_ownList (c : FrontCall σ) (own : c.OwnList) :
    c.body.Respects OwnList (fun _ _ => True) (fun _ => True) fun _ => True := by
  cases c with
  | lex st => exact respects_leaf (fun _ _ => trivial) fun _ _ => trivial
  | token fuel st tok isQuoted =>
      by_cases list : tok = .tLBRACE
      · subst list
        exact ⟨trivial, fun _ _ => trivial⟩
      · rw [body, tokenBody_leaf fuel st isQuoted list]
        exact respects_leaf (fun _ _ => trivial) fun _ _ => trivial
  | value fuel st =>
      refine ⟨trivial, ?_⟩
      rintro ⟨tok, st₁⟩ _
      by_cases mark : tok = .tQUOTE
      · simp only [if_pos mark]
        exact ⟨trivial, fun _ _ => ⟨trivial, fun _ _ => trivial⟩⟩
      · simp only [if_neg mark]
        exact ⟨trivial, fun _ _ => trivial⟩
  | items fuel l st =>
      cases fuel with
      | zero => trivial
      | succ fuel =>
          refine ⟨trivial, ?_⟩
          rintro ⟨v, st₁⟩ _
          cases v with
          | none => trivial
          | some v => exact ⟨trivial, fun _ _ => trivial⟩
  | next fuel cx st =>
      refine ⟨trivial, ?_⟩
      rintro ⟨tok, st₁⟩ _
      cases tok with
      | tEOF => trivial
      | tLBRACE => exact ⟨own, fun _ _ => trivial⟩
      | tQUOTE => exact ⟨trivial, fun _ _ => ⟨trivial, fun _ _ => trivial⟩⟩
      | _ => exact ⟨trivial, fun _ _ => trivial⟩
  | list fuel cx loc st =>
      cases fuel with
      | zero => trivial
      | succ fuel =>
          have round (r : Round σ) : (roundBody fuel cx r).Respects OwnList (fun _ _ => True)
              (fun _ => True) fun _ => True := by
            cases r with
            | done fn st₁ => trivial
            | again loc st₁ => exact ⟨own, fun _ _ => trivial⟩
          refine ⟨trivial, ?_⟩
          rintro ⟨tok, st₁⟩ _
          by_cases ended : tok = .tEOF
          · simp only [if_pos ended]
            trivial
          · by_cases mark : tok = .tQUOTE
            · simp only [if_neg ended, if_pos mark]
              exact ⟨trivial, fun _ _ => ⟨own, fun r _ => round r⟩⟩
            · simp only [if_neg ended, if_neg mark]
              exact ⟨own, fun r _ => round r⟩
  | switch fuel cx loc isQuoted tok st =>
      cases tok with
      | tATOM =>
          refine respects_leaf (fun _ _ => trivial) ?_
          rintro ⟨sym, st₁⟩ _
          by_cases first : loc.felem
          · simp only [if_pos first, headBody]
            generalize prefetchFunction _ sym = fetched
            obtain ⟨pfSt, fun_⟩ := fetched
            cases pfSt with
            | sform =>
                dsimp only
                cases fun_.bind _ with
                | some sform => exact ⟨own, fun _ _ => trivial⟩
                | none => trivial
            | _ => trivial
          · simp only [if_neg first]
            trivial
      | tLBRACE =>
          cases isQuoted with
          | true => exact ⟨trivial, fun _ _ => trivial⟩
          | false => exact ⟨own, fun _ _ => trivial⟩
      | tRBRACE => trivial
      | _ =>
          refine ⟨trivial, ?_⟩
          rintro ⟨v, st₁⟩ _
          cases v <;> trivial
  | form fuel cx sform st =>
      cases sform with
      | sif => exact ⟨own, fun _ _ => ⟨own, fun _ _ => ⟨own, fun _ _ => trivial⟩⟩⟩
      | when => exact ⟨own, fun _ _ => ⟨own, fun _ _ => trivial⟩⟩
      | swhile => exact ⟨own, fun _ _ => ⟨own, fun _ _ => trivial⟩⟩
      | lambda => exact ⟨trivial, fun _ _ => ⟨trivial, fun _ _ => ⟨rfl, fun _ _ => trivial⟩⟩⟩
      | set =>
          refine ⟨trivial, ?_⟩
          rintro ⟨tok, st₁⟩ _
          by_cases atom : tok ≠ .tATOM
          · simp only [if_pos atom]
            trivial
          · simp only [if_neg atom]
            exact respects_leaf (fun _ _ => trivial) fun _ _ => ⟨own, fun _ _ => trivial⟩
      | defun =>
          refine ⟨trivial, ?_⟩
          rintro ⟨tok, st₁⟩ _
          by_cases atom : tok ≠ .tATOM
          · simp only [if_pos atom]
            trivial
          · simp only [if_neg atom]
            exact respects_leaf (fun _ _ => trivial) fun _ _ =>
              ⟨trivial, fun _ _ => ⟨trivial, fun _ _ => ⟨rfl, fun _ _ => trivial⟩⟩⟩
  | args fuel st fname func =>
      refine ⟨trivial, ?_⟩
      rintro ⟨tok, st₁⟩ _
      cases tok with
      | tLBRACE => exact ⟨trivial, fun _ _ => trivial⟩
      | _ => trivial
  | params fuel func st =>
      cases fuel with
      | zero => trivial
      | succ fuel =>
          refine ⟨trivial, ?_⟩
          rintro ⟨tok, st₁⟩ _
          cases tok with
          | tRBRACE => trivial
          | tATOM => exact respects_leaf (fun _ _ => trivial) fun _ _ =>
              ⟨trivial, fun _ _ => trivial⟩
          | _ => exact ⟨trivial, fun _ _ => trivial⟩
  | docstring st =>
      refine ⟨trivial, ?_⟩
      rintro ⟨tok, st₁⟩ _
      by_cases string : tok = .tSTRING
      · simp only [if_pos string]
        exact respects_leaf (fun _ _ => trivial) fun _ _ => ⟨trivial, fun _ _ => trivial⟩
      · simp only [if_neg string]
        trivial
  | forms fuel cx st =>
      cases fuel with
      | zero => trivial
      | succ fuel =>
          refine ⟨own, ?_⟩
          rintro ⟨⟨tok, fn⟩, st₁⟩ _
          by_cases ended : tok = .tEOF
          · simp only [if_pos ended]
            trivial
          · simp only [if_neg ended]
            exact ⟨own, fun _ _ => trivial⟩

end FrontCall

end AkLisp
