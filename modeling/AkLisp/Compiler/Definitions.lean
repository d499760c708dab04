import AkLisp.Compiler.Calls
import AkLisp.Compiler.Positions

/-!
# The body of a definition

`akl_sfun_defun` has one expression compiled for the new function, and behind a
string the token in front of it is dropped.  What the form leaves of its list is
compiled by the loop of `akl_compile_list` for the enclosing function.
-/

namespace AkLisp

open Outcome

/-- A `defun!` form as it is written.  The expressions of its body are given by
their tokens. -/
structure Definition where
  name : List Chr
  params : List (List Chr)
  doc : Option (List Chr)
  bodies : List (List Lexeme)

/-- Append parameters to a user function. -/
def CompState.addArgs (s : CompState Unit) (func : FRef) : List (List Chr) → CompState Unit
  | [] => s
  | text :: params => (s.addArg func (aklGetOrCreateSymbol text)).addArgs func params

namespace Definition

/-- The symbol that is defined. -/
def sym (d : Definition) : Symbol := aklGetOrCreateSymbol d.name

/-- The tokens behind the parameters. -/
def bodyTokens (d : Definition) : List Lexeme :=
  (d.doc.toList.map fun text => ⟨.tSTRING, text⟩) ++ d.bodies.flatten

/-- The tokens behind the name of the special form. -/
def operands (d : Definition) : List Lexeme :=
  atomLexeme d.name :: (paramTokens d.params ++ d.bodyTokens)

def tokens (d : Definition) : List Lexeme :=
  openLexeme :: atomLexeme SForm.defun.text :: (d.operands ++ [closeLexeme])

/-- Behind the parameters stands a string, be it for documentation or not. -/
def StringBehindParams (d : Definition) : Prop :=
  ∃ l ls, d.bodyTokens = l :: ls ∧ l.tok = .tSTRING

/-- The state in which the new function is there. -/
def created (s : CompState Unit) : CompState Unit :=
  (aklNewUserFunction (s.withSymbol SForm.defun.symbol false)).2

/-- The state in which it has its parameters. -/
def filled (d : Definition) (s : CompState Unit) : CompState Unit :=
  CompState.addArgs ((created s).withData ((created s).data.newFunctionValue s.funs.length).2)
    s.funs.length d.params

/-- The state in which the name is bound to the new function, which has its
parameters and no code. -/
def opened (d : Definition) (s : CompState Unit) : CompState Unit :=
  bindFunction (d.filled s) d.sym ((created s).data.newFunctionValue s.funs.length).1

end Definition

/-- The places an expression is compiled in: as what `akl_compile_next` takes, as the
operand of `set!`, and as the first or another element of a list. -/
inductive Place where
  | operand
  | rhs
  | element (first : Bool)
  deriving DecidableEq

/-- In these places a function an expression evaluates to is pushed. -/
def Place.PushesFunction : Place → Prop
  | .operand | .element true => False
  | .rhs | .element false => True

section

variable [Libc] {σ : Type} [TokenSource σ]

/-- In its place the expression is taken by the compiler, working for the function `f`. -/
def Place.Takes (D : Delivery σ) (f : FRef) (ts : List Lexeme) (s s' : CompState Unit) :
    Place → Prop
  | .operand => ∃ fn, Compiles D ts s fn s' (.next ⟨f, f⟩)
  | .rhs => ∃ fn s₁, Compiles D ts s fn s₁ (.next ⟨f, f⟩) ∧ s' = pushFunction ⟨f, f⟩ s₁ fn
  | .element first => ∀ (loc : ListLocals) fuel rest dev, loc.felem = first →
      ts.length ≤ fuel → D.Ready (ts ++ rest) dev →
      ∃ loc' dev', compileRound fuel (aklCompileList fuel) (aklCompileNext fuel) ⟨f, f⟩ loc
          (s.withDev dev) = .ok (.again loc' (s'.withDev dev')) ∧ D.Ready rest dev'

/-- `akl_compile_next` compiles the expressions one after the other for the function `g`. -/
inductive CompiledInto (g : FRef) :
    List (List Lexeme) → CompState Unit → CompState Unit → Prop where
  | nil {s} : CompiledInto g [] s s
  | cons {ts tss s fn s₁ s'}
      (first : ∀ {σ : Type} [TokenSource σ] (D : Delivery σ), Compiles D ts s fn s₁ (.next ⟨g, g⟩))
      (others : CompiledInto g tss s₁ s') : CompiledInto g (ts :: tss) s s'

namespace Definition

/-- `akl_sfun_defun`, called for the function `f`, has each expression of the body
compiled for the new function. -/
def CompilesBodies (D : Delivery σ) (f : FRef) (s : CompState Unit) (d : Definition) : Prop :=
  ∀ fuel rest dev, d.operands.length ≤ fuel →
    D.Ready (d.operands ++ closeLexeme :: rest) dev →
    ∀ before ts after, d.bodies = before ++ ts :: after →
      ∃ fuel' st', (frontEnd σ).Calls
          (.form fuel ⟨f, f⟩ .defun ((s.withSymbol SForm.defun.symbol false).withDev dev))
          (.next fuel' ⟨s.funs.length, s.funs.length⟩ st') ∧
        D.Offers (ts ++ (after.flatten ++ closeLexeme :: rest)) st'.dev

end Definition

end

/-- The definition is compiled in a place from the state `s` to the state `s'` with its
body inside: the enclosing function `f` gets one instruction, the push `v` of the
name, and the new function gets what the expressions of the body are compiled to,
one after the other, which leads to the state `s₁`. -/
structure Definition.Inside [Libc] (place : Place) (f : FRef) (s : CompState Unit)
    (d : Definition) (s₁ s' : CompState Unit) (v : VRef) : Prop where
  takes : ∀ {σ : Type} [TokenSource σ] (D : Delivery σ), place.Takes D f d.tokens s s'
  called : ∀ {σ : Type} [TokenSource σ] (D : Delivery σ), d.CompilesBodies D f s
  grows : ∀ args code labels, Draft s.funs f args code labels →
    Draft s'.funs f args (code ++ [.push (some v)]) labels
  name : s'.data.payload v = some (.symbol d.sym)
  bodies : CompiledInto s.funs.length d.bodies (d.opened s) s₁
  own : (s'.ufun s.funs.length).ufBody = (s₁.ufun s.funs.length).ufBody

/-- The body of the definition stays in the definition. -/
def Definition.BodyStaysInside [Libc] (place : Place) (f : FRef) (s : CompState Unit)
    (d : Definition) : Prop :=
  ∃ s₁ s' v, d.Inside place f s s₁ s' v

/-- The tokens are those of expressions, the names standing for the special forms `n`. -/
inductive Expressions : List (List Lexeme) → FormNames → Prop where
  | nil {n} : Expressions [] n
  | cons {ts tss n n'} (first : HasOperands .operand ts n n') (others : Expressions tss n') :
      Expressions (ts :: tss) n

/-! ### Opening a definition -/

theorem paramLoop_addArgs (func : FRef) (params : List (List Chr)) (s : CompState Unit) :
    ParamLoop func (params.map atomLexeme ++ [closeLexeme]) s (s.addArgs func params) := by
  induction params generalizing s with
  | nil => exact .close rfl
  | cons text params ih => exact .atom rfl (ih _)

theorem params_addArgs (fname : String) (func : FRef) (params : List (List Chr))
    (s : CompState Unit) : Params fname func (paramTokens params) s (s.addArgs func params) := by
  cases params with
  | nil => exact .empty rfl
  | cons text params => exact .list rfl (paramLoop_addArgs func (text :: params) s)

theorem Definition.params_filled (d : Definition) (s : CompState Unit) :
    Params d.sym.text s.funs.length (paramTokens d.params)
      ((Definition.created s).withData
        ((Definition.created s).data.newFunctionValue s.funs.length).2) (d.filled s) :=
  params_addArgs _ _ _ _

section

variable [Libc] {f : FRef} {s : CompState Unit} {d : Definition} {σ : Type} [TokenSource σ]
  {D : Delivery σ}

/-- The only call of `akl_compile_next` that `akl_sfun_defun` makes is at the token that
is left behind a documentation string or none. -/
theorem Definition.calls_next_iff {doc ls rest : List Lexeme} {first : Lexeme}
    (tokens : d.bodyTokens ++ closeLexeme :: rest = doc ++ first :: ls)
    (docstring : Docstring doc first) {fuel : Nat} (enough : d.operands.length ≤ fuel) {dev : σ}
    (ready : D.Ready (d.operands ++ closeLexeme :: rest) dev) :
    ∃ dev', D.Offers (first :: ls) dev' ∧ ∀ fuel' cx' st', (frontEnd σ).Calls
        (.form fuel ⟨f, f⟩ .defun ((s.withSymbol SForm.defun.symbol false).withDev dev))
        (.next fuel' cx' st') ↔
      fuel' = fuel ∧ cx' = ⟨s.funs.length, s.funs.length⟩ ∧ st' = (d.opened s).withDev dev' := by
  let named := s.withSymbol SForm.defun.symbol false
  let new := Definition.created s
  let valued := new.withData (new.data.newFunctionValue s.funs.length).2
  have enough' : (paramTokens d.params).length ≤ fuel := by
    rw [Definition.operands, List.length_cons, List.length_append] at enough
    omega
  rw [Definition.operands, List.cons_append, List.append_assoc, tokens] at ready
  obtain ⟨dev₀, lexEq, lexed⟩ := CompState.aklLex_offers (Delivery.offers ready) valued
  obtain ⟨dev₁, symbolEq, ready₁⟩ := CompState.aklLexGetSymbol_lexed lexed rfl valued
  obtain ⟨dev₂, paramsEq, ready₂⟩ := (d.params_filled s).sound fuel enough' ready₁
  obtain ⟨dev₃, docEq, offers⟩ := docstring.sound ready₂ (d.filled s)
  refine ⟨dev₃, offers, fun fuel' cx' st' => ?_⟩
  have lexRun : FrontCall.run (.lex (valued.withDev dev)) = .ok (.tATOM, valued.withDev dev₀) :=
    lexEq
  have argsRun : FrontCall.run (.args fuel (valued.withDev dev₁) d.sym.text s.funs.length) =
      .ok ((d.filled s).withDev dev₂) := paramsEq
  have docRun : FrontCall.run (.docstring ((d.filled s).withDev dev₂)) =
      .ok ((d.filled s).withDev dev₃) := docEq
  change (FrontCall.defunBody fuel ⟨f, f⟩ (named.withDev dev)).Calls FrontCall.run
    (.next fuel' cx' st') ↔ _
  refine (Body.calls_call_iff lexRun).trans ?_
  simp only [reduceCtorEq, false_or, not_true_eq_false, ne_eq, if_false]
  rw [symbolEq]
  refine (Body.calls_call_iff argsRun).trans ?_
  simp only [reduceCtorEq, false_or]
  refine (Body.calls_call_iff docRun).trans ?_
  simp only [reduceCtorEq, false_or]
  constructor
  · intro calls
    cases calls with
    | here => exact ⟨rfl, rfl, rfl⟩
    | later returned next => exact absurd next Body.not_calls_ret
  · rintro ⟨rfl, rfl, rfl⟩
    exact .here

/-! ### One expression behind the parameters -/

omit [Libc] in
theorem Definition.opened_knows (d : Definition) {n : FormNames} (knows : s.Knows n) :
    (d.opened s).Knows (Function.update n d.sym none) := by
  have named : (s.withSymbol SForm.defun.symbol false).Knows n := (Steady.newValue s _).knows knows
  exact named.define rfl (d.params_filled s) d.sym

omit [Libc] in
/-- Functions that are there already are left alone when a definition is opened. -/
theorem Definition.opened_kept (d : Definition) (s : CompState Unit) :
    KeptBeside s.funs.length s.funs (d.opened s).funs := by
  have filled := KeptBeside.params (d.params_filled s)
  exact (KeptBeside.newFunction _ (s.withSymbol SForm.defun.symbol false)).trans filled

omit [Libc] in
/-- What is emitted for one function leaves another one alone. -/
theorem CompState.emit_ufun (s : CompState Unit) (cx : CompContext) (instr : Instr) {g : FRef}
    (other : g ≠ cx.cxIr) : (s.emit cx instr).ufun g = s.ufun g := by
  simp [CompState.ufun, CompState.emit, CompState.modifyUfun, Ne.symm other]

/-- A definition with one expression behind its parameters. -/
theorem Definition.compiles_one {args : List Symbol} {code : List Instr} {labels : List Label}
    {first : Lexeme} {tb : List Lexeme} {n' : FormNames} (bound : s.data.Bound)
    (special : s.formName SForm.defun.symbol = some .defun)
    (draft : Draft s.funs f args code labels) (tokens : d.bodyTokens = first :: tb)
    (docstring : Docstring [] first)
    (operand : HasOperands .operand (first :: tb) (Function.update s.formName d.sym none) n') :
    ∃ fb s₁ v, Translates (.next ⟨s.funs.length, s.funs.length⟩) (first :: tb) (d.opened s) fb s₁ ∧
      Translates (.loop ⟨f, f⟩ .init) (atomLexeme SForm.defun.text :: (d.operands ++ [closeLexeme]))
        s (some s.funs.length) (pushName ⟨f, f⟩ s₁ d.sym) ∧
      Draft (pushName ⟨f, f⟩ s₁ d.sym).funs f args (code ++ [.push (some v)]) labels ∧
      (pushName ⟨f, f⟩ s₁ d.sym).data.payload v = some (.symbol d.sym) ∧
      ((pushName ⟨f, f⟩ s₁ d.sym).ufun s.funs.length).ufBody = (s₁.ufun s.funs.length).ufBody := by
  obtain ⟨fb, s₁, body, -⟩ := operand.taken ⟨s.funs.length, s.funs.length⟩ _
    (d.opened_knows ⟨bound, rfl⟩)
  have form : Translates (.form ⟨f, f⟩ .defun) d.operands (s.withSymbol SForm.defun.symbol false)
      (some s.funs.length) (pushName ⟨f, f⟩ s₁ d.sym) := by
    rw [Definition.operands, tokens]
    have symEq : aklGetOrCreateSymbol (atomLexeme d.name).text = d.sym := rfl
    exact .defun (s := s.withSymbol SForm.defun.symbol false) rfl rfl symEq (d.params_filled s)
      docstring body
  have inside : f < s.funs.length := by
    obtain ⟨body, found, -⟩ := draft
    exact (List.getElem?_eq_some_iff.mp found).1
  have kept : Draft s₁.funs f args code labels := by
    apply draft.kept_all
    intro g old found
    have before : g < s.funs.length := (List.getElem?_eq_some_iff.mp found).1
    exact ((d.opened_kept s).trans (body.keptBeside rfl)) g old (Nat.ne_of_lt before) found
  have named : Draft (s₁.withData (s₁.data.newSymValue d.sym).2).funs f args code labels := kept
  refine ⟨fb, s₁, s₁.data.values.length, body, form_list bound special form, named.emit f _,
    s₁.data.newValue_payload_self ⟨.symbol d.sym, false, false⟩, ?_⟩
  exact congrArg LispFun.ufBody (CompState.emit_ufun _ _ _ (Nat.ne_of_gt inside))

/-! ### Places -/

/-- The state behind a list in a place, given the function it evaluates to. -/
def Place.finish (f : FRef) (s : CompState Unit) (fn : Option FRef) : Place → CompState Unit
  | .operand | .element true => s
  | .rhs | .element false => pushFunction ⟨f, f⟩ s fn

omit [Libc] in
theorem Place.finish_inner (f : FRef) (loc : ListLocals) (fn : Option FRef) :
    (compileInner ⟨f, f⟩ loc fn s).2 = (Place.element loc.felem).finish f s fn := by
  cases fn with
  | none => cases loc.felem <;> rfl
  | some g => cases first : loc.felem <;> simp [compileInner, first] <;> rfl

/-- A list is taken in every place. -/
theorem Place.takes_list {items : List Lexeme} {fn : Option FRef} {s₁ : CompState Unit}
    (loop : Translates (.loop ⟨f, f⟩ .init) items s fn s₁) (place : Place) :
    place.Takes D f (openLexeme :: items) s (place.finish f s₁ fn) := by
  have next : Compiles D (openLexeme :: items) s fn s₁ (.next ⟨f, f⟩) :=
    (Translates.nextList rfl loop).sound
  cases place with
  | operand => exact ⟨fn, next⟩
  | rhs => exact ⟨fn, s₁, next, rfl⟩
  | element first =>
      rintro loc fuel rest dev rfl enough ready
      obtain ⟨dev₁, roundEq, lexed⟩ := compileRound_mark .plain (Delivery.offers ready)
        (by simp [openLexeme]) (by simp [openLexeme]) fuel (aklCompileList fuel)
        (aklCompileNext fuel) ⟨f, f⟩ loc s
      obtain ⟨dev', listEq, ready'⟩ :=
        loop.sound fuel rest dev₁ (Nat.le_of_succ_le enough) (D.forget lexed)
      have listEq' : aklCompileList fuel ⟨f, f⟩ (s.withDev dev₁) = .ok (fn, s₁.withDev dev') :=
        listEq
      refine ⟨(compileInner ⟨f, f⟩ loc fn s₁).1, dev', ?_, ready'⟩
      rw [roundEq, ← Place.finish_inner]
      simp only [compileToken, openLexeme, listEq', bind, Except.bind,
        CompState.compileInner_withDev]
      rfl

/-- The compiler makes one thing of the tokens only. -/
theorem Place.Takes.unique {place : Place} {ts : List Lexeme} {s' s'' : CompState Unit}
    (first : place.Takes tokStreamDelivery f ts s s')
    (second : place.Takes tokStreamDelivery f ts s s'') : s' = s'' := by
  cases place with
  | operand =>
      obtain ⟨fn, makes⟩ := first
      obtain ⟨fn', makes'⟩ := second
      exact (makes.unique makes').2
  | rhs =>
      obtain ⟨fn, s₁, makes, rfl⟩ := first
      obtain ⟨fn', s₁', makes', rfl⟩ := second
      obtain ⟨rfl, rfl⟩ := makes.unique makes'
      rfl
  | element atHead =>
      have ready := TokStream.ready_ofList (ts ++ [])
      obtain ⟨loc, dev, makes, -⟩ :=
        first ⟨.sform, 0, atHead, none, none⟩ ts.length [] _ rfl (le_refl _) ready
      obtain ⟨loc', dev', makes', -⟩ :=
        second ⟨.sform, 0, atHead, none, none⟩ ts.length [] _ rfl (le_refl _) ready
      rw [makes] at makes'
      injection makes' with equal
      exact CompState.withDev_inj (Round.again.inj equal).2

/-! ### Where the body is -/

omit [Libc] in
/-- A source offers one list of tokens behind the next one only. -/
theorem TokStream.offers_unique {l l' : Lexeme} {ls ls' : List Lexeme} {dev : TokStream}
    (first : tokStreamDelivery.Offers (l :: ls) dev)
    (second : tokStreamDelivery.Offers (l' :: ls') dev) : ls = ls' := by
  obtain ⟨dev₁, lexEq, rest, -⟩ := first.lex
  obtain ⟨dev₁', lexEq', rest', -⟩ := second.lex
  rw [lexEq] at lexEq'
  injection lexEq' with equal
  obtain rfl := (Prod.mk.inj equal).2
  exact rest.symm.trans rest'

omit [Libc] in
theorem HasOperands.nonempty {ts : List Lexeme} {n n' : FormNames}
    (operand : HasOperands .operand ts n n') :
    ∃ first tb, ts = first :: tb ∧ first.tok ≠ .tEOF := by
  cases operand with
  | @leaf l _ leaf =>
      refine ⟨l, [], rfl, fun ended => ?_⟩
      simp [ended, Token.isLeaf] at leaf
  | quoted tok => exact ⟨_, _, rfl, by simp [tok]⟩
  | list tok => exact ⟨_, _, rfl, by simp [tok]⟩

/-- Each expression of the body stands where `akl_sfun_defun` calls `akl_compile_next`: so
many tokens are left there behind the first one. -/
theorem Definition.CompilesBodies.left {doc ls rest : List Lexeme} {first : Lexeme}
    (called : d.CompilesBodies tokStreamDelivery f s)
    (tokens : d.bodyTokens ++ closeLexeme :: rest = doc ++ first :: ls)
    (docstring : Docstring doc first) (before : List (List Lexeme)) {after : List (List Lexeme)}
    {l : Lexeme} {tb : List Lexeme} (bodies : d.bodies = before ++ (l :: tb) :: after) :
    ls.length = tb.length + after.flatten.length + 1 + rest.length := by
  have ready := TokStream.ready_ofList (d.operands ++ closeLexeme :: rest)
  obtain ⟨dev', offers, only⟩ := Definition.calls_next_iff (f := f) (s := s) tokens docstring
    (le_refl _) ready
  obtain ⟨fuel', st', calls, offers'⟩ := called _ rest _ (le_refl _) ready before _ after bodies
  obtain ⟨-, -, rfl⟩ := (only _ _ _).mp calls
  have equal : ls = tb ++ (after.flatten ++ closeLexeme :: rest) :=
    TokStream.offers_unique offers offers'
  rw [equal, List.length_append, List.length_append, List.length_cons]
  omega

omit [Libc] in
theorem Definition.bodyTokens_length (d : Definition) :
    d.bodyTokens.length ≤ d.bodies.flatten.length + 1 := by
  unfold Definition.bodyTokens
  cases d.doc with
  | none => simp
  | some text => simp

/-- Behind a string no expression is compiled from its first token on. -/
theorem Definition.CompilesBodies.notString
    (called : d.CompilesBodies tokStreamDelivery f s) {l : Lexeme} {tb : List Lexeme}
    {tss : List (List Lexeme)} (bodies : d.bodies = (l :: tb) :: tss) : ¬d.StringBehindParams := by
  rintro ⟨str, ls, tokens, string⟩
  -- two tokens more make sure that one is left behind the string and the dropped one
  obtain ⟨dropped, first, ls', left⟩ : ∃ dropped first ls',
      ls ++ [closeLexeme, closeLexeme] = dropped :: first :: ls' := by
    cases ls with
    | nil => exact ⟨_, _, _, rfl⟩
    | cons l ls => cases ls <;> exact ⟨_, _, _, rfl⟩
  have split : d.bodyTokens ++ closeLexeme :: [closeLexeme] = [str, dropped] ++ first :: ls' := by
    rw [tokens, List.cons_append, left]
    rfl
  have compiled := called.left split (.present string) [] bodies
  have lengths := congrArg List.length split
  have most := d.bodyTokens_length
  rw [bodies, List.flatten_cons, List.length_append, List.length_cons] at most
  simp only [List.length_append, List.length_cons, List.length_nil] at lengths compiled
  omega

/-- Only the first expression is compiled there. -/
theorem Definition.CompilesBodies.one
    (called : d.CompilesBodies tokStreamDelivery f s) {ts : List Lexeme} {tss : List (List Lexeme)}
    {n : FormNames} (expressions : Expressions (ts :: tss) n) (bodies : d.bodies = ts :: tss)
    (tokens : d.bodyTokens = d.bodies.flatten) : tss = [] := by
  cases expressions with
  | @cons _ _ _ n' operand others =>
      obtain ⟨first, tb, rfl, notEof⟩ := operand.nonempty
      have notString : first.tok ≠ .tSTRING := by
        intro string
        refine called.notString bodies ⟨first, tb ++ tss.flatten, ?_, string⟩
        rw [tokens, bodies]
        rfl
      cases others with
      | nil => rfl
      | @cons ts' tss' _ _ operand' others' =>
          obtain ⟨first', tb', rfl, -⟩ := operand'.nonempty
          have split : d.bodyTokens ++ closeLexeme :: [] =
              [] ++ first :: (tb ++ ((first' :: tb') ++ (tss'.flatten ++ [closeLexeme]))) := by
            rw [tokens, bodies]
            simp
          have compiled := called.left split (.absent notString notEof) [first :: tb] bodies
          simp only [List.length_append, List.length_cons, List.length_nil] at compiled
          omega

omit [Libc] in
/-- With no string behind the parameters there is no documentation string. -/
theorem Definition.bodyTokens_eq (notString : ¬d.StringBehindParams) :
    d.bodyTokens = d.bodies.flatten := by
  unfold Definition.StringBehindParams at notString
  unfold Definition.bodyTokens at notString ⊢
  cases doc : d.doc with
  | none => rfl
  | some text =>
      rw [doc] at notString
      exact absurd ⟨_, _, rfl, rfl⟩ notString

omit [Libc] in
theorem Definition.bodyTokens_one {ts : List Lexeme} (notString : ¬d.StringBehindParams)
    (bodies : d.bodies = [ts]) : d.bodyTokens = ts := by
  rw [Definition.bodyTokens_eq notString, bodies]
  exact List.flatten_singleton

omit [Libc] in
theorem Definition.docstring_absent {first : Lexeme} {tb : List Lexeme}
    (notString : ¬d.StringBehindParams) (tokens : d.bodyTokens = first :: tb)
    (notEof : first.tok ≠ .tEOF) : Docstring [] first :=
  .absent (fun string => notString ⟨first, tb, tokens, string⟩) notEof

omit [Libc] in
theorem Place.finish_dropped {place : Place} (dropped : ¬place.PushesFunction) (fn : Option FRef) :
    place.finish f s fn = s := by
  cases place with
  | operand => rfl
  | rhs => exact absurd trivial dropped
  | element first =>
      cases first with
      | true => rfl
      | false => exact absurd trivial dropped

omit [Libc] in
/-- Where the function is pushed too, there is one more instruction. -/
theorem Place.finish_pushed {place : Place} (pushes : place.PushesFunction) {args : List Symbol}
    {code : List Instr} {labels : List Label} (draft : Draft s.funs f args code labels) (g : FRef) :
    Draft (place.finish f s (some g)).funs f args
      (code ++ [.push (some s.data.values.length)]) labels := by
  have valued : Draft (s.withData (s.data.newFunctionValue g).2).funs f args code labels := draft
  have pushed : place.finish f s (some g) = pushFunction ⟨f, f⟩ s (some g) := by
    cases place with
    | operand => exact False.elim pushes
    | rhs => rfl
    | element first =>
        cases first with
        | true => exact False.elim pushes
        | false => rfl
  rw [pushed]
  exact valued.emit f _

omit [Libc] in
/-- The code of a function that is being compiled is determined by its list. -/
theorem Draft.unique {args args' : List Symbol} {code code' : List Instr}
    {labels labels' : List Label} (first : Draft s.funs f args code labels)
    (second : Draft s.funs f args' code' labels') :
    args = args' ∧ code = code' ∧ labels = labels' := by
  obtain ⟨body, found, bodyEq⟩ := first
  obtain ⟨body', found', bodyEq'⟩ := second
  rw [found] at found'
  cases found'
  refine ⟨rfl, ?_, rfl⟩
  exact List.append_cancel_right (bodyEq.symm.trans bodyEq')

/-- The body of a definition stays in the definition exactly when it is one expression, no
string stands behind the parameters, and the definition is in a place where its function is
not pushed. -/
theorem body_stays_inside_iff (place : Place) {args : List Symbol} {code : List Instr}
    {labels : List Label} (bound : s.data.Bound)
    (special : s.formName SForm.defun.symbol = some .defun)
    (draft : Draft s.funs f args code labels)
    (expressions : Expressions d.bodies (Function.update s.formName d.sym none))
    (body : d.bodies ≠ []) :
    d.BodyStaysInside place f s ↔
      ¬d.StringBehindParams ∧ d.bodies.length = 1 ∧ ¬place.PushesFunction := by
  obtain ⟨ts, tss, bodies⟩ := List.exists_cons_of_ne_nil body
  rw [bodies] at expressions
  cases expressions with
  | @cons _ _ _ n' operand others =>
    obtain ⟨first, tb, rfl, notEof⟩ := operand.nonempty
    constructor
    · rintro ⟨s₁, s', v, inside⟩
      have called := inside.called tokStreamDelivery
      have notString := called.notString bodies
      obtain rfl := called.one (.cons operand others) bodies (Definition.bodyTokens_eq notString)
      have tokens := Definition.bodyTokens_one notString bodies
      refine ⟨notString, by rw [bodies, List.length_singleton], fun pushes => ?_⟩
      obtain ⟨fb, s₂, w, -, loop, once, -⟩ := Definition.compiles_one bound special draft tokens
        (Definition.docstring_absent notString tokens notEof) operand
      obtain rfl := (inside.takes tokStreamDelivery).unique (Place.takes_list loop place)
      have twice := Place.finish_pushed pushes once s.funs.length
      obtain ⟨-, codes, -⟩ := (inside.grows args code labels draft).unique twice
      have lengths := congrArg List.length codes
      simp at lengths
    · rintro ⟨notString, one, dropped⟩
      obtain rfl : tss = [] := by simpa [bodies] using one
      have tokens := Definition.bodyTokens_one notString bodies
      have docstring := Definition.docstring_absent notString tokens notEof
      obtain ⟨fb, s₁, v, inner, loop, once, payload, own⟩ :=
        Definition.compiles_one bound special draft tokens docstring operand
      refine ⟨s₁, _, v, ?_, ?_, ?_, payload, ?_, own⟩
      · intro σ _ D
        have taken := Place.takes_list (D := D) loop place
        rwa [Place.finish_dropped dropped] at taken
      · intro σ _ D fuel rest dev enough ready before ts after split
        rw [bodies] at split
        obtain ⟨rfl, rfl, rfl⟩ : before = [] ∧ ts = first :: tb ∧ after = [] := by
          cases before with
          | nil => exact ⟨rfl, (List.cons.inj split).1.symm, (List.cons.inj split).2.symm⟩
          | cons b before => simp at split
        have behind : d.bodyTokens ++ closeLexeme :: rest =
            [] ++ first :: (tb ++ closeLexeme :: rest) := by rw [tokens]; rfl
        obtain ⟨dev', offers, only⟩ :=
          Definition.calls_next_iff (f := f) (s := s) behind docstring enough ready
        exact ⟨fuel, _, (only _ _ _).mpr ⟨rfl, rfl, rfl⟩, offers⟩
      · intro args' code' labels' draft'
        obtain ⟨rfl, rfl, rfl⟩ := draft.unique draft'
        exact once
      · rw [bodies]
        exact .cons (fun D => inner.sound) .nil

end

/-- `(defun! f () NIL)` -/
def oneExpression : Definition := ⟨[code 'f'], [], none, [[nilLexeme]]⟩

/-- `(defun! f () NIL NIL)` -/
def twoExpressions : Definition := ⟨[code 'f'], [], none, [[nilLexeme], [nilLexeme]]⟩

/-- `(defun! f () "d" NIL NIL)` -/
def documented : Definition := ⟨[code 'f'], [], some [code 'd'], [[nilLexeme], [nilLexeme]]⟩

/-- One expression stays inside where the function is dropped, but not in an argument; two do
not stay inside. -/
theorem body_stays_inside_one :
    @Definition.BodyStaysInside decimalLibc .operand Machine.init.funs.length firstState
        oneExpression ∧
      ¬@Definition.BodyStaysInside decimalLibc (.element false) Machine.init.funs.length firstState
        oneExpression ∧
      ¬@Definition.BodyStaysInside decimalLibc .operand Machine.init.funs.length firstState
        twoExpressions := by
  have single : ∀ place : Place, _ := fun place =>
    @body_stays_inside_iff decimalLibc _ _ oneExpression place _ _ _ Machine.init_bound
      (firstState_special .defun) firstState_draft (.cons (.leaf rfl) .nil) (List.cons_ne_nil _ _)
  have double := @body_stays_inside_iff decimalLibc _ _ twoExpressions .operand _ _ _
    Machine.init_bound (firstState_special .defun) firstState_draft
    (.cons (.leaf rfl) (.cons (.leaf rfl) .nil)) (List.cons_ne_nil _ _)
  refine ⟨(single .operand).mpr ⟨?_, rfl, ?_⟩, fun inside => ?_, fun inside => ?_⟩
  · rintro ⟨l, ls, tokens, string⟩
    cases tokens
    cases string
  · intro pushes
    cases pushes
  · exact ((single (.element false)).mp inside).2.2 trivial
  · cases (double.mp inside).2.1

/-- The instructions of the first function of a new interpreter that compiles the tokens. -/
def enclosingCode (ts : List Lexeme) : Option (List Instr) :=
  (@aklCompileNext TokStream _ decimalLibc ts.length firstContext
    (firstState.withDev (.ofList ts))).toOption.map fun r =>
      (r.2.ufun Machine.init.funs.length).ufBody

/-- The second expression of a body is compiled for the enclosing function, and behind a
documentation string the first one is lost. -/
theorem body_leaves :
    (¬@Definition.BodyStaysInside decimalLibc .operand Machine.init.funs.length firstState
        twoExpressions ∧
      (enclosingCode twoExpressions.tokens).map List.length =
        (enclosingCode oneExpression.tokens).map (List.length · + 1)) ∧
    ¬@Definition.BodyStaysInside decimalLibc .operand Machine.init.funs.length firstState
        documented := by
  let libc := decimalLibc
  refine ⟨⟨?_, by decide +kernel⟩, ?_⟩
  · rintro ⟨s₁, s', v, inside⟩
    have expressions : Expressions twoExpressions.bodies fun _ => none :=
      .cons (.leaf rfl) (.cons (.leaf rfl) .nil)
    have one := (inside.called tokStreamDelivery).one expressions rfl rfl
    cases one
  · rintro ⟨s₁, s', v, inside⟩
    exact (inside.called tokStreamDelivery).notString rfl ⟨_, _, rfl, rfl⟩

end AkLisp
