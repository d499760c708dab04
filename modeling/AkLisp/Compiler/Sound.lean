import AkLisp.Compiler.Translates

/-!
# The compiler follows its relation

On any source that delivers the tokens of a translation, a bounded run of the
compiler with at least as much fuel as there are tokens ends without a fault in
the state the relation names, and the source is ready to deliver what follows.
-/

namespace AkLisp

variable {σ : Type}

namespace CompState

variable (cx : CompContext) (s : CompState Unit) (dev : σ)

@[simp] theorem aklBuildPush_withDev (v : Option VRef) :
    aklBuildPush cx (s.withDev dev) v = (aklBuildPush cx s v).withDev dev := rfl

@[simp] theorem aklBuildSet_withDev (sym : Symbol) :
    aklBuildSet cx (s.withDev dev) sym = (aklBuildSet cx s sym).withDev dev := rfl

@[simp] theorem aklBuildJump_withDev (jt : JumpOp) (l : LabelRef) :
    aklBuildJump cx (s.withDev dev) jt l = (aklBuildJump cx s jt l).withDev dev := rfl

@[simp] theorem aklBuildLabel_withDev (l : LabelRef) :
    aklBuildLabel cx (s.withDev dev) l = (aklBuildLabel cx s l).withDev dev := rfl

@[simp] theorem aklNewLabels_withDev (n : Nat) :
    aklNewLabels cx (s.withDev dev) n =
      ((aklNewLabels cx s n).1, (aklNewLabels cx s n).2.withDev dev) := rfl

@[simp] theorem aklNewUserFunction_withDev :
    aklNewUserFunction (s.withDev dev) =
      ((aklNewUserFunction s).1, (aklNewUserFunction s).2.withDev dev) := rfl

@[simp] theorem aklRaiseError_withDev (level : Level) (message : String) :
    (s.withDev dev).aklRaiseError level message = (s.aklRaiseError level message).withDev dev :=
  rfl

@[simp] theorem aklBuildLoad_withDev (sym : Symbol) :
    aklBuildLoad cx (s.withDev dev) sym = (aklBuildLoad cx s sym).withDev dev := by
  simp only [aklBuildLoad, withDev_funs]
  split
  · split <;> rfl
  · rfl

@[simp] theorem compileAtom_withDev (isQuoted : Bool) (v : VRef) (sym : Symbol) :
    compileAtom cx isQuoted v sym (s.withDev dev) =
      (compileAtom cx isQuoted v sym s).withDev dev := by
  cases isQuoted <;> simp [compileAtom]

@[simp] theorem compileEnd_withDev (loc : ListLocals) :
    compileEnd cx loc (s.withDev dev) =
      ((compileEnd cx loc s).1, (compileEnd cx loc s).2.withDev dev) := by
  simp only [compileEnd]
  cases loc.sym with
  | some sym => rfl
  | none =>
      cases loc.fun_ with
      | some f => rfl
      | none =>
          by_cases form : loc.pfSt ≠ .sform
          · simp only [if_pos form]
            rfl
          · simp only [if_neg form]

@[simp] theorem compileInner_withDev (loc : ListLocals) (f : Option FRef) :
    compileInner cx loc f (s.withDev dev) =
      ((compileInner cx loc f s).1, (compileInner cx loc f s).2.withDev dev) := by
  cases f with
  | none => rfl
  | some f =>
      by_cases first : loc.felem
      · simp [compileInner, first]
      · simp only [compileInner, if_neg first]
        rfl

@[simp] theorem prefetchFunction_withDev (sym : Symbol) :
    prefetchFunction (s.withDev dev) sym = prefetchFunction s sym := rfl

@[simp] theorem sform?_withDev (f : FRef) : (s.withDev dev).sform? f = s.sform? f := rfl

end CompState

variable [TokenSource σ] {D : Delivery σ}

/-- The loop over the parameters follows its relation. -/
theorem ParamLoop.sound {func : FRef} {ls : List Lexeme} {s s' : CompState Unit}
    (params : ParamLoop func ls s s') {fuel : Nat} (enough : ls.length ≤ fuel)
    {rest : List Lexeme} {dev : σ} (ready : D.Ready (ls ++ rest) dev) :
    ∃ dev', parseParamsLoop func fuel (s.withDev dev) = .ok (s'.withDev dev') ∧
      D.Ready rest dev' := by
  induction params generalizing fuel dev with
  | @close l s tok =>
      obtain ⟨fuel, rfl⟩ : ∃ n, fuel = n + 1 := ⟨fuel - 1, by simp at enough; omega⟩
      obtain ⟨dev', lexEq, lexed⟩ := CompState.aklLex_offers (Delivery.offers ready) s
      refine ⟨dev', ?_, D.forget lexed⟩
      simp only [parseParamsLoop, lexEq, bind, Except.bind, tok]
      rfl
  | @atom l ls s s' tok others ih =>
      obtain ⟨fuel, rfl⟩ : ∃ n, fuel = n + 1 := ⟨fuel - 1, by simp at enough; omega⟩
      obtain ⟨dev₁, lexEq, lexed⟩ := CompState.aklLex_offers (Delivery.offers ready) s
      obtain ⟨dev₂, symEq, ready₂⟩ := CompState.aklLexGetSymbol_lexed lexed tok s
      obtain ⟨dev', loopEq, ready'⟩ := ih (by simpa using enough) ready₂
      refine ⟨dev', ?_, ready'⟩
      simp only [parseParamsLoop, lexEq, bind, Except.bind, tok, symEq]
      exact loopEq
  | @skip l ls s s' notClose notAtom others ih =>
      obtain ⟨fuel, rfl⟩ : ∃ n, fuel = n + 1 := ⟨fuel - 1, by simp at enough; omega⟩
      obtain ⟨dev₁, lexEq, lexed⟩ := CompState.aklLex_offers (Delivery.offers ready) s
      obtain ⟨dev', loopEq, ready'⟩ := ih (by simpa using enough) (D.forget lexed)
      refine ⟨dev', ?_, ready'⟩
      simp only [parseParamsLoop, lexEq, bind, Except.bind]
      exact loopEq

theorem Params.sound {fname : String} {func : FRef} {ls : List Lexeme} {s s' : CompState Unit}
    (params : Params fname func ls s s') (fuel : Nat) (enough : ls.length ≤ fuel)
    {rest : List Lexeme} {dev : σ} (ready : D.Ready (ls ++ rest) dev) :
    ∃ dev', aklParseParams fuel (s.withDev dev) fname func = .ok (s'.withDev dev') ∧
      D.Ready rest dev' := by
  cases params with
  | @empty l s tok =>
      obtain ⟨dev', lexEq, lexed⟩ := CompState.aklLex_offers (Delivery.offers ready) s
      refine ⟨dev', ?_, D.forget lexed⟩
      simp only [aklParseParams, lexEq, bind, Except.bind, tok]
      rfl
  | @list l ls s s' tok others =>
      obtain ⟨dev₁, lexEq, lexed⟩ := CompState.aklLex_offers (Delivery.offers ready) s
      obtain ⟨dev', loopEq, ready'⟩ := others.sound
        (Nat.le_of_succ_le (by simpa using enough)) (D.forget lexed)
      refine ⟨dev', ?_, ready'⟩
      simp only [aklParseParams, lexEq, bind, Except.bind, tok]
      exact loopEq
  | @missing l s notNil notList =>
      obtain ⟨dev', lexEq, lexed⟩ := CompState.aklLex_offers (Delivery.offers ready) s
      refine ⟨dev', ?_, D.forget lexed⟩
      simp only [aklParseParams, lexEq, bind, Except.bind]
      rfl

/-- Behind `skipDocstring` the source offers the body, be it put back or not. -/
theorem Docstring.sound {doc : List Lexeme} {first : Lexeme} (docstring : Docstring doc first)
    {ls : List Lexeme} {dev : σ} (ready : D.Ready (doc ++ first :: ls) dev)
    (s : CompState Unit) :
    ∃ dev', skipDocstring (s.withDev dev) = .ok (s.withDev dev') ∧
      D.Offers (first :: ls) dev' := by
  cases docstring with
  | absent notString notEof =>
      obtain ⟨dev₁, lexEq, lexed⟩ := CompState.aklLex_offers (Delivery.offers ready) s
      refine ⟨TokenSource.aklLexPutback dev₁ first.tok, ?_,
        Delivery.offers_putback lexed notEof⟩
      simp only [skipDocstring, lexEq, bind, Except.bind, if_neg notString]
      rfl
  | present tok =>
      obtain ⟨dev₁, lexEq, lexed⟩ := CompState.aklLex_offers (Delivery.offers ready) s
      obtain ⟨dev₂, textEq, ready₂⟩ := CompState.takeText_lexed lexed (by rw [tok]; rfl) s
      obtain ⟨dev₃, lexEq', lexed'⟩ := CompState.aklLex_offers (Delivery.offers ready₂) s
      refine ⟨dev₃, ?_, Delivery.offers (D.forget lexed')⟩
      simp only [skipDocstring, lexEq, bind, Except.bind, tok, if_true, textEq, lexEq']
      rfl

variable [Libc]

/-- A round of the loop of `akl_compile_list` behind its optional quote. -/
theorem compileRound_mark {q : List Lexeme} {b : Bool} (mark : QuoteMark q b) {l : Lexeme}
    {ls : List Lexeme} {dev : σ} (offers : D.Offers (q ++ l :: ls) dev)
    (notQuote : l.tok ≠ .tQUOTE) (notEof : l.tok ≠ .tEOF) (fuel : Nat)
    (list : CompContext → CompState σ → Except Fault (Option FRef × CompState σ))
    (next : CompileNext σ) (cx : CompContext) (loc : ListLocals) (s : CompState Unit) :
    ∃ dev', compileRound fuel list next cx loc (s.withDev dev) =
        compileToken fuel list next cx loc b l.tok (s.withDev dev') ∧ D.Lexed l ls dev' := by
  cases mark with
  | plain =>
      obtain ⟨dev', lexEq, lexed⟩ := CompState.aklLex_offers offers s
      refine ⟨dev', ?_, lexed⟩
      simp only [compileRound, lexEq, bind, Except.bind, if_neg notEof, if_neg notQuote]
  | quoted tok =>
      obtain ⟨dev₁, lexEq, lexed⟩ := CompState.aklLex_offers offers s
      obtain ⟨dev', lexEq', lexed'⟩ :=
        CompState.aklLex_offers (Delivery.offers (D.forget lexed)) s
      refine ⟨dev', ?_, lexed'⟩
      simp only [compileRound, lexEq, bind, Except.bind, tok, reduceCtorEq, if_false, if_true,
        lexEq']

/-- The loop of `akl_compile_list` when its round goes on. -/
theorem compileLoop_again {fuel : Nat} {cx : CompContext} {loc loc' : ListLocals}
    {st st' : CompState σ}
    (roundEq : compileRound fuel (aklCompileList fuel) (aklCompileNext fuel) cx loc st =
      .ok (.again loc' st')) :
    compileLoop (fuel + 1) cx loc st = compileLoop fuel cx loc' st' := by
  change (compileRound fuel (aklCompileList fuel) (aklCompileNext fuel) cx loc st >>= _) = _
  rw [roundEq]
  rfl

/-- What a run of a part of the compiler has to achieve. -/
def Compiles (D : Delivery σ) (ts : List Lexeme) (s : CompState Unit) (fn : Option FRef)
    (s' : CompState Unit) : FrontTask → Prop
  | .next cx => ∀ fuel rest dev, ts.length ≤ fuel → D.Offers (ts ++ rest) dev →
      ∃ tok dev', aklCompileNext fuel cx (s.withDev dev) = .ok ((tok, fn), s'.withDev dev') ∧
        tok ≠ .tEOF ∧ D.Ready rest dev'
  | .loop cx loc => ∀ fuel rest dev, ts.length ≤ fuel → D.Ready (ts ++ rest) dev →
      ∃ dev', compileLoop fuel cx loc (s.withDev dev) = .ok (fn, s'.withDev dev') ∧
        D.Ready rest dev'
  | .form cx form => ∀ fuel rest dev, ts.length ≤ fuel → D.Ready (ts ++ rest) dev →
      ∃ dev', aklCallSform fuel (aklCompileNext fuel) cx (s.withDev dev) form =
          .ok (fn, s'.withDev dev') ∧ D.Ready rest dev'

section Loop

variable {cx : CompContext} {loc loc' : ListLocals} {q : List Lexeme} {b : Bool} {l : Lexeme}
  {ls : List Lexeme} {s s₁ s' : CompState Unit} {fn : Option FRef}

/-- A round that takes the tokens of `ms` behind its first one and goes on. -/
theorem list_round (ms : List Lexeme) (mark : QuoteMark q b) (notQuote : l.tok ≠ .tQUOTE)
    (notEof : l.tok ≠ .tEOF)
    (token : ∀ fuel rest dev, ms.length ≤ fuel → D.Lexed l (ms ++ rest) dev →
      ∃ dev', compileToken fuel (aklCompileList fuel) (aklCompileNext fuel) cx loc b l.tok
          (s.withDev dev) = .ok (.again loc' (s₁.withDev dev')) ∧ D.Ready rest dev')
    (others : Compiles D ls s₁ fn s' (.loop cx loc')) :
    Compiles D (q ++ l :: (ms ++ ls)) s fn s' (.loop cx loc) := by
  intro fuel rest dev enough ready
  simp only [List.length_append, List.length_cons] at enough
  obtain ⟨fuel, rfl⟩ : ∃ n, fuel = n + 1 := ⟨fuel - 1, by omega⟩
  rw [List.append_assoc, List.cons_append, List.append_assoc] at ready
  obtain ⟨dev₁, roundEq, lexed⟩ := compileRound_mark mark (Delivery.offers ready) notQuote
    notEof fuel (aklCompileList fuel) (aklCompileNext fuel) cx loc s
  obtain ⟨dev₂, tokenEq, ready₂⟩ := token fuel _ dev₁ (by omega) lexed
  obtain ⟨dev', loopEq, ready'⟩ := others fuel rest dev₂ (by omega) ready₂
  refine ⟨dev', ?_, ready'⟩
  rw [compileLoop_again (roundEq.trans tokenEq), loopEq]

theorem loop_close {s : CompState Unit} (mark : QuoteMark q b) (tok : l.tok = .tRBRACE) :
    Compiles D (q ++ [l]) s (compileEnd cx loc s).1 (compileEnd cx loc s).2 (.loop cx loc) := by
  intro fuel rest dev enough ready
  simp only [List.length_append, List.length_singleton] at enough
  obtain ⟨fuel, rfl⟩ : ∃ n, fuel = n + 1 := ⟨fuel - 1, by omega⟩
  rw [List.append_assoc] at ready
  obtain ⟨dev', roundEq, lexed⟩ := compileRound_mark mark (Delivery.offers ready)
    (by rw [tok]; decide) (by rw [tok]; decide) fuel (aklCompileList fuel) (aklCompileNext fuel)
    cx loc s
  refine ⟨dev', ?_, D.forget lexed⟩
  change (compileRound fuel (aklCompileList fuel) (aklCompileNext fuel) cx loc _ >>= _) = _
  rw [roundEq]
  simp only [compileToken, tok, CompState.compileEnd_withDev]
  rfl

/-- The head of a list, behind which its case does `head`. -/
theorem loop_head (ms : List Lexeme) {sym : Symbol} (mark : QuoteMark q b)
    (first : loc.felem = true) (tok : l.tok = .tATOM)
    (symEq : aklGetOrCreateSymbol l.text = sym)
    (head : ∀ fuel rest dev, ms.length ≤ fuel → D.Ready (ms ++ rest) dev →
      ∃ dev', compileHead fuel (aklCompileNext fuel) cx loc
          ((s.withSymbol sym b).withDev dev) sym =
            .ok (.again loc' (s₁.withDev dev')) ∧ D.Ready rest dev')
    (others : Compiles D ls s₁ fn s' (.loop cx loc')) :
    Compiles D (q ++ l :: (ms ++ ls)) s fn s' (.loop cx loc) := by
  refine list_round ms mark (by rw [tok]; decide) (by rw [tok]; decide) ?_ others
  intro fuel rest dev enough lexed
  obtain ⟨dev₁, symbolEq, ready₁⟩ := CompState.aklLexGetSymbol_lexed lexed tok s
  obtain ⟨dev', headEq, ready'⟩ := head fuel rest dev₁ enough ready₁
  refine ⟨dev', ?_, ready'⟩
  simp only [compileToken, tok, symbolEq, bind, Except.bind, first, if_true, symEq]
  exact headEq

theorem loop_atom {sym : Symbol} (mark : QuoteMark q b) (later : loc.felem = false)
    (tok : l.tok = .tATOM) (symEq : aklGetOrCreateSymbol l.text = sym)
    (others : Compiles D ls (compileAtom cx b s.data.values.length sym
      (s.withSymbol sym b)) fn s' (.loop cx loc.countArg)) :
    Compiles D (q ++ l :: ls) s fn s' (.loop cx loc) := by
  refine list_round [] mark (by rw [tok]; decide) (by rw [tok]; decide) ?_ others
  intro fuel rest dev enough lexed
  obtain ⟨dev', symbolEq, ready'⟩ := CompState.aklLexGetSymbol_lexed lexed tok s
  refine ⟨dev', ?_, ready'⟩
  simp only [compileToken, tok, symbolEq, bind, Except.bind, later, symEq]
  have atomEq := CompState.compileAtom_withDev cx (s.withSymbol sym b) dev' b
    s.data.values.length sym
  exact congrArg (fun st => Except.ok (Round.again loc.countArg st)) atomEq

theorem loop_leaf {leaf : Payload × Bool} (mark : QuoteMark q b) (leafEq : l.leaf? = some leaf)
    (notAtom : l.tok ≠ .tATOM)
    (others : Compiles D ls (aklBuildPush cx
      (s.withData (s.data.newValue (leafValue leaf true)).2) (some s.data.values.length)) fn s'
      (.loop cx loc.countArg)) :
    Compiles D (q ++ l :: ls) s fn s' (.loop cx loc) := by
  have notEof : l.tok ≠ .tEOF := by
    intro equal
    simp [Lexeme.leaf?, equal] at leafEq
  have notOpen : l.tok ≠ .tLBRACE := by
    intro equal
    simp [Lexeme.leaf?, equal] at leafEq
  have notClose : l.tok ≠ .tRBRACE := by
    intro equal
    simp [Lexeme.leaf?, equal] at leafEq
  refine list_round [] mark (leaf_ne_quote leafEq) notEof ?_ others
  intro fuel rest dev enough lexed
  obtain ⟨dev', tokenEq, ready'⟩ :=
    aklParseToken_leaf lexed leafEq (aklParseList fuel) true s
  refine ⟨dev', ?_, ready'⟩
  simp only [compileToken, tokenEq, bind, Except.bind]
  rfl

theorem loop_quotedList {items : List Lexeme} {v : VRef} {d' : Data} {mark : Lexeme}
    (quote : mark.tok = .tQUOTE) (tok : l.tok = .tLBRACE)
    (reads : ReadsValue (l :: items) true s.data v d')
    (others : Compiles D ls (aklBuildPush cx (s.withData d') (some v)) fn s'
      (.loop cx loc.countArg)) :
    Compiles D (mark :: l :: (items ++ ls)) s fn s' (.loop cx loc) := by
  refine list_round items (.quoted quote) (by rw [tok]; decide) (by rw [tok]; decide) ?_ others
  intro fuel rest dev enough lexed
  obtain ⟨dev', tokenEq, ready'⟩ := reads.sound enough lexed
  refine ⟨dev', ?_, ready'⟩
  rw [tok] at tokenEq ⊢
  simp only [compileToken, if_true, tokenEq, bind, Except.bind]
  rfl

theorem loop_inner {items : List Lexeme} {f : Option FRef} (tok : l.tok = .tLBRACE)
    (inside : Compiles D items s f s₁ (.loop cx .init))
    (others : Compiles D ls (compileInner cx loc f s₁).2 fn s'
      (.loop cx (compileInner cx loc f s₁).1)) :
    Compiles D (l :: (items ++ ls)) s fn s' (.loop cx loc) := by
  refine list_round items .plain (by rw [tok]; decide) (by rw [tok]; decide) ?_ others
  intro fuel rest dev enough lexed
  obtain ⟨dev', listEq, ready'⟩ := inside fuel _ dev enough (D.forget lexed)
  refine ⟨dev', ?_, ready'⟩
  have listEq' : aklCompileList fuel cx (s.withDev dev) = .ok (f, s₁.withDev dev') := listEq
  simp only [compileToken, tok, listEq', bind, Except.bind, CompState.compileInner_withDev]
  rfl

end Loop

section Next

variable {cx : CompContext} {l : Lexeme} {ls : List Lexeme} {s : CompState Unit}

theorem next_leaf {leaf : Payload × Bool} (leafEq : l.leaf? = some leaf) :
    Compiles D [l] s none (aklBuildPush cx
      (s.withData (s.data.newValue (leafValue leaf false)).2) (some s.data.values.length))
      (.next cx) := by
  intro fuel rest dev enough offers
  have notEof : l.tok ≠ .tEOF := by
    intro equal
    simp [Lexeme.leaf?, equal] at leafEq
  have notOpen : l.tok ≠ .tLBRACE := by
    intro equal
    simp [Lexeme.leaf?, equal] at leafEq
  obtain ⟨dev₁, lexEq, lexed⟩ := CompState.aklLex_offers offers s
  obtain ⟨dev', tokenEq, ready'⟩ :=
    aklParseToken_leaf lexed leafEq (aklParseList fuel) false s
  refine ⟨l.tok, dev', ?_, notEof, ready'⟩
  have notQuote := leaf_ne_quote leafEq
  simp only [aklCompileNext, compileNextWith, lexEq, bind, Except.bind, tokenEq]
  rfl

theorem next_quoted {q : Lexeme} {v : VRef} {d' : Data} (tok : q.tok = .tQUOTE)
    (reads : ReadsValue (l :: ls) true s.data v d') :
    Compiles D (q :: l :: ls) s none (aklBuildPush cx (s.withData d') (some v)) (.next cx) := by
  intro fuel rest dev enough offers
  have notEof : l.tok ≠ .tEOF := by
    intro equal
    cases reads with
    | leaf leafEq => simp [Lexeme.leaf?, equal] at leafEq
    | list tokEq => simp [equal] at tokEq
  obtain ⟨dev₁, lexEq, lexed⟩ := CompState.aklLex_offers offers s
  obtain ⟨dev₂, lexEq', lexed'⟩ := CompState.aklLex_offers (Delivery.offers (D.forget lexed)) s
  have bound : ls.length ≤ fuel := by
    simp only [List.length_cons] at enough
    omega
  obtain ⟨dev', tokenEq, ready'⟩ := reads.sound bound lexed'
  refine ⟨l.tok, dev', ?_, notEof, ready'⟩
  simp only [aklCompileNext, compileNextWith, lexEq, bind, Except.bind, tok, lexEq', tokenEq]
  rfl

theorem next_close (tok : l.tok = .tRBRACE) :
    Compiles D [l] s none (aklBuildPush cx s none) (.next cx) := by
  intro fuel rest dev enough offers
  obtain ⟨dev', lexEq, lexed⟩ := CompState.aklLex_offers offers s
  refine ⟨.tRBRACE, dev', ?_, by decide, D.forget lexed⟩
  simp only [aklCompileNext, compileNextWith, lexEq, bind, Except.bind, tok]
  rfl

theorem next_list {fn : Option FRef} {s' : CompState Unit} (tok : l.tok = .tLBRACE)
    (list : Compiles D ls s fn s' (.loop cx .init)) :
    Compiles D (l :: ls) s fn s' (.next cx) := by
  intro fuel rest dev enough offers
  obtain ⟨dev₁, lexEq, lexed⟩ := CompState.aklLex_offers offers s
  have bound : ls.length ≤ fuel := by
    simp only [List.length_cons] at enough
    omega
  obtain ⟨dev', listEq, ready'⟩ := list fuel rest dev₁ bound (D.forget lexed)
  have listEq' : aklCompileList fuel cx (s.withDev dev₁) = .ok (fn, s'.withDev dev') := listEq
  refine ⟨.tLBRACE, dev', ?_, by decide, ready'⟩
  simp only [aklCompileNext, compileNextWith, lexEq, bind, Except.bind, tok, listEq']
  rfl

end Next

section Form

variable {cx : CompContext} {tc ta tb : List Lexeme} {s s₁ s₂ s₃ s₄ : CompState Unit}
  {loff : Nat} {fc fa fb : Option FRef}

/-- `akl_compile_next` when the source is ready. -/
theorem Compiles.next {ts : List Lexeme} {fn : Option FRef} {s' : CompState Unit}
    (compiles : Compiles D ts s fn s' (.next cx)) (fuel : Nat) (enough : ts.length ≤ fuel)
    {rest : List Lexeme} {dev : σ} (ready : D.Ready (ts ++ rest) dev) :
    ∃ tok dev', aklCompileNext fuel cx (s.withDev dev) = .ok ((tok, fn), s'.withDev dev') ∧
      D.Ready rest dev' := by
  obtain ⟨tok, dev', nextEq, -, ready'⟩ :=
    compiles fuel rest dev enough (Delivery.offers ready)
  exact ⟨tok, dev', nextEq, ready'⟩

theorem form_when (labels : aklNewLabels cx s 1 = (loff, s₁))
    (cond : Compiles D tc s₁ fc s₂ (.next cx))
    (body : Compiles D ta (aklBuildJump cx s₂ .jmpFalse ⟨cx.cxCompFunc, loff⟩) fa s₃
      (.next cx)) :
    Compiles D (tc ++ ta) s none (aklBuildLabel cx s₃ ⟨cx.cxCompFunc, loff⟩)
      (.form cx .when) := by
  intro fuel rest dev enough ready
  simp only [List.length_append] at enough
  rw [List.append_assoc] at ready
  obtain ⟨tokC, dev₁, condEq, ready₁⟩ := cond.next fuel (by omega) ready
  obtain ⟨tokA, dev', bodyEq, ready'⟩ := body.next fuel (by omega) ready₁
  refine ⟨dev', ?_, ready'⟩
  simp only [aklCallSform, AkLisp.when, CompState.aklNewLabels_withDev, labels, condEq, bind,
    Except.bind, CompState.aklBuildJump_withDev, bodyEq]
  rfl

theorem form_sif (labels : aklNewLabels cx s 2 = (loff, s₁))
    (cond : Compiles D tc s₁ fc s₂ (.next cx))
    (body : Compiles D ta (aklBuildJump cx s₂ .jmpFalse ⟨cx.cxCompFunc, loff + 1⟩) fa s₃
      (.next cx))
    (other : Compiles D tb (aklBuildLabel cx (aklBuildJump cx s₃ .jmp ⟨cx.cxCompFunc, loff⟩)
      ⟨cx.cxCompFunc, loff + 1⟩) fb s₄ (.next cx)) :
    Compiles D (tc ++ (ta ++ tb)) s none (aklBuildLabel cx s₄ ⟨cx.cxCompFunc, loff⟩)
      (.form cx .sif) := by
  intro fuel rest dev enough ready
  simp only [List.length_append] at enough
  rw [List.append_assoc, List.append_assoc] at ready
  obtain ⟨tokC, dev₁, condEq, ready₁⟩ := cond.next fuel (by omega) ready
  obtain ⟨tokA, dev₂, bodyEq, ready₂⟩ := body.next fuel (by omega) ready₁
  obtain ⟨tokB, dev', otherEq, ready'⟩ := other.next fuel (by omega) ready₂
  refine ⟨dev', ?_, ready'⟩
  simp only [aklCallSform, sif, CompState.aklNewLabels_withDev, labels, condEq, bind, Except.bind,
    CompState.aklBuildJump_withDev, bodyEq, CompState.aklBuildLabel_withDev, otherEq]
  rfl

theorem form_swhile (labels : aklNewLabels cx s 2 = (loff, s₁))
    (cond : Compiles D tc (aklBuildLabel cx s₁ ⟨cx.cxCompFunc, loff⟩) fc s₂ (.next cx))
    (body : Compiles D ta (aklBuildJump cx s₂ .jmpFalse ⟨cx.cxCompFunc, loff + 1⟩) fa s₃
      (.next cx)) :
    Compiles D (tc ++ ta) s none
      (aklBuildLabel cx (aklBuildJump cx s₃ .jmp ⟨cx.cxCompFunc, loff⟩)
        ⟨cx.cxCompFunc, loff + 1⟩) (.form cx .swhile) := by
  intro fuel rest dev enough ready
  simp only [List.length_append] at enough
  rw [List.append_assoc] at ready
  obtain ⟨tokC, dev₁, condEq, ready₁⟩ := cond.next fuel (by omega) ready
  obtain ⟨tokA, dev', bodyEq, ready'⟩ := body.next fuel (by omega) ready₁
  refine ⟨dev', ?_, ready'⟩
  simp only [aklCallSform, swhile, CompState.aklNewLabels_withDev, labels,
    CompState.aklBuildLabel_withDev, condEq, bind, Except.bind, CompState.aklBuildJump_withDev,
    bodyEq]
  rfl

theorem form_set {l : Lexeme} {fn : Option FRef} (tok : l.tok = .tATOM)
    (rhs : Compiles D tc s fn s₁ (.next cx)) :
    Compiles D (l :: tc) s none
      (aklBuildSet cx (pushFunction cx s₁ fn) (aklGetOrCreateSymbol l.text)) (.form cx .set) := by
  intro fuel rest dev enough ready
  simp only [List.length_cons] at enough
  obtain ⟨dev₁, lexEq, lexed⟩ := CompState.aklLex_offers (Delivery.offers ready) s
  obtain ⟨dev₂, symEq, ready₂⟩ := CompState.aklLexGetSymbol_lexed lexed tok s
  obtain ⟨tokR, dev', rhsEq, ready'⟩ := rhs.next fuel (by omega) ready₂
  refine ⟨dev', ?_, ready'⟩
  simp only [aklCallSform, AkLisp.set, lexEq, bind, Except.bind, tok, symEq, rhsEq]
  cases fn <;> rfl

theorem form_setOther {l : Lexeme} (notAtom : l.tok ≠ .tATOM) :
    Compiles D [l] s none
      (s.aklRaiseError .error "Unexpected token, (need a valid atom for set!)")
      (.form cx .set) := by
  intro fuel rest dev enough ready
  obtain ⟨dev', lexEq, lexed⟩ := CompState.aklLex_offers (Delivery.offers ready) s
  refine ⟨dev', ?_, D.forget lexed⟩
  simp only [aklCallSform, AkLisp.set, lexEq, bind, Except.bind, if_pos notAtom]
  rfl

theorem form_lambda {tp doc : List Lexeme} {first : Lexeme} {func : FRef}
    (new : aklNewUserFunction s = (func, s₁)) (params : Params "lambda" func tp s₁ s₂)
    (docstring : Docstring doc first)
    (body : Compiles D (first :: tb) s₂ fb s₃ (.next ⟨func, func⟩)) :
    Compiles D (tp ++ (doc ++ first :: tb)) s (some func) s₃ (.form cx .lambda) := by
  intro fuel rest dev enough ready
  simp only [List.length_append] at enough
  rw [List.append_assoc, List.append_assoc] at ready
  obtain ⟨dev₁, paramsEq, ready₁⟩ := params.sound fuel (by omega) ready
  obtain ⟨dev₂, docEq, offers⟩ := docstring.sound ready₁ s₂
  obtain ⟨tok, dev', bodyEq, -, ready'⟩ := body fuel rest dev₂ (by omega) offers
  refine ⟨dev', ?_, ready'⟩
  simp only [aklCallSform, lambda, CompState.aklNewUserFunction_withDev, new, paramsEq, bind,
    Except.bind, docEq, bodyEq]
  rfl

theorem form_defun {tp doc : List Lexeme} {l first : Lexeme} {func : FRef} {sym : Symbol}
    (new : aklNewUserFunction s = (func, s₁)) (tok : l.tok = .tATOM)
    (symEq : aklGetOrCreateSymbol l.text = sym)
    (params : Params sym.text func tp (s₁.withData (s₁.data.newFunctionValue func).2) s₂)
    (docstring : Docstring doc first)
    (body : Compiles D (first :: tb) (bindFunction s₂ sym (s₁.data.newFunctionValue func).1) fb
      s₃ (.next ⟨func, func⟩)) :
    Compiles D (l :: (tp ++ (doc ++ first :: tb))) s (some func) (pushName cx s₃ sym)
      (.form cx .defun) := by
  intro fuel rest dev enough ready
  simp only [List.length_append, List.length_cons] at enough
  obtain ⟨dev₀, lexEq, lexed⟩ := CompState.aklLex_offers (Delivery.offers ready)
    (s₁.withData (s₁.data.newFunctionValue func).2)
  obtain ⟨dev₁, symbolEq, ready₁⟩ := CompState.aklLexGetSymbol_lexed lexed tok
    (s₁.withData (s₁.data.newFunctionValue func).2)
  have ready₁' : D.Ready (tp ++ (doc ++ (first :: tb ++ rest))) dev₁ := by
    simpa using ready₁
  rw [symEq] at symbolEq
  obtain ⟨dev₂, paramsEq, ready₂⟩ := params.sound fuel (by omega) ready₁'
  obtain ⟨dev₃, docEq, offers⟩ := docstring.sound ready₂ s₂
  obtain ⟨tokB, dev', bodyEq, -, ready'⟩ :=
    body fuel rest dev₃ (by rw [List.length_cons]; omega) offers
  have lexEq' : CompState.aklLex { (s₁.withDev dev) with
      data := (s₁.data.newFunctionValue func).2 } = _ := lexEq
  have bodyEq' : aklCompileNext fuel ⟨func, func⟩ { (s₂.withDev dev₃) with
      data := s₂.data.aklSetGlobalVar sym (s₁.data.newFunctionValue func).1 } = _ := bodyEq
  refine ⟨dev', ?_, ready'⟩
  simp only [aklCallSform, defun, CompState.aklNewUserFunction_withDev, new,
    CompState.withDev_data, lexEq', bind, Except.bind, tok, symbolEq, paramsEq, docEq, bodyEq']
  rfl

theorem form_defunOther {l : Lexeme} {func : FRef} (new : aklNewUserFunction s = (func, s₁))
    (notAtom : l.tok ≠ .tATOM) :
    Compiles D [l] s none
      ((s₁.withData (s₁.data.newFunctionValue func).2).aklRaiseError .error
        "Unexpected token, defun! needs a parameter list and a function body")
      (.form cx .defun) := by
  intro fuel rest dev enough ready
  obtain ⟨dev', lexEq, lexed⟩ := CompState.aklLex_offers (Delivery.offers ready)
    (s₁.withData (s₁.data.newFunctionValue func).2)
  have lexEq' : CompState.aklLex { (s₁.withDev dev) with
      data := (s₁.data.newFunctionValue func).2 } = _ := lexEq
  refine ⟨dev', ?_, D.forget lexed⟩
  simp only [aklCallSform, defun, CompState.aklNewUserFunction_withDev, new,
    CompState.withDev_data, lexEq', bind, Except.bind, if_pos notAtom]
  rfl

end Form

/-- The compiler follows its relation. -/
theorem Translates.sound {task : FrontTask} {ts : List Lexeme} {s s' : CompState Unit}
    {fn : Option FRef} (translates : Translates task ts s fn s') : Compiles D ts s fn s' task := by
  induction translates with
  | nextLeaf leafEq => exact next_leaf leafEq
  | nextQuoted tok reads => exact next_quoted tok reads
  | nextClose tok => exact next_close tok
  | nextList tok list ih => exact next_list tok ih
  | close mark tok => exact loop_close mark tok
  | @headName cx loc q b l ls sym pfSt fun_ s fn s' mark
      first tok symEq fetched callable others ih =>
      refine loop_head [] mark first tok symEq ?_ ih
      intro fuel rest dev enough ready
      refine ⟨dev, ?_, ready⟩
      have fetched' : prefetchFunction ((s.withSymbol sym b).withDev dev) sym = (pfSt, fun_) :=
        fetched
      simp only [compileHead, fetched']
      rcases callable with rfl | rfl <;> rfl
  | @headOther cx loc q b l ls sym fun_ s fn s' mark first tok symEq fetched others ih =>
      refine loop_head [] mark first tok symEq ?_ ih
      intro fuel rest dev enough ready
      refine ⟨dev, ?_, ready⟩
      have fetched' : prefetchFunction ((s.withSymbol sym b).withDev dev) sym = (.notFn, fun_) :=
        fetched
      simp only [compileHead, fetched']
      rfl
  | @headForm cx loc q b l ms ls sym f form s fun_ s₁ fn s' mark first tok symEq fetched formEq
      operands others ihOperands ih =>
      refine loop_head ms mark first tok symEq ?_ ih
      intro fuel rest dev enough ready
      obtain ⟨dev', formRun, ready'⟩ := ihOperands fuel rest dev enough ready
      refine ⟨dev', ?_, ready'⟩
      have fetched' : prefetchFunction ((s.withSymbol sym b).withDev dev) sym =
          (.sform, some f) := fetched
      have formEq' : ((s.withSymbol sym b).withDev dev).sform? f = some form := formEq
      simp only [compileHead, fetched', Option.bind_some, formEq', formRun, bind, Except.bind]
      rfl
  | atom mark later tok symEq others ih => exact loop_atom mark later tok symEq ih
  | leaf mark leafEq notAtom others ih => exact loop_leaf mark leafEq notAtom ih
  | quotedList quote tok reads others ih => exact loop_quotedList quote tok reads ih
  | inner tok inside others ihInside ih => exact loop_inner tok ihInside ih
  | «when» labels cond body ihCond ihBody => exact form_when labels ihCond ihBody
  | sif labels cond body other ihCond ihBody ihOther =>
      exact form_sif labels ihCond ihBody ihOther
  | swhile labels cond body ihCond ihBody => exact form_swhile labels ihCond ihBody
  | set tok rhs ih => exact form_set tok ih
  | setOther notAtom => exact form_setOther notAtom
  | lambda new params docstring body ih => exact form_lambda new params docstring ih
  | defun new tok symEq params docstring body ih =>
      exact form_defun new tok symEq params docstring ih
  | defunOther new notAtom => exact form_defunOther new notAtom

end AkLisp
