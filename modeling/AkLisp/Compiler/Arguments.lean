import AkLisp.Compiler.Sound

/-!
# The arguments of a call

A round of the loop of `akl_compile_list` behind the head takes the tokens of
one expression, as `akl_compile_next` does elsewhere.
-/

namespace AkLisp

variable [Libc]

/-- The tokens a round of the loop of `akl_compile_list` takes behind the head,
and the states before and after. -/
inductive ArgTaken (cx : CompContext) :
    List Lexeme → CompState Unit → CompState Unit → Prop where
  | atom {q b l} {s : CompState Unit} (mark : QuoteMark q b) (tok : l.tok = .tATOM) :
      ArgTaken cx (q ++ [l]) s (compileAtom cx b s.data.values.length
        (aklGetOrCreateSymbol l.text) (s.withSymbol (aklGetOrCreateSymbol l.text) b))
  | leaf {q b l leaf} {s : CompState Unit} (mark : QuoteMark q b) (leafEq : l.leaf? = some leaf)
      (notAtom : l.tok ≠ .tATOM) :
      ArgTaken cx (q ++ [l]) s (aklBuildPush cx
        (s.withData (s.data.newValue (leafValue leaf true)).2) (some s.data.values.length))
  | quotedList {q l items v d'} {s : CompState Unit} (mark : q.tok = .tQUOTE)
      (tok : l.tok = .tLBRACE) (reads : ReadsValue (l :: items) true s.data v d') :
      ArgTaken cx (q :: l :: items) s (aklBuildPush cx (s.withData d') (some v))
  | list {l items s f s₁} (tok : l.tok = .tLBRACE)
      (inside : Translates (.loop cx .init) items s f s₁) :
      ArgTaken cx (l :: items) s (pushFunction cx s₁ f)

variable {cx : CompContext} {s s' : CompState Unit} {ts : List Lexeme}

omit [Libc] in
/-- Behind the head an inner list counts as an argument, a function it evaluates
to being pushed. -/
theorem compileInner_later {loc : ListLocals} (later : loc.felem = false) (f : Option FRef)
    (s : CompState Unit) : compileInner cx loc f s = (loc.countArg, pushFunction cx s f) := by
  cases f with
  | none => rfl
  | some f =>
      simp only [compileInner, later]
      rfl

/-- Quoted data are pushed. -/
theorem ArgTaken.quoted {q : Lexeme} {v : VRef} {d' : Data} (mark : q.tok = .tQUOTE)
    (reads : ReadsValue ts true s.data v d') :
    ArgTaken cx (q :: ts) s (aklBuildPush cx (s.withData d') (some v)) := by
  cases reads with
  | @leaf l leaf b d leafEq =>
      by_cases atom : l.tok = .tATOM
      · have leafIs : leaf = (.symbol (aklGetOrCreateSymbol l.text), false) := by
          simpa [Lexeme.leaf?, atom] using leafEq.symm
        subst leafIs
        exact .atom (.quoted mark) atom
      · exact .leaf (.quoted mark) leafEq atom
  | list tok inside => exact .quotedList mark tok (.list tok inside)

/-- The loop goes on behind an argument. -/
theorem ArgTaken.loop (taken : ArgTaken cx ts s s') {loc : ListLocals}
    (later : loc.felem = false) {ls : List Lexeme} {fn : Option FRef} {s'' : CompState Unit}
    (others : Translates (.loop cx loc.countArg) ls s' fn s'') :
    Translates (.loop cx loc) (ts ++ ls) s fn s'' := by
  cases taken with
  | atom mark tok =>
      rw [List.append_assoc]
      exact .atom mark later tok rfl others
  | leaf mark leafEq notAtom =>
      rw [List.append_assoc]
      exact .leaf mark leafEq notAtom others
  | quotedList mark tok reads => exact .quotedList mark tok reads others
  | @list l items _ f s₁ tok inside =>
      refine .inner tok inside ?_
      rw [compileInner_later later]
      exact others

/-- A round of the loop takes the argument from any source. -/
theorem ArgTaken.sound {σ : Type} [TokenSource σ] {D : Delivery σ} (taken : ArgTaken cx ts s s')
    {loc : ListLocals} (later : loc.felem = false) {fuel : Nat} (enough : ts.length ≤ fuel)
    {rest : List Lexeme} {dev : σ} (ready : D.Ready (ts ++ rest) dev) :
    ∃ dev', compileRound fuel (aklCompileList fuel) (aklCompileNext fuel) cx loc
        (s.withDev dev) = .ok (.again loc.countArg (s'.withDev dev')) ∧ D.Ready rest dev' := by
  cases taken with
  | @atom q b l _ mark tok =>
      rw [List.append_assoc] at ready
      obtain ⟨dev₁, roundEq, lexed⟩ := compileRound_mark mark (Delivery.offers ready)
        (by simp [tok]) (by simp [tok]) fuel (aklCompileList fuel) (aklCompileNext fuel) cx loc s
      obtain ⟨dev', symbolEq, ready'⟩ := CompState.aklLexGetSymbol_lexed lexed tok s
      refine ⟨dev', ?_, ready'⟩
      rw [roundEq]
      simp only [compileToken, tok, symbolEq, bind, Except.bind, later]
      have atomEq := CompState.compileAtom_withDev cx
        (s.withSymbol (aklGetOrCreateSymbol l.text) b) dev' b s.data.values.length
        (aklGetOrCreateSymbol l.text)
      exact congrArg (fun st => Except.ok (Round.again loc.countArg st)) atomEq
  | @leaf q b l leaf _ mark leafEq notAtom =>
      have notEof : l.tok ≠ .tEOF := by
        intro equal
        simp [Lexeme.leaf?, equal] at leafEq
      have notOpen : l.tok ≠ .tLBRACE := by
        intro equal
        simp [Lexeme.leaf?, equal] at leafEq
      have notClose : l.tok ≠ .tRBRACE := by
        intro equal
        simp [Lexeme.leaf?, equal] at leafEq
      rw [List.append_assoc] at ready
      obtain ⟨dev₁, roundEq, lexed⟩ := compileRound_mark mark (Delivery.offers ready)
        (leaf_ne_quote leafEq) notEof fuel (aklCompileList fuel) (aklCompileNext fuel) cx loc s
      obtain ⟨dev', tokenEq, ready'⟩ := aklParseToken_leaf lexed leafEq (aklParseList fuel) true s
      refine ⟨dev', ?_, ready'⟩
      rw [roundEq]
      simp only [compileToken, tokenEq, bind, Except.bind]
      rfl
  | @quotedList q l items v d' _ mark tok reads =>
      obtain ⟨dev₁, roundEq, lexed⟩ := compileRound_mark (.quoted mark) (Delivery.offers ready)
        (by simp [tok]) (by simp [tok]) fuel (aklCompileList fuel) (aklCompileNext fuel) cx loc s
      simp only [List.length_cons] at enough
      obtain ⟨dev', tokenEq, ready'⟩ :=
        reads.sound (Nat.le_of_succ_le (Nat.le_of_succ_le enough)) lexed
      refine ⟨dev', ?_, ready'⟩
      rw [roundEq]
      rw [tok] at tokenEq ⊢
      simp only [compileToken, if_true, tokenEq, bind, Except.bind]
      rfl
  | @list l items _ f s₁ tok inside =>
      obtain ⟨dev₁, roundEq, lexed⟩ := compileRound_mark .plain (Delivery.offers ready)
        (by simp [tok]) (by simp [tok]) fuel (aklCompileList fuel) (aklCompileNext fuel) cx loc s
      simp only [List.length_cons] at enough
      obtain ⟨dev', listEq, ready'⟩ :=
        inside.sound fuel rest dev₁ (Nat.le_of_succ_le enough) (D.forget lexed)
      refine ⟨dev', ?_, ready'⟩
      have listEq' : aklCompileList fuel cx (s.withDev dev₁) = .ok (f, s₁.withDev dev') := listEq
      rw [roundEq]
      simp only [compileToken, tok, listEq', bind, Except.bind, CompState.compileInner_withDev,
        compileInner_later later]
      rfl

end AkLisp
