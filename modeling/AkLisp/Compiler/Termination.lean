import AkLisp.Compiler.NullDeref
import AkLisp.Lexer.FileEnd
import AkLisp.Machine.Session

/-!
# Termination of the front end

On a source that can be exhausted every loop of compiler and reader takes a
token in each round and stops at the end of the input, except the loop of
`akl_parse_params`, which stops at a closing parenthesis only.  Compiling a file
ends exactly if it comes neither to a parameter list that is not closed nor to a
shebang line that is not ended.
-/

namespace AkLisp

open Outcome Outcome.Body

/-- A source of which at most `left` tokens can be read, and from which the lexer
reads nothing but the end of the input once it is `Spent`. -/
structure Exhaustible (σ : Type) [TokenSource σ] where
  Valid : σ → Prop
  left : σ → Nat
  /-- `akl_lex` does not return -/
  Stuck : σ → Prop
  Spent : σ → Prop
  stuck {dev : σ} (valid : Valid dev) (stuck : Stuck dev) :
    TokenSource.aklLex dev = .error .hang
  lex {dev : σ} (valid : Valid dev) (moves : ¬Stuck dev) :
    Returns (fun r => Valid r.2 ∧ left r.2 ≤ left dev ∧
      (r.1 ≠ .tEOF → left r.2 < left dev) ∧ (r.1 = .tEOF → Spent r.2 ∨ left r.2 < left dev) ∧
      (r.1 = .tATOM → Returns (fun _ => True) (TokenSource.takeText r.2)) ∧
      Valid (TokenSource.aklLexPutback r.2 r.1) ∧
      left (TokenSource.aklLexPutback r.2 r.1) ≤ left dev) (TokenSource.aklLex dev)
  spent {dev : σ} (spent : Spent dev) :
    Returns (fun r => r.1 = .tEOF ∧ Spent r.2) (TokenSource.aklLex dev)
  take {dev : σ} (valid : Valid dev) {r} (taken : TokenSource.takeText dev = .ok r) :
    Valid r.2 ∧ left r.2 ≤ left dev
  takeEnds {dev : σ} {e} (failed : TokenSource.takeText dev = .error e) :
    e ≠ .hang ∧ e ≠ .outOfFuel
  free {dev : σ} (valid : Valid dev) :
    Valid (TokenSource.aklLexFree dev) ∧ left (TokenSource.aklLexFree dev) ≤ left dev

/-- A file, until its characters are read. -/
def Dev.exhaustible : Exhaustible Dev where
  Valid dev := ∃ p, dev.FileWith p
  left := Dev.left
  Stuck dev := dev.stuck = true
  Spent dev := dev.OnFile []
  stuck := by
    rintro dev ⟨p, file⟩ stuck
    have scans := file.aklLex
    rwa [stuck] at scans
  lex := by
    rintro dev ⟨p, file⟩ moves
    have scans := file.aklLex
    rw [Bool.eq_false_iff.mpr moves] at scans
    refine Returns.mono scans fun r ⟨q, left⟩ => ?_
    obtain ⟨back, backLeft⟩ := left.putback
    rw [left.onFile.left_eq]
    refine ⟨⟨q, left.onFile.file⟩, left.notMore, left.less,
      fun ended => ?_, fun atom => ?_, ⟨q, back⟩,
      backLeft⟩
    · refine (left.ended ended).imp_left ?_
      rintro rfl
      exact left.onFile
    · obtain ⟨text, dev', takeEq⟩ := (left.hasText atom).takeText
      change Returns (fun _ => True) (Dev.takeText r.2)
      rw [takeEq]
      trivial
  spent := by
    intro dev onFile
    have scans := onFile.file.aklLex
    rw [onFile.stuck_nil, onFile.left_eq] at scans
    refine Returns.mono scans fun r ⟨q, left⟩ => ?_
    obtain rfl : q = [] := List.eq_nil_of_length_eq_zero (Nat.le_zero.mp left.notMore)
    exact ⟨by_contra fun more => absurd (left.less more) (Nat.not_lt_zero _), left.onFile⟩
  take := by
    rintro dev ⟨p, file⟩ ⟨text, dev'⟩ taken
    obtain ⟨file', leftEq⟩ := file.takeText taken
    exact ⟨⟨p, file'⟩, leftEq.le⟩
  takeEnds := Dev.takeText_ends
  free := by
    rintro dev ⟨p, file⟩
    exact ⟨⟨p, file.free.1⟩, file.free.2⟩

section

variable {σ : Type}

theorem aklBuildLoad_dev (cx : CompContext) (st : CompState σ) (sym : Symbol) :
    (aklBuildLoad cx st sym).dev = st.dev := by
  unfold aklBuildLoad
  split
  · split <;> rfl
  · rfl

theorem compileAtom_dev (cx : CompContext) (isQuoted : Bool) (v : VRef) (sym : Symbol)
    (st : CompState σ) : (compileAtom cx isQuoted v sym st).dev = st.dev := by
  unfold compileAtom
  split
  · rfl
  · exact aklBuildLoad_dev cx st sym

theorem compileInner_dev (cx : CompContext) (loc : ListLocals) (f : Option FRef)
    (st : CompState σ) : (compileInner cx loc f st).2.dev = st.dev := by
  unfold compileInner
  split
  · rfl
  · split <;> rfl

theorem compileEnd_dev (cx : CompContext) (loc : ListLocals) (st : CompState σ) :
    (compileEnd cx loc st).2.dev = st.dev := by
  unfold compileEnd
  split
  · rfl
  · split
    · rfl
    · split <;> rfl

end

/-- What a loop that does not end comes to in the model. -/
def Fault.ofLoop (e : Fault) : Prop := e = .hang ∨ e = .outOfFuel

namespace FrontCall

variable {σ : Type} [TokenSource σ]

/-- Among the tokens that are still to come there is a closing parenthesis. -/
inductive Closes : σ → Prop where
  | close {dev dev'} (lexed : TokenSource.aklLex dev = .ok (.tRBRACE, dev')) : Closes dev
  | atom {dev dev' text dev''} (lexed : TokenSource.aklLex dev = .ok (.tATOM, dev'))
      (taken : TokenSource.takeText dev' = .ok (text, dev'')) (others : Closes dev'') : Closes dev
  | skip {dev tok dev'} (lexed : TokenSource.aklLex dev = .ok (tok, dev'))
      (notClose : tok ≠ .tRBRACE)
      (notAtom : tok ≠ .tATOM) (others : Closes dev') : Closes dev

section

variable (V : Exhaustible σ)

/-- A call whose loop does not end: `akl_lex` in a shebang line that is not ended,
or `akl_parse_params` in a parameter list that is not closed. -/
def Endless : FrontCall σ → Prop
  | .lex st => V.Stuck st.dev
  | .params _ _ st => ¬Closes st.dev
  | _ => False

/-- The bound of a call is larger than the number of tokens it can take. -/
def Enough : FrontCall σ → Prop
  | .lex st | .docstring st => V.Valid st.dev
  | .token fuel st tok _ => V.Valid st.dev ∧ (tok = .tLBRACE → V.left st.dev < fuel)
  | .value fuel st | .next fuel _ st => V.Valid st.dev ∧ V.left st.dev ≤ fuel
  | .params fuel _ st => V.Valid st.dev ∧ (Closes st.dev → V.left st.dev < fuel)
  | .items fuel _ st | .list fuel _ _ st | .switch fuel _ _ _ _ st | .form fuel _ _ st
  | .args fuel st _ _ | .forms fuel _ st => V.Valid st.dev ∧ V.left st.dev < fuel

/-- The source is valid and there are at most `n` tokens left. -/
def AtMost (n : Nat) (st : CompState σ) : Prop := V.Valid st.dev ∧ V.left st.dev ≤ n

/-- A token has been read from a source with at most `n` tokens. -/
structure Reads (dev : σ) (tok : Token) (st : CompState σ) : Prop where
  lexed : TokenSource.aklLex dev = .ok (tok, st.dev)
  valid : V.Valid st.dev
  notMore : V.left st.dev ≤ V.left dev
  less : tok ≠ .tEOF → V.left st.dev < V.left dev
  ended : tok = .tEOF → V.Spent st.dev ∨ V.left st.dev < V.left dev
  hasText : tok = .tATOM → Returns (fun _ => True) (TokenSource.takeText st.dev)
  back : AtMost V (V.left dev) (st.aklLexPutback tok)

/-- A round of the list loop leaves at most `n` tokens. -/
def RoundLeaves (n : Nat) : Round σ → Prop
  | .done _ st | .again _ st => AtMost V n st

/-- No call leaves more tokens than there were; behind a value, and behind a token
that is not the end of the input, there are less. -/
def Consumes : (c : FrontCall σ) → c.Result → Prop
  | .lex st => fun r => Reads V st.dev r.1 r.2
  | .token _ st tok _ => fun r => AtMost V (V.left st.dev) r.2 ∧ (r.1 ≠ none → tok ≠ .tEOF)
  | .value _ st => fun r =>
      AtMost V (V.left st.dev) r.2 ∧ (r.1 ≠ none → V.left r.2.dev < V.left st.dev)
  | .next _ _ st => fun r =>
      AtMost V (V.left st.dev) r.2 ∧ (r.1.1 ≠ .tEOF → V.left r.2.dev < V.left st.dev)
  | .switch _ _ _ _ _ st => RoundLeaves V (V.left st.dev)
  | .items _ _ st | .list _ _ _ st | .form _ _ _ st => fun r => AtMost V (V.left st.dev) r.2
  | .args _ st _ _ | .params _ _ st | .docstring st | .forms _ _ st => fun r =>
      AtMost V (V.left st.dev) r

/-- A call that raises the fault of an endless loop is endless. -/
def RaisesEndless (c : FrontCall σ) (e : Fault) : Prop := e.ofLoop → c.Endless V

end

variable {V : Exhaustible σ} {st : CompState σ} {c : FrontCall σ}

theorem AtMost.trans {n m : Nat} (atMost : AtMost V n st) (le : n ≤ m) : AtMost V m st :=
  ⟨atMost.1, atMost.2.trans le⟩

theorem Reads.atMost {dev : σ} {tok : Token} (reads : Reads V dev tok st) :
    AtMost V (V.left dev) st :=
  ⟨reads.valid, reads.notMore⟩

theorem aklLex_reads (valid : V.Valid st.dev) (moves : ¬V.Stuck st.dev) :
    Returns (fun r => Reads V st.dev r.1 r.2) st.aklLex := by
  obtain ⟨⟨tok, dev⟩, lexEq, valid', notMore, less, ended, hasText, back⟩ :=
    (V.lex valid moves).exists
  simp only [CompState.aklLex, lexEq]
  exact ⟨lexEq, valid', notMore, less, ended, hasText, back⟩

/-- Fetching a text ends and takes no token. -/
theorem takeText_avoids (valid : V.Valid st.dev) {e : Fault} (loop : e.ofLoop) :
    Avoids e (fun r => AtMost V (V.left st.dev) r.2) st.takeText := by
  have ends : TokenSource.takeText st.dev ≠ .error e := by
    intro failed
    obtain ⟨notHang, notFuel⟩ := V.takeEnds failed
    rcases loop with rfl | rfl
    · exact notHang rfl
    · exact notFuel rfl
  exact (Avoids.of_ne ends).bind fun _ taken => V.take valid taken

theorem aklLexGetSymbol_avoids (valid : V.Valid st.dev) {e : Fault} (loop : e.ofLoop) :
    Avoids e (fun r => AtMost V (V.left st.dev) r.2) st.aklLexGetSymbol :=
  (takeText_avoids valid loop).bind fun _ atMost => atMost

/-- `akl_parse_token` on anything but a list. -/
theorem aklParseToken_avoids [Libc] (valid : V.Valid st.dev) (fuel : Nat) {tok : Token}
    (isQuoted : Bool) (notList : tok ≠ .tLBRACE) {e : Fault} (loop : e.ofLoop) :
    Avoids e (fun r => AtMost V (V.left st.dev) r.2 ∧ (r.1 ≠ none → tok ≠ .tEOF))
      (aklParseToken (aklParseList fuel) st tok isQuoted) := by
  cases tok with
  | tLBRACE => exact absurd rfl notList
  | tQUOTE =>
      rintro rfl
      rcases loop with loop | loop <;> cases loop
  | tEOF => exact ⟨V.free valid, fun some => absurd rfl some⟩
  | tRBRACE => exact ⟨⟨valid, le_rfl⟩, fun _ => Token.noConfusion⟩
  | tATOM =>
      exact (aklLexGetSymbol_avoids valid loop).bind fun _ atMost =>
        ⟨atMost, fun _ => Token.noConfusion⟩
  | tNUMBER =>
      exact (takeText_avoids valid loop).bind fun _ atMost => ⟨atMost, fun _ => Token.noConfusion⟩
  | tSTRING =>
      exact (takeText_avoids valid loop).bind fun _ atMost => ⟨atMost, fun _ => Token.noConfusion⟩
  | tNIL => exact ⟨⟨valid, le_rfl⟩, fun _ => Token.noConfusion⟩
  | tTRUE => exact ⟨⟨valid, le_rfl⟩, fun _ => Token.noConfusion⟩

/-- A computation that ends, and what comes behind it. -/
theorem respects_ending {α β : Type} {Q : α → Prop} {P : β → Prop} {x : Except Fault β}
    {k : β → Body σ α} (avoids : ∀ e : Fault, e.ofLoop → Avoids e P x)
    (others : ∀ b, P b → (k b).Respects (Enough V) (Consumes V) Q (RaisesEndless V c)) :
    (leaf x k).Respects (Enough V) (Consumes V) Q (RaisesEndless V c) := by
  refine respects_leaf (fun e failed loop => ?_) fun b returned => ?_
  · exact absurd failed (avoids e loop).ne
  · exact others b ((avoids .hang (.inl rfl)).ok returned)

theorem AtMost.of_dev {n : Nat} {st' : CompState σ} (atMost : AtMost V n st)
    (devEq : st'.dev = st.dev) : AtMost V n st' := by
  simpa only [AtMost, devEq] using atMost

theorem switchBody_ends [Libc] (fuel : Nat) (cx : CompContext) (loc : ListLocals)
    (isQuoted : Bool) (tok : Token) (st : CompState σ)
    (enough : Enough V (.switch fuel cx loc isQuoted tok st)) :
    (switchBody fuel cx loc isQuoted st tok).Respects (Enough V) (Consumes V)
      (Consumes V (.switch fuel cx loc isQuoted tok st))
      (RaisesEndless V (.switch fuel cx loc isQuoted tok st)) := by
  have here : AtMost V (V.left st.dev) st := ⟨enough.1, le_rfl⟩
  cases tok with
  | tATOM =>
      refine respects_ending (fun e loop => aklLexGetSymbol_avoids enough.1 loop) ?_
      rintro ⟨sym, st₁⟩ atMost
      by_cases first : loc.felem
      · simp only [if_pos first, headBody]
        generalize prefetchFunction _ sym = fetched
        obtain ⟨pfSt, fun_⟩ := fetched
        cases pfSt with
        | sform =>
            dsimp only
            cases fun_.bind _ with
            | some sform =>
                refine ⟨⟨atMost.1, atMost.2.trans_lt enough.2⟩, fun r atMost' => ?_⟩
                exact AtMost.trans atMost' atMost.2
            | none => exact atMost
        | _ => exact atMost
      · simp only [if_neg first]
        exact AtMost.of_dev atMost (compileAtom_dev cx isQuoted _ sym _)
  | tLBRACE =>
      cases isQuoted with
      | true => exact ⟨⟨enough.1, fun _ => enough.2⟩, fun r kept => kept.1⟩
      | false =>
          refine ⟨enough, ?_⟩
          rintro ⟨f, st₁⟩ atMost
          exact AtMost.of_dev atMost (compileInner_dev cx loc f st₁)
  | tRBRACE => exact here.of_dev (compileEnd_dev cx loc st)
  | _ =>
      refine ⟨⟨enough.1, fun _ => enough.2⟩, ?_⟩
      rintro ⟨v, st₁⟩ ⟨atMost, _⟩
      cases v with
      | none =>
          rintro (failed | failed) <;> cases failed
      | some v => exact atMost

theorem formBody_ends (fuel : Nat) (cx : CompContext) (sform : SForm) (st : CompState σ)
    (enough : Enough V (.form fuel cx sform st)) :
    (formBody fuel cx st sform).Respects (Enough V) (Consumes V)
      (Consumes V (.form fuel cx sform st)) (RaisesEndless V (.form fuel cx sform st)) := by
  have here : AtMost V (V.left st.dev) st := ⟨enough.1, le_rfl⟩
  -- a call in a state with at most as many tokens
  have below {st' : CompState σ} (atMost : AtMost V (V.left st.dev) st') :
      V.Valid st'.dev ∧ V.left st'.dev ≤ fuel :=
    ⟨atMost.1, atMost.2.trans enough.2.le⟩
  have strictly {st' : CompState σ} (atMost : AtMost V (V.left st.dev) st') :
      V.Valid st'.dev ∧ V.left st'.dev < fuel :=
    ⟨atMost.1, atMost.2.trans_lt enough.2⟩
  cases sform with
  | sif =>
      refine ⟨below here, fun r₁ ⟨first, _⟩ => ?_⟩
      have first : AtMost V (V.left st.dev) r₁.2 := first
      refine ⟨below first, fun r₂ ⟨second, _⟩ => ?_⟩
      have second : AtMost V (V.left st.dev) r₂.2 := AtMost.trans second first.2
      exact ⟨below second, fun r₃ ⟨third, _⟩ => AtMost.trans third second.2⟩
  | when =>
      refine ⟨below here, fun r₁ ⟨first, _⟩ => ?_⟩
      have first : AtMost V (V.left st.dev) r₁.2 := first
      exact ⟨below first, fun r₂ ⟨second, _⟩ => AtMost.trans second first.2⟩
  | swhile =>
      refine ⟨below here, fun r₁ ⟨first, _⟩ => ?_⟩
      have first : AtMost V (V.left st.dev) r₁.2 := first
      exact ⟨below first, fun r₂ ⟨second, _⟩ => AtMost.trans second first.2⟩
  | set =>
      refine ⟨enough.1, fun (tok, st₁) reads => ?_⟩
      have first : AtMost V (V.left st.dev) st₁ := reads.atMost
      by_cases atom : tok ≠ .tATOM
      · simp only [if_pos atom]
        exact first
      · simp only [if_neg atom]
        refine respects_ending (fun e loop => aklLexGetSymbol_avoids first.1 loop)
          fun (sym, st₂) second => ?_
        have second := second.trans first.2
        refine ⟨below second, fun ((tok, fn), st₃) ⟨third, _⟩ => ?_⟩
        have third := AtMost.trans third second.2
        cases fn with
        | none => exact third
        | some fn => exact third
  | defun =>
      refine ⟨enough.1, fun (tok, st₁) reads => ?_⟩
      have first : AtMost V (V.left st.dev) st₁ := reads.atMost
      by_cases atom : tok ≠ .tATOM
      · simp only [if_pos atom]
        exact first
      · simp only [if_neg atom]
        refine respects_ending (fun e loop => aklLexGetSymbol_avoids first.1 loop)
          fun (sym, st₂) second => ?_
        have second := second.trans first.2
        refine ⟨strictly second, fun st₃ third => ?_⟩
        have third := AtMost.trans third second.2
        refine ⟨third.1, fun st₄ fourth => ?_⟩
        have fourth := AtMost.trans fourth third.2
        exact ⟨below fourth, fun r ⟨fifth, _⟩ => AtMost.trans fifth fourth.2⟩
  | lambda =>
      refine ⟨strictly here, fun st₁ first => ?_⟩
      have first : AtMost V (V.left st.dev) st₁ := first
      refine ⟨first.1, fun st₂ second => ?_⟩
      have second := AtMost.trans second first.2
      exact ⟨below second, fun r ⟨third, _⟩ => AtMost.trans third second.2⟩

theorem Closes.not_spent {dev : σ} (closes : Closes dev) : ¬V.Spent dev := by
  induction closes with
  | close lexed =>
      intro spent
      obtain ⟨r, lexEq, ended, -⟩ := (V.spent spent).exists
      cases lexEq.symm.trans lexed
      cases ended
  | atom lexed _ _ _ =>
      intro spent
      obtain ⟨r, lexEq, ended, -⟩ := (V.spent spent).exists
      cases lexEq.symm.trans lexed
      cases ended
  | skip lexed _ _ _ ih =>
      intro spent
      obtain ⟨r, lexEq, -, spent'⟩ := (V.spent spent).exists
      cases lexEq.symm.trans lexed
      exact ih spent'

theorem paramsBody_ends (fuel : Nat) (func : FRef) (st : CompState σ)
    (enough : Enough V (.params fuel func st)) :
    (paramsBody func st fuel).Respects (Enough V) (Consumes V)
      (Consumes V (.params fuel func st)) (RaisesEndless V (.params fuel func st)) := by
  cases fuel with
  | zero => exact fun _ closes => absurd (enough.2 closes) (Nat.not_lt_zero _)
  | succ fuel =>
      refine ⟨enough.1, fun (tok, st₁) reads => ?_⟩
      -- the list is not closed behind the token unless it is closed in front of it
      have again {st₂ : CompState σ} (atMost : AtMost V (V.left st₁.dev) st₂)
          (closes : Closes st₂.dev → Closes st.dev)
          (spent : tok = .tEOF → V.Spent st₁.dev → ¬Closes st₂.dev) :
          Enough V (.params fuel func st₂) := by
        refine ⟨atMost.1, fun closed => ?_⟩
        have bound := Nat.le_of_lt_succ (enough.2 (closes closed))
        have less : V.left st₁.dev < V.left st.dev := by
          by_cases ended : tok = .tEOF
          · exact (reads.ended ended).resolve_left fun isSpent =>
              spent ended isSpent closed
          · exact reads.less ended
        exact atMost.2.trans_lt (less.trans_le bound)
      cases tok with
      | tRBRACE => exact reads.atMost
      | tATOM =>
          obtain ⟨r, taken, -⟩ := (reads.hasText rfl).exists
          have atMost : AtMost V (V.left st₁.dev) { st₁ with dev := r.2 } :=
            V.take reads.valid taken
          have symbol : st₁.aklLexGetSymbol =
              .ok (aklGetOrCreateSymbol r.1, { st₁ with dev := r.2 }) := by
            simp only [CompState.aklLexGetSymbol, CompState.takeText, taken,
              bind, Except.bind, pure,
              Except.pure]
          simp only [symbol, leaf]
          refine ⟨again atMost (fun closes => .atom reads.lexed taken closes)
            (fun ended => Token.noConfusion ended), fun r' atMost' => ?_⟩
          exact AtMost.trans atMost' (atMost.2.trans reads.notMore)
      | _ =>
          have here : AtMost V (V.left st₁.dev) st₁ := ⟨reads.valid, le_rfl⟩
          refine ⟨again here (fun closes => .skip reads.lexed ?_ ?_ closes)
            fun _ isSpent closes => closes.not_spent isSpent, fun r atMost => ?_⟩
          · exact Token.noConfusion
          · exact Token.noConfusion
          · exact AtMost.trans atMost reads.notMore

/-- Where every call has enough fuel, a body only makes calls that have enough, and
loops endlessly in an endless call only. -/
theorem body_ends [Libc] (c : FrontCall σ) (enough : c.Enough V) :
    c.body.Respects (Enough V) (Consumes V) (c.Consumes V) (c.RaisesEndless V) := by
  cases c with
  | lex st =>
      by_cases stuck : V.Stuck st.dev
      · exact respects_leaf (fun _ _ _ => stuck) fun r lexed => by
          simp [CompState.aklLex, V.stuck enough stuck, bind, Except.bind] at lexed
      · obtain ⟨r, lexEq, reads⟩ := (aklLex_reads enough stuck).exists
        simp only [body, lexEq, leaf]
        exact reads
  | token fuel st tok isQuoted =>
      by_cases list : tok = .tLBRACE
      · subst list
        refine ⟨⟨enough.1, enough.2 rfl⟩, ?_⟩
        rintro ⟨l, st'⟩ atMost
        exact ⟨atMost, fun _ => Token.noConfusion⟩
      · rw [body, tokenBody_leaf fuel st isQuoted list]
        exact respects_ending (fun e loop => aklParseToken_avoids enough.1 fuel isQuoted list loop)
          fun r kept => kept
  | value fuel st =>
      refine ⟨enough.1, ?_⟩
      rintro ⟨tok, st₁⟩ reads
      by_cases mark : tok = .tQUOTE
      · subst mark
        have less : V.left st₁.dev < V.left st.dev := reads.less Token.noConfusion
        refine ⟨reads.valid, ?_⟩
        rintro ⟨tok, st₂⟩ reads₂
        refine ⟨⟨reads₂.valid, fun _ => ?_⟩, ?_⟩
        · exact reads₂.notMore.trans_lt (less.trans_le enough.2)
        · rintro r ⟨atMost, -⟩
          refine ⟨?_, fun _ => ?_⟩
          · exact atMost.trans (reads₂.notMore.trans less.le)
          · exact atMost.2.trans_lt (reads₂.notMore.trans_lt less)
      · simp only [if_neg mark]
        refine ⟨⟨reads.valid, fun list => ?_⟩, ?_⟩
        · exact (reads.less (list ▸ Token.noConfusion)).trans_le enough.2
        · rintro r ⟨atMost, notEof⟩
          refine ⟨?_, fun value => ?_⟩
          · exact atMost.trans reads.notMore
          · exact atMost.2.trans_lt (reads.less (notEof value))
  | items fuel l st =>
      cases fuel with
      | zero => exact absurd enough.2 (Nat.not_lt_zero _)
      | succ fuel =>
          refine ⟨⟨enough.1, Nat.le_of_lt_succ enough.2⟩, ?_⟩
          rintro ⟨v, st₁⟩ ⟨atMost, less⟩
          cases v with
          | none => exact atMost
          | some v =>
              have less : V.left st₁.dev < V.left st.dev := less (Option.some_ne_none v)
              refine ⟨⟨atMost.1, less.trans_le (Nat.le_of_lt_succ enough.2)⟩, fun r atMost' => ?_⟩
              exact AtMost.trans atMost' less.le
  | next fuel cx st =>
      refine ⟨enough.1, ?_⟩
      rintro ⟨tok, st₁⟩ reads
      -- one value behind a token that is not the end of the input
      have value (isQuoted : Bool) (answer : Token) (tok' : Token) (st₂ : CompState σ)
          (atMost : AtMost V (V.left st₁.dev) st₂) (more : tok ≠ .tEOF) :
          Outcome.Body.Respects (Enough V) (Consumes V) (Consumes V (.next fuel cx st))
            (RaisesEndless V (.next fuel cx st))
            (.call (.token fuel st₂ tok' isQuoted) fun r =>
              .ret ((answer, none), aklBuildPush cx r.2 r.1) : Body σ _) := by
        have less := atMost.2.trans_lt (reads.less more)
        refine ⟨⟨atMost.1, fun _ => less.trans_le enough.2⟩, ?_⟩
        rintro ⟨v, st₃⟩ ⟨atMost', _⟩
        exact ⟨AtMost.trans atMost' less.le, fun _ => atMost'.2.trans_lt less⟩
      have here : AtMost V (V.left st₁.dev) st₁ := ⟨reads.valid, le_rfl⟩
      cases tok with
      | tEOF => exact ⟨reads.atMost, fun more => absurd rfl more⟩
      | tLBRACE =>
          have less : V.left st₁.dev < V.left st.dev := reads.less Token.noConfusion
          refine ⟨⟨reads.valid, less.trans_le enough.2⟩, ?_⟩
          rintro ⟨f, st₂⟩ atMost
          exact ⟨AtMost.trans atMost less.le, fun _ => atMost.2.trans_lt less⟩
      | tQUOTE =>
          refine ⟨reads.valid, ?_⟩
          rintro ⟨tok, st₂⟩ reads₂
          exact value true tok tok st₂ reads₂.atMost Token.noConfusion
      | _ => exact value false _ _ st₁ here Token.noConfusion
  | list fuel cx loc st =>
      cases fuel with
      | zero => exact absurd enough.2 (Nat.not_lt_zero _)
      | succ fuel =>
          -- the end of a round that leaves fewer tokens than there were
          have round (n : Nat) (less : n < V.left st.dev) (round : Round σ)
              (leaves : RoundLeaves V n round) :
              (roundBody fuel cx round).Respects (Enough V) (Consumes V)
                (Consumes V (.list (fuel + 1) cx loc st))
                (RaisesEndless V (.list (fuel + 1) cx loc st)) := by
            cases round with
            | done fn st₁ => exact AtMost.trans leaves less.le
            | again loc st₁ =>
                have less₁ := leaves.2.trans_lt less
                refine ⟨⟨leaves.1, less₁.trans_le (Nat.le_of_lt_succ enough.2)⟩, fun r atMost => ?_⟩
                exact AtMost.trans atMost less₁.le
          refine ⟨enough.1, ?_⟩
          rintro ⟨tok, st₁⟩ reads
          by_cases ended : tok = .tEOF
          · simp only [if_pos ended]
            exact reads.atMost
          · have less := reads.less ended
            have below := less.trans_le (Nat.le_of_lt_succ enough.2)
            by_cases mark : tok = .tQUOTE
            · simp only [if_neg ended, if_pos mark]
              refine ⟨reads.valid, ?_⟩
              rintro ⟨tok, st₂⟩ reads₂
              refine ⟨⟨reads₂.valid, reads₂.notMore.trans_lt below⟩, fun r leaves => ?_⟩
              exact round _ (reads₂.notMore.trans_lt less) r leaves
            · simp only [if_neg ended, if_neg mark]
              exact ⟨⟨reads.valid, below⟩, fun r leaves => round _ less r leaves⟩
  | switch fuel cx loc isQuoted tok st => exact switchBody_ends fuel cx loc isQuoted tok st enough
  | form fuel cx sform st => exact formBody_ends fuel cx sform st enough
  | args fuel st fname func =>
      refine ⟨enough.1, ?_⟩
      rintro ⟨tok, st₁⟩ reads
      cases tok with
      | tLBRACE =>
          refine ⟨⟨reads.valid, fun _ => reads.notMore.trans_lt enough.2⟩, fun r atMost => ?_⟩
          exact AtMost.trans atMost reads.notMore
      | _ => exact reads.atMost
  | params fuel func st => exact paramsBody_ends fuel func st enough
  | docstring st =>
      refine ⟨enough, ?_⟩
      rintro ⟨tok, st₁⟩ reads
      by_cases string : tok = .tSTRING
      · simp only [if_pos string]
        refine respects_ending (fun e loop => takeText_avoids reads.valid loop) ?_
        rintro ⟨text, st₂⟩ atMost
        refine ⟨atMost.1, ?_⟩
        rintro ⟨tok, st₃⟩ reads₃
        exact reads₃.atMost.trans (atMost.2.trans reads.notMore)
      · simp only [if_neg string]
        exact reads.back
  | forms fuel cx st =>
      cases fuel with
      | zero => exact absurd enough.2 (Nat.not_lt_zero _)
      | succ fuel =>
          refine ⟨⟨enough.1, Nat.le_of_lt_succ enough.2⟩, ?_⟩
          rintro ⟨⟨tok, fn⟩, st₁⟩ ⟨atMost, less⟩
          by_cases ended : tok = .tEOF
          · simp only [if_pos ended]
            exact atMost
          · simp only [if_neg ended]
            have less : V.left st₁.dev < V.left st.dev := less ended
            refine ⟨⟨atMost.1, less.trans_le (Nat.le_of_lt_succ enough.2)⟩, fun r atMost' => ?_⟩
            exact AtMost.trans atMost' less.le

theorem aklLex_stuck (valid : V.Valid st.dev) (stuck : V.Stuck st.dev) :
    st.aklLex = .error .hang := by
  simp only [CompState.aklLex, V.stuck valid stuck, bind, Except.bind]

/-- One round of the parameter loop behind its token. -/
theorem parseParamsLoop_token {func : FRef} {fuel : Nat} {st st₁ : CompState σ} {tok : Token}
    (lexEq : st.aklLex = .ok (tok, st₁)) :
    parseParamsLoop func (fuel + 1) st =
      match tok with
      | .tRBRACE => .ok st₁
      | .tATOM => st₁.aklLexGetSymbol >>= fun (sym, st) =>
          parseParamsLoop func fuel
            (st.modifyUfun func fun ufun => { ufun with ufArgs := ufun.ufArgs ++ [sym] })
      | _ => parseParamsLoop func fuel st₁ := by
  simp only [parseParamsLoop, lexEq, bind, Except.bind]
  cases tok <;> rfl

/-- A parameter list that is not closed is read until the bound is reached, or
until the lexer hangs. -/
theorem parseParams_endless (fuel : Nat) (func : FRef) (st : CompState σ)
    (valid : V.Valid st.dev) (unclosed : ¬Closes st.dev) :
    ∃ e : Fault, e.ofLoop ∧ parseParamsLoop func fuel st = .error e := by
  induction fuel generalizing st with
  | zero => exact ⟨.outOfFuel, .inr rfl, rfl⟩
  | succ fuel ih =>
      by_cases stuck : V.Stuck st.dev
      · refine ⟨.hang, .inl rfl, ?_⟩
        simp only [parseParamsLoop, aklLex_stuck valid stuck, bind, Except.bind]
      · obtain ⟨⟨tok, st₁⟩, lexEq, reads⟩ := (aklLex_reads valid stuck).exists
        rw [parseParamsLoop_token lexEq]
        cases tok with
        | tRBRACE => exact absurd (.close reads.lexed) unclosed
        | tATOM =>
            obtain ⟨r, taken, -⟩ := (reads.hasText rfl).exists
            simp only [CompState.aklLexGetSymbol, CompState.takeText, taken,
              bind, Except.bind, pure,
              Except.pure]
            exact ih _ (V.take reads.valid taken).1 fun closes =>
              unclosed (.atom reads.lexed taken closes)
        | _ =>
            refine ih st₁ reads.valid fun closes => unclosed (.skip reads.lexed ?_ ?_ closes)
            · exact Token.noConfusion
            · exact Token.noConfusion

/-- An endless call does not return. -/
theorem Endless.run [Libc] {c : FrontCall σ} (enough : c.Enough V) (endless : c.Endless V) :
    ∃ e : Fault, e.ofLoop ∧ c.run = .error e := by
  cases c with
  | lex st => exact ⟨.hang, .inl rfl, aklLex_stuck enough endless⟩
  | params fuel func st => exact parseParams_endless fuel func st enough.1 endless
  | _ => exact False.elim endless

/-- A call with enough fuel ends exactly if it comes to no endless call. -/
theorem run_ends_iff [Libc] {c : FrontCall σ} (enough : c.Enough V) :
    (∀ e : Fault, e.ofLoop → c.run ≠ .error e) ↔
      ∀ c', (frontEnd σ).ComesTo c c' → ¬c'.Endless V := by
  obtain ⟨-, comesEnough, origin⟩ := (frontEnd σ).recursion body_ends c enough
  constructor
  · intro ends c' comes endless
    obtain ⟨e, loop, failed⟩ := Endless.run (comesEnough c' comes) endless
    exact ends e loop (comes.error failed)
  · intro noneEndless e loop failed
    obtain ⟨c', comes, -, raises⟩ := origin e failed
    exact noneEndless c' comes (raises loop)

end FrontCall

/-- `akl_compile` ends: with a large enough bound it does not run in a loop that
makes no progress, nor is the bound reached. -/
def CompilationEnds {σ : Type} [TokenSource σ] [Libc] (st : CompState σ) : Prop :=
  ∃ bound, ∀ fuel, bound < fuel → ∀ e : Fault, e.ofLoop → aklCompile fuel st ≠ .error e

theorem aklCompile_ends_iff [Libc] {st : CompState Dev} {content : List Chr}
    (file : st.dev.FileWith content) {fuel : Nat} (enough : st.dev.left < fuel) :
    (∀ e : Fault, e.ofLoop → aklCompile fuel st ≠ .error e) ↔
      ∀ c, (frontEnd Dev).ComesTo (compileCall fuel st) c → ¬c.Endless Dev.exhaustible := by
  have enough : (compileCall fuel st).Enough Dev.exhaustible := ⟨⟨content, file⟩, enough⟩
  rw [← FrontCall.run_ends_iff enough]
  simp only [ne_eq, aklCompile_error_iff]

/-- Compiling a file ends exactly if it comes neither to a parameter list without
a closing parenthesis in what is left of the file nor to a shebang line that the
end of the file ends. -/
theorem compile_ends [Libc] (fresh : Nat → Chr) (content : List Chr) (charCount column : UInt32)
    (backlog : Token) (data : Data) (funs : List AklFunction) (errors : List AklError) :
    let st : CompState Dev :=
      ⟨aklNewFileDevice fresh content charCount column backlog, data, funs, errors⟩
    CompilationEnds st ↔ ∃ bound, ∀ fuel, bound < fuel →
      ∀ c, (frontEnd Dev).ComesTo (compileCall fuel st) c → ¬c.Endless Dev.exhaustible := by
  intro st
  have file : st.dev.FileWith content :=
    Dev.aklNewFileDevice_file fresh content charCount column backlog
  constructor
  · rintro ⟨bound, ends⟩
    refine ⟨max bound st.dev.left, fun fuel enough => ?_⟩
    exact (aklCompile_ends_iff file ((le_max_right _ _).trans_lt enough)).mp
      (ends fuel ((le_max_left _ _).trans_lt enough))
  · rintro ⟨bound, noneEndless⟩
    refine ⟨max bound st.dev.left, fun fuel enough => ?_⟩
    exact (aklCompile_ends_iff file ((le_max_right _ _).trans_lt enough)).mpr
      (noneEndless fuel ((le_max_left _ _).trans_lt enough))

/-- A file of an interpreter that has just been started. -/
def fileState (text : String) : CompState Dev :=
  ⟨aklNewFileDevice (fun _ => 0) (text.toList.map code) 0 0 .tEOF, Machine.init.data,
    Machine.init.funs, []⟩

set_option maxRecDepth 10000 in
/-- A text that ends in a parameter list. -/
theorem compile_endless :
    ¬@CompilationEnds Dev _ ⟨fun _ => 0, fun _ => 0⟩ (fileState "(lambda (") := by
  let libc : Libc := ⟨fun _ => 0, fun _ => 0⟩
  rintro ⟨bound, ends⟩
  have file : (fileState "(lambda (").dev.FileWith _ := Dev.aklNewFileDevice_file _ _ _ _ _
  have noneEndless := (aklCompile_ends_iff file (show 9 < bound + 9 + 2 by omega)).mp
    (ends (bound + 9 + 2) (by omega))
  have calls (c c' : FrontCall Dev) (called : c.body.Calls FrontCall.run c') :
      (frontEnd Dev).Calls c c' := called
  have comes : (frontEnd Dev).ComesTo (compileCall (bound + 9 + 2) (fileState "(lambda (")) _ :=
    .head (calls _ (.next (bound + 9 + 1) _ _) .here) <|
    .head (calls _ (.list (bound + 9 + 1) _ _ _) (.later rfl .here)) <|
    .head (calls _ (.switch (bound + 9) _ _ _ _ _) (.later rfl .here)) <|
    .head (calls _ (.form (bound + 9) _ _ _) .here) <|
    .head (calls _ (.args (bound + 9) _ _ _) .here) <|
    .head (calls _ (.params (bound + 9) _ _) (.later rfl .here)) .refl
  refine noneEndless _ comes fun closes => ?_
  refine closes.not_spent (V := Dev.exhaustible) ⟨⟨true, rfl, fun _ => rfl⟩, ⟨_, rfl, ?_⟩, rfl⟩
  decide

end AkLisp
