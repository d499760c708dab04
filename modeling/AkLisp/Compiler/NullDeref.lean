import AkLisp.Compiler.Calls
import AkLisp.Lexer.Buffer

/-!
# Null values in the front end

`akl_parse_token` makes no value of a quote mark and writes to it nevertheless;
`akl_compile_list` reads the value of whatever stands behind a quote mark, also
when this is the end of the input.  Compiling a text dereferences a null pointer
exactly if it comes to one of these two places.
-/

namespace AkLisp

open Outcome Outcome.Body

/-- A call that dereferences a null value: `akl_parse_token` on a quote mark,
which it is handed behind another quote mark, or the `switch` of
`akl_compile_list` on the end of the input, which it sees behind a quote mark. -/
def FrontCall.DerefsNull {σ : Type} : FrontCall σ → Prop
  | .token _ _ .tQUOTE _ => True
  | .switch _ _ _ _ .tEOF _ => True
  | _ => False

/-- The source never dereferences a null pointer of its own, and behind a token
the text in its buffer can be fetched. -/
structure Buffered (σ : Type) [TokenSource σ] : Prop where
  lex : ∀ dev : σ, TokenSource.aklLex dev ≠ .error .nullDeref
  take : ∀ (dev dev' : σ) tok, TokenSource.aklLex dev = .ok (tok, dev') →
    TokenSource.takeText dev' ≠ .error .nullDeref

theorem Dev.buffered : Buffered Dev where
  lex dev := dev.aklLex_hasBuffer.ne
  take dev _ _ lexed := HasBuffer.takeText (dev.aklLex_hasBuffer.ok lexed)

namespace FrontCall

variable {σ : Type} [TokenSource σ]

/-- The text of the last token can be fetched. -/
def Fetchable (st : CompState σ) : Prop := TokenSource.takeText st.dev ≠ .error .nullDeref

/-- A call that fetches a text without reading a token is made behind a token. -/
def BehindToken : FrontCall σ → Prop
  | .token _ st _ _ | .switch _ _ _ _ _ st => Fetchable st
  | _ => True

/-- Behind `akl_lex` the text can be fetched, and `akl_parse_token` gives `NULL`
for two tokens only. -/
def Leaves : (c : FrontCall σ) → c.Result → Prop
  | .lex _ => fun r => Fetchable r.2
  | .token _ _ tok _ => fun r => r.1 = none → tok = .tEOF ∨ tok = .tRBRACE
  | _ => fun _ => True

/-- A call that raises the fault itself is one that dereferences a null value. -/
def RaisesNull (c : FrontCall σ) (e : Fault) : Prop := e = .nullDeref → c.DerefsNull

theorem Fetchable.takeText {st : CompState σ} (fetchable : Fetchable st) :
    Avoids .nullDeref (fun _ => True) st.takeText :=
  (Avoids.of_ne fetchable).bind fun _ _ => trivial

theorem Fetchable.aklLexGetSymbol {st : CompState σ} (fetchable : Fetchable st) :
    Avoids .nullDeref (fun _ => True) st.aklLexGetSymbol :=
  fetchable.takeText.bind fun _ _ => trivial

theorem aklLex_fetchable (buffered : Buffered σ) (st : CompState σ) :
    Avoids .nullDeref (fun r => Fetchable r.2) st.aklLex :=
  (Avoids.of_ne (buffered.lex st.dev)).bind fun (tok, dev) lexed =>
    buffered.take st.dev dev tok lexed

variable [Libc]

/-- `akl_parse_token` dereferences a null value on a quote mark only, and gives
`NULL` for the end of the input and a closing parenthesis only. -/
theorem Fetchable.aklParseToken {st : CompState σ} (fetchable : Fetchable st) (fuel : Nat)
    {tok : Token} (isQuoted : Bool) (notList : tok ≠ .tLBRACE) (notMark : tok ≠ .tQUOTE) :
    Avoids .nullDeref (fun r => r.1 = none → tok = .tEOF ∨ tok = .tRBRACE)
      (aklParseToken (aklParseList fuel) st tok isQuoted) := by
  cases tok with
  | tQUOTE => exact absurd rfl notMark
  | tLBRACE => exact absurd rfl notList
  | tEOF => exact fun _ => .inl rfl
  | tRBRACE => exact fun _ => .inr rfl
  | tATOM =>
      exact fetchable.aklLexGetSymbol.bind fun _ _ none => absurd none (Option.some_ne_none _)
  | tNUMBER => exact fetchable.takeText.bind fun _ _ none => absurd none (Option.some_ne_none _)
  | tSTRING => exact fetchable.takeText.bind fun _ _ none => absurd none (Option.some_ne_none _)
  | tNIL => exact fun none => absurd none (Option.some_ne_none _)
  | tTRUE => exact fun none => absurd none (Option.some_ne_none _)

omit [TokenSource σ] [Libc] in
/-- Where a fault can be avoided, it is not raised. -/
theorem not_raised {α : Type} {c : FrontCall σ} {P : α → Prop} {x : Except Fault α}
    (avoids : Avoids .nullDeref P x) : ∀ e, x = .error e → c.RaisesNull e := by
  rintro e failed rfl
  exact absurd failed avoids.ne

theorem tokenBody_null (fuel : Nat) (st : CompState σ) (tok : Token) (isQuoted : Bool)
    (fetchable : Fetchable st) :
    (tokenBody fuel st isQuoted tok).Respects BehindToken Leaves
      (Leaves (.token fuel st tok isQuoted)) (RaisesNull (.token fuel st tok isQuoted)) := by
  by_cases list : tok = .tLBRACE
  · subst list
    exact ⟨trivial, fun _ _ none => absurd none (Option.some_ne_none _)⟩
  · rw [tokenBody_leaf fuel st isQuoted list]
    by_cases mark : tok = .tQUOTE
    · subst mark
      exact fun _ => trivial
    · have avoids := fetchable.aklParseToken fuel isQuoted list mark
      exact respects_leaf (not_raised avoids) fun r parsed => avoids.ok parsed

omit [Libc] in
theorem switchBody_null (fuel : Nat) (cx : CompContext) (loc : ListLocals) (isQuoted : Bool)
    (tok : Token) (st : CompState σ) (fetchable : Fetchable st) :
    (switchBody fuel cx loc isQuoted st tok).Respects BehindToken Leaves (fun _ => True)
      (RaisesNull (.switch fuel cx loc isQuoted tok st)) := by
  cases tok with
  | tATOM =>
      refine respects_leaf (not_raised fetchable.aklLexGetSymbol) ?_
      rintro ⟨sym, st⟩ _
      by_cases first : loc.felem
      · simp only [if_pos first, headBody]
        generalize prefetchFunction _ sym = fetched
        obtain ⟨pfSt, fun_⟩ := fetched
        cases pfSt with
        | sform =>
            dsimp only
            cases fun_.bind _ with
            | some sform => exact ⟨trivial, fun _ _ => trivial⟩
            | none => trivial
        | _ => trivial
      · simp only [if_neg first]
        trivial
  | tLBRACE =>
      cases isQuoted with
      | true => exact ⟨fetchable, fun _ _ => trivial⟩
      | false => exact ⟨trivial, fun _ _ => trivial⟩
  | tRBRACE => trivial
  | tEOF =>
      refine ⟨fetchable, ?_⟩
      rintro ⟨v, st⟩ _
      cases v with
      | none => exact fun _ => trivial
      | some v => trivial
  | _ =>
      refine ⟨fetchable, ?_⟩
      rintro ⟨v, st⟩ leaves
      cases v with
      | none => exact absurd (leaves rfl) (by simp)
      | some v => trivial

/-- Texts are fetched behind tokens only, and the fault is raised where a null
value is dereferenced only. -/
theorem body_null (buffered : Buffered σ) (c : FrontCall σ) (behind : c.BehindToken) :
    c.body.Respects BehindToken Leaves c.Leaves c.RaisesNull := by
  cases c with
  | lex st =>
      have avoids := aklLex_fetchable buffered st
      exact respects_leaf (not_raised avoids) fun r lexed => avoids.ok lexed
  | token fuel st tok isQuoted => exact tokenBody_null fuel st tok isQuoted behind
  | value fuel st =>
      refine ⟨trivial, fun (tok, st) fetchable => ?_⟩
      by_cases mark : tok = .tQUOTE
      · simp only [if_pos mark]
        exact ⟨trivial, fun (tok, st) fetchable => ⟨fetchable, fun _ _ => trivial⟩⟩
      · simp only [if_neg mark]
        exact ⟨fetchable, fun _ _ => trivial⟩
  | items fuel l st =>
      cases fuel with
      | zero => exact Fault.noConfusion
      | succ fuel =>
          refine ⟨trivial, fun (v, st) _ => ?_⟩
          cases v with
          | none => trivial
          | some v => exact ⟨trivial, fun _ _ => trivial⟩
  | next fuel cx st =>
      refine ⟨trivial, fun (tok, st) fetchable => ?_⟩
      cases tok with
      | tEOF => trivial
      | tLBRACE => exact ⟨trivial, fun _ _ => trivial⟩
      | tQUOTE => exact ⟨trivial, fun (tok, st) fetchable => ⟨fetchable, fun _ _ => trivial⟩⟩
      | _ => exact ⟨fetchable, fun _ _ => trivial⟩
  | list fuel cx loc st =>
      cases fuel with
      | zero => exact Fault.noConfusion
      | succ fuel =>
          have round (round : Round σ) : (roundBody fuel cx round).Respects BehindToken Leaves
              (fun _ => True) (RaisesNull (.list (fuel + 1) cx loc st)) := by
            cases round with
            | done fn st => trivial
            | again loc st => exact ⟨trivial, fun _ _ => trivial⟩
          refine ⟨trivial, fun (tok, st) fetchable => ?_⟩
          by_cases ended : tok = .tEOF
          · simp only [if_pos ended]
            trivial
          · by_cases mark : tok = .tQUOTE
            · simp only [if_neg ended, if_pos mark]
              exact ⟨trivial, fun (tok, st) fetchable => ⟨fetchable, fun r _ => round r⟩⟩
            · simp only [if_neg ended, if_neg mark]
              exact ⟨fetchable, fun r _ => round r⟩
  | switch fuel cx loc isQuoted tok st => exact switchBody_null fuel cx loc isQuoted tok st behind
  | form fuel cx sform st =>
      cases sform with
      | sif => exact ⟨trivial, fun _ _ => ⟨trivial, fun _ _ => ⟨trivial, fun _ _ => trivial⟩⟩⟩
      | lambda => exact ⟨trivial, fun _ _ => ⟨trivial, fun _ _ => ⟨trivial, fun _ _ => trivial⟩⟩⟩
      | when => exact ⟨trivial, fun _ _ => ⟨trivial, fun _ _ => trivial⟩⟩
      | swhile => exact ⟨trivial, fun _ _ => ⟨trivial, fun _ _ => trivial⟩⟩
      | set =>
          refine ⟨trivial, fun (tok, st) fetchable => ?_⟩
          by_cases atom : tok ≠ .tATOM
          · simp only [if_pos atom]
            trivial
          · simp only [if_neg atom]
            exact respects_leaf (not_raised (Fetchable.aklLexGetSymbol fetchable))
              fun (sym, st) _ => ⟨trivial, fun _ _ => trivial⟩
      | defun =>
          refine ⟨trivial, fun (tok, st) fetchable => ?_⟩
          by_cases atom : tok ≠ .tATOM
          · simp only [if_pos atom]
            trivial
          · simp only [if_neg atom]
            exact respects_leaf (not_raised (Fetchable.aklLexGetSymbol fetchable))
              fun (sym, st) _ =>
                ⟨trivial, fun _ _ => ⟨trivial, fun _ _ => ⟨trivial, fun _ _ => trivial⟩⟩⟩
  | args fuel st fname func =>
      refine ⟨trivial, fun (tok, st) _ => ?_⟩
      cases tok with
      | tLBRACE => exact ⟨trivial, fun _ _ => trivial⟩
      | _ => trivial
  | params fuel func st =>
      cases fuel with
      | zero => exact Fault.noConfusion
      | succ fuel =>
          refine ⟨trivial, fun (tok, st) fetchable => ?_⟩
          cases tok with
          | tRBRACE => trivial
          | tATOM =>
              exact respects_leaf (not_raised (Fetchable.aklLexGetSymbol fetchable))
                fun (sym, st) _ => ⟨trivial, fun _ _ => trivial⟩
          | _ => exact ⟨trivial, fun _ _ => trivial⟩
  | docstring st =>
      refine ⟨trivial, fun (tok, st) fetchable => ?_⟩
      by_cases string : tok = .tSTRING
      · simp only [if_pos string]
        exact respects_leaf (not_raised (Fetchable.takeText fetchable))
          fun (text, st) _ => ⟨trivial, fun _ _ => trivial⟩
      · simp only [if_neg string]
        trivial
  | forms fuel cx st =>
      cases fuel with
      | zero => exact Fault.noConfusion
      | succ fuel =>
          refine ⟨trivial, fun ((tok, fn), st) _ => ?_⟩
          by_cases ended : tok = .tEOF
          · simp only [if_pos ended]
            trivial
          · simp only [if_neg ended]
            exact ⟨trivial, fun _ _ => trivial⟩

/-- Such a call does fail. -/
theorem DerefsNull.run {c : FrontCall σ} (derefs : c.DerefsNull) : c.run = .error .nullDeref := by
  cases c with
  | token fuel st tok isQuoted =>
      cases tok with
      | tQUOTE => rfl
      | _ => exact False.elim derefs
  | switch fuel cx loc isQuoted tok st =>
      cases tok with
      | tEOF => rfl
      | _ => exact False.elim derefs
  | _ => exact False.elim derefs

/-- A call ends with the fault exactly if it comes to a call that dereferences a
null value. -/
theorem run_nullDeref_iff (buffered : Buffered σ) {c : FrontCall σ} (behind : c.BehindToken) :
    c.run = .error .nullDeref ↔ ∃ c', (frontEnd σ).ComesTo c c' ∧ c'.DerefsNull := by
  constructor
  · intro failed
    obtain ⟨-, -, origin⟩ := (frontEnd σ).recursion (body_null buffered) c behind
    obtain ⟨c', comes, -, raises⟩ := origin _ failed
    exact ⟨c', comes, raises rfl⟩
  · rintro ⟨c', comes, derefs⟩
    exact comes.error derefs.run

end FrontCall

/-- `akl_compile` behind the creation of the main function. -/
def compileCall {σ : Type} (fuel : Nat) (st : CompState σ) : FrontCall σ :=
  .forms fuel ⟨(aklNewUserFunction st).1, (aklNewUserFunction st).1⟩ (aklNewUserFunction st).2

/-- `akl_compile` fails where this call does. -/
theorem aklCompile_error_iff {σ : Type} [TokenSource σ] [Libc] (fuel : Nat) (st : CompState σ)
    (e : Fault) : aklCompile fuel st = .error e ↔ (compileCall fuel st).run = .error e := by
  have ranEq : aklCompile fuel st = ((compileCall fuel st).run : Except Fault (CompState σ)) >>=
      fun st' => .ok ((aklNewUserFunction st).1, st'.modifyUfun (aklNewUserFunction st).1
        fun ufun => { ufun with ufBody := popNop ufun.ufBody }) := rfl
  rw [ranEq]
  cases (compileCall fuel st).run with
  | ok st' => simp [bind, Except.bind]
  | error f => simp [bind, Except.bind]

/-- Compiling a text dereferences no null value exactly if it comes to no quote
mark taken directly behind a quote mark and, in an unquoted list, to no end of
the input directly behind a quote mark. -/
theorem compile_derefs_no_null [Libc] (st : CompState Dev) :
    (∀ fuel, aklCompile fuel st ≠ .error .nullDeref) ↔
      ∀ fuel c, (frontEnd Dev).ComesTo (compileCall fuel st) c → ¬c.DerefsNull := by
  apply forall_congr'
  intro fuel
  have behind : (compileCall fuel st).BehindToken := trivial
  rw [ne_eq, aklCompile_error_iff, FrontCall.run_nullDeref_iff Dev.buffered behind]
  simp only [not_exists, not_and]

/-- A text. -/
def textState (text : String) : CompState Dev :=
  ⟨aklNewStringDevice (fun _ => 0) (text.toList.map code) 0 .tEOF, .init, [], []⟩

/-- The text of two quote marks. -/
theorem compile_derefs_null :
    @aklCompile Dev _ ⟨fun _ => 0, fun _ => 0⟩ 3 (textState "''") = .error .nullDeref := by
  rfl

end AkLisp
