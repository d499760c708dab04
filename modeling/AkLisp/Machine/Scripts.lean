import AkLisp.Lexer.Script
import AkLisp.Machine.Sources

/-!
# From the text of a source to its values

A device that is opened on the text of a source, a string or a file, delivers the tokens
of the source and then the end.  So a session compiles and executes the text, however it
is laid out and commented.
-/

namespace AkLisp

/-- A device is a source of the tokens its text is read as. -/
def scriptDelivery : Delivery Dev where
  Ready ls dev := ls = [] ∨ ∃ col r, dev.started.At col r ∧ ReadAs col r ls
  Lexed l ls dev := l.tok = .tEOF ∧ ls = [] ∨ ∃ col r, dev.At col r ∧ ReadAs col r ls ∧
    (l.tok.hasText = true →
      dev.bufferText = l.text ∧ ∃ block, dev.iodBuffer = some block ∧ 0 ∈ block)
  lex := by
    intro l ls dev ready
    rcases ready with none | ⟨col, r, at_, readAs⟩
    · cases none
    cases readAs with
    | ended lexes =>
        rcases at_.aklLex lexes with ⟨dev', lexEq, -⟩
        exact ⟨dev', lexEq, .inl ⟨rfl, rfl⟩⟩
    | @token _ _ tok w col₁ r₁ _ lexes notEof others =>
        rcases at_.aklLex lexes with ⟨dev', lexEq, delivered⟩
        rcases delivered notEof with ⟨at', text, -⟩
        refine ⟨dev', lexEq, .inr ⟨col₁, r₁, at', others, ?_⟩⟩
        intro hasText
        rcases lexes.written hasText with ⟨text', rfl⟩
        have hasText' : tok.hasText = true := hasText
        simpa only [deliveredLexeme, hasText', if_true, Option.getD_some] using text text' rfl
  forget := by
    intro l ls dev lexed
    rcases lexed with ⟨-, rfl⟩ | ⟨col, r, at_, readAs, -⟩
    · exact .inl rfl
    · exact .inr ⟨col, r, at_.started.symm ▸ at_, readAs⟩
  text := by
    intro l ls dev lexed hasText
    rcases lexed with ⟨eof, -⟩ | ⟨col, r, at_, readAs, text⟩
    · rw [eof] at hasText
      cases hasText
    · rcases at_.takeText (text hasText) with ⟨dev', takeEq, at', -⟩
      exact ⟨dev', takeEq, .inr ⟨col, r, at'.started.symm ▸ at', readAs⟩⟩
  putback := by
    intro l ls dev lexed notEof
    rcases lexed with ⟨eof, -⟩ | ⟨col, r, at_, readAs, text⟩
    · exact absurd eof notEof
    · exact ⟨dev, at_.aklLex_putback notEof, .inr ⟨col, r, at_, readAs, text⟩⟩

/-- A device that was opened on the text. -/
inductive Dev.Opened (text : List Chr) : Dev → Prop where
  | string (fresh : Nat → Chr) (column : UInt32) (backlog : Token) :
      Opened text (aklNewStringDevice fresh text column backlog)
  | file (fresh : Nat → Chr) (charCount column : UInt32) (backlog : Token) :
      Opened text (aklNewFileDevice fresh text charCount column backlog)

/-- The text is one of the source. -/
structure WrittenAs (es : List Form) (text : List Chr) : Prop where
  ascii : ∀ ch ∈ text, IsAscii ch
  script : ∃ script : Script, script.Fits ∧ script.text = text ∧
    script.lexemes = (es.map Form.tokens).flatten

section

variable {m : Machine} {es : List Form} {text : List Chr} {dev : Dev}

theorem WrittenAs.ready (written : WrittenAs es text) (opened : dev.Opened text) :
    scriptDelivery.Ready ((es.map Form.tokens).flatten ++ [endLexeme]) dev := by
  rcases written.script with ⟨script, fits, rfl, lexemes⟩
  apply Or.inr
  rw [← lexemes]
  cases opened with
  | string fresh column backlog =>
      have legal := fun ch mem => (written.ascii ch mem).isStringChar
      exact ⟨_, _, aklNewStringDevice_at fresh legal column backlog, script.readAs fits _⟩
  | file fresh charCount column backlog =>
      exact ⟨_, _, aklNewFileDevice_at fresh written.ascii charCount column backlog,
        script.readAs fits _⟩

/-- A source can be written if its tokens can. -/
theorem writtenAs_spaced {ws : List Written}
    (tokens : ws.map Written.lexeme = (es.map Form.tokens).flatten)
    (ascii : ∀ ch ∈ (Script.spaced ws).text, IsAscii ch) :
    WrittenAs es (Script.spaced ws).text :=
  ⟨ascii, Script.spaced ws, Script.spaced_fits ws, rfl, (Script.lexemes_spaced ws).trans tokens⟩

/-- Every session of the interpreter that opens a text of the source compiles it and
executes its main function up to the end; then the condition holds of the values on the
stack and of the data. -/
def Machine.FinishesTexts [Libc] (m : Machine) (es : List Form)
    (R : List VRef → Data → Prop) : Prop :=
  ∀ (text : List Chr) (dev : Dev) (sources : List Dev) (fuel : Nat), WrittenAs es text →
    dev.Opened text → (es.map Form.tokens).flatten.length < fuel →
    ∃ n m', Session.run id fuel n ⟨m, dev :: sources⟩ = some ⟨m', sources⟩ ∧ m'.control = [] ∧
      ∃ cells, m'.stack.Holds cells ∧ R (cells.map Prod.snd) m'.data

variable [Libc]

theorem Machine.Finishes.texts {R : List VRef → Data → Prop} (finishes : m.Finishes es R) :
    m.FinishesTexts es R :=
  fun _ dev sources fuel written opened enough =>
    finishes scriptDelivery fuel dev sources enough (written.ready opened)

end

/-- `(defun! f () T)`, and a call of the function. -/
def constantSource : List Form :=
  [.defun [code 'f'] [] (.literal .true), .call [code 'f'] .nil]

theorem Machine.init_idle : init.Idle :=
  ⟨rfl, init_bound, fun form => by cases form <;> decide⟩

theorem Machine.init_accepts : init.Accepts constantSource where
  top := by
    intro e mem
    simp only [constantSource, List.mem_cons, List.not_mem_nil, or_false] at mem
    rcases mem with rfl | rfl
    · exact ⟨fun form => by cases form <;> decide, id, trivial, id⟩
    · exact ⟨⟨.inr (by decide), trivial⟩, id⟩
  distinct := by decide
  fresh := by
    intro sym mem
    have equal : sym = aklGetOrCreateSymbol [code 'f'] := by
      simpa [constantSource, Form.defined?] using mem
    rw [equal]
    decide
  ending := by decide

/-- The tokens of the source as they are written. -/
def constantTokens : List Written :=
  let f : Written := .atom (code 'f') [] (by decide) (by decide) (by decide)
  [.opening,
    .atom (code 'd') ("efun!".toList.map code) (by decide) (by decide) (by decide),
    f, .nil, .atom (code 'T') [] (by decide) (by decide) (by decide),
    .close, .opening, f, .close]

theorem constantTokens_writtenAs :
    WrittenAs constantSource (Script.spaced constantTokens).text :=
  writtenAs_spaced (by decide) (by decide)

example : (Script.spaced constantTokens).text =
    " ( defun! f () T ) ( f ) ".toList.map code := by
  decide

/-- The definition leaves its name, and the call of the function the true value. -/
theorem constantSource_meets [Libc] (B : Build .init constantSource) :
    B.image.MeetsSource constantSource B.image.data fun vs d => ∃ v w, vs = [v, w] ∧
      d.payload v = some (.symbol (aklGetOrCreateSymbol [code 'f'])) ∧
      d.payload w = some .true := by
  rcases B.knows _ _ _ (List.mem_cons_self) with ⟨fn, named, known⟩
  apply Image.meetsSource_definition le_rfl
  intro v symbol
  apply Image.meetsSource_expr rfl
  apply Image.meets_call le_rfl named
  apply Image.meetsAll_nil
  apply Image.total_known known rfl (by simp)
  apply Image.meets_literal
  intro w denoted
  apply Image.meetsSource_nil
  exact ⟨v, w, rfl, symbol, denoted⟩

end AkLisp
