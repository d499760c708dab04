import AkLisp.Reader.Parser

/-!
# Sources that deliver given tokens

What compiler and reader make of a text depends on the device only through the
tokens it delivers.  A `Delivery` says of a kind of source when it is ready to
deliver given tokens and when it has just delivered one whose text is still in
the buffer.  A list of tokens is such a source.
-/

namespace AkLisp

/-- When a source is ready to deliver certain tokens next, and when it has
delivered a token and is to deliver others behind it. -/
structure Delivery (σ : Type) [TokenSource σ] where
  Ready : List Lexeme → σ → Prop
  Lexed : Lexeme → List Lexeme → σ → Prop
  lex : ∀ {l ls dev}, Ready (l :: ls) dev →
    ∃ dev', TokenSource.aklLex dev = .ok (l.tok, dev') ∧ Lexed l ls dev'
  forget : ∀ {l ls dev}, Lexed l ls dev → Ready ls dev
  text : ∀ {l ls dev}, Lexed l ls dev → l.tok.hasText = true →
    ∃ dev', TokenSource.takeText dev = .ok (l.text, dev') ∧ Ready ls dev'
  putback : ∀ {l ls dev}, Lexed l ls dev → l.tok ≠ .tEOF →
    ∃ dev', TokenSource.aklLex (TokenSource.aklLexPutback dev l.tok) = .ok (l.tok, dev') ∧
      Lexed l ls dev'

namespace Delivery

variable {σ : Type} [TokenSource σ] (D : Delivery σ)

/-- The next call of `akl_lex` delivers the first of these tokens; this also
holds of a source the token has been put back to. -/
def Offers (toks : List Lexeme) (dev : σ) : Prop :=
  ∀ l ls, toks = l :: ls →
    ∃ dev', TokenSource.aklLex dev = .ok (l.tok, dev') ∧ D.Lexed l ls dev'

variable {D} {l : Lexeme} {ls : List Lexeme} {dev : σ}

theorem offers (ready : D.Ready ls dev) : D.Offers ls dev := by
  rintro l ls rfl
  exact D.lex ready

theorem Offers.lex (offers : D.Offers (l :: ls) dev) :
    ∃ dev', TokenSource.aklLex dev = .ok (l.tok, dev') ∧ D.Lexed l ls dev' :=
  offers l ls rfl

theorem offers_putback (lexed : D.Lexed l ls dev) (notEof : l.tok ≠ .tEOF) :
    D.Offers (l :: ls) (TokenSource.aklLexPutback dev l.tok) := by
  intro l' ls' equal
  cases equal
  exact D.putback lexed notEof

end Delivery

/-- A list of tokens is delivered as it stands. -/
def tokStreamDelivery : Delivery TokStream where
  Ready ls dev := dev.rest = ls ∧ dev.backlog = .tEOF
  Lexed l ls dev :=
    dev.rest = ls ∧ dev.backlog = .tEOF ∧ (l.tok.hasText = true → dev.buffer = l.text)
  lex := by
    rintro l ls ⟨rest, buffer, backlog⟩ ⟨rfl, rfl⟩
    refine ⟨_, rfl, rfl, rfl, ?_⟩
    intro hasText
    simp [hasText]
  forget := fun lexed => ⟨lexed.1, lexed.2.1⟩
  text := by
    rintro l ls ⟨rest, buffer, backlog⟩ ⟨rfl, rfl, textEq⟩ hasText
    cases textEq hasText
    exact ⟨_, rfl, rfl, rfl⟩
  putback := by
    rintro l ls ⟨rest, buffer, backlog⟩ ⟨rfl, rfl, textEq⟩ notEof
    refine ⟨⟨rest, buffer, .tEOF⟩, ?_, rfl, rfl, textEq⟩
    simp [TokenSource.aklLex, TokenSource.aklLexPutback, TokStream.aklLex, notEof]

namespace CompState

variable {σ : Type}

/-- A state without its device, put on a device. -/
def withDev (s : CompState Unit) (dev : σ) : CompState σ :=
  ⟨dev, s.data, s.funs, s.errors⟩

/-- A state with other data. -/
def withData (s : CompState σ) (data : Data) : CompState σ := { s with data }

@[simp] theorem withDev_dev (s : CompState Unit) (dev : σ) : (s.withDev dev).dev = dev := rfl

@[simp] theorem withDev_data (s : CompState Unit) (dev : σ) :
    (s.withDev dev).data = s.data := rfl

@[simp] theorem withDev_funs (s : CompState Unit) (dev : σ) :
    (s.withDev dev).funs = s.funs := rfl

@[simp] theorem withData_data (s : CompState σ) (data : Data) :
    (s.withData data).data = data := rfl

@[simp] theorem withData_funs (s : CompState σ) (data : Data) :
    (s.withData data).funs = s.funs := rfl

variable [TokenSource σ] {D : Delivery σ} {l : Lexeme} {ls : List Lexeme} {dev : σ}

/-- `akl_lex` on a state whose device offers a token. -/
theorem aklLex_offers (offers : D.Offers (l :: ls) dev) (s : CompState Unit) :
    ∃ dev', (s.withDev dev).aklLex = .ok (l.tok, s.withDev dev') ∧ D.Lexed l ls dev' := by
  obtain ⟨dev', lexEq, lexed⟩ := offers.lex
  refine ⟨dev', ?_, lexed⟩
  simp only [CompState.aklLex, withDev_dev, lexEq]
  rfl

theorem takeText_lexed (lexed : D.Lexed l ls dev) (hasText : l.tok.hasText = true)
    (s : CompState Unit) :
    ∃ dev', (s.withDev dev).takeText = .ok (l.text, s.withDev dev') ∧ D.Ready ls dev' := by
  obtain ⟨dev', textEq, ready⟩ := D.text lexed hasText
  refine ⟨dev', ?_, ready⟩
  simp only [CompState.takeText, withDev_dev, textEq]
  rfl

theorem aklLexGetSymbol_lexed (lexed : D.Lexed l ls dev) (atom : l.tok = .tATOM)
    (s : CompState Unit) :
    ∃ dev', (s.withDev dev).aklLexGetSymbol =
        .ok (aklGetOrCreateSymbol l.text, s.withDev dev') ∧ D.Ready ls dev' := by
  obtain ⟨dev', textEq, ready⟩ := takeText_lexed lexed (by rw [atom]; rfl) s
  refine ⟨dev', ?_, ready⟩
  simp only [CompState.aklLexGetSymbol, textEq]
  rfl

end CompState

/-- The value a token stands for by itself, with its nil flag. -/
def Lexeme.leaf? [Libc] (l : Lexeme) : Option (Payload × Bool) :=
  match l.tok with
  | .tATOM => some (.symbol (aklGetOrCreateSymbol l.text), false)
  | .tNUMBER => some (.number (numberOfText l.text), false)
  | .tSTRING => some (.string l.text, false)
  | .tNIL => some (.nil, true)
  | .tTRUE => some (.true, false)
  | _ => none

/-- The value `akl_parse_token` makes of such a token. -/
def leafValue (leaf : Payload × Bool) (isQuoted : Bool) : AklValue :=
  ⟨leaf.1, isQuoted, leaf.2⟩

section

variable {σ : Type} [TokenSource σ] [Libc] {D : Delivery σ} {l : Lexeme} {ls : List Lexeme}
  {dev : σ}

/-- `akl_parse_token` on a token that stands for a value by itself. -/
theorem aklParseToken_leaf (lexed : D.Lexed l ls dev) {leaf : Payload × Bool}
    (leafEq : l.leaf? = some leaf)
    (inner : CompState σ → Except Fault (LRef × CompState σ)) (isQuoted : Bool)
    (s : CompState Unit) :
    ∃ dev', aklParseToken inner (s.withDev dev) l.tok isQuoted =
        .ok (some s.data.values.length,
          (s.withData (s.data.newValue (leafValue leaf isQuoted)).2).withDev dev') ∧
      D.Ready ls dev' := by
  unfold Lexeme.leaf? at leafEq
  split at leafEq
  · next tokEq =>
      cases leafEq
      obtain ⟨dev', textEq, ready⟩ := CompState.takeText_lexed lexed (by rw [tokEq]; rfl) s
      refine ⟨dev', ?_, ready⟩
      simp only [aklParseToken, tokEq, CompState.aklLexGetSymbol, textEq]
      rfl
  · next tokEq =>
      cases leafEq
      obtain ⟨dev', textEq, ready⟩ := CompState.takeText_lexed lexed (by rw [tokEq]; rfl) s
      refine ⟨dev', ?_, ready⟩
      simp only [aklParseToken, tokEq, textEq]
      rfl
  · next tokEq =>
      cases leafEq
      obtain ⟨dev', textEq, ready⟩ := CompState.takeText_lexed lexed (by rw [tokEq]; rfl) s
      refine ⟨dev', ?_, ready⟩
      simp only [aklParseToken, tokEq, textEq]
      rfl
  · next tokEq =>
      cases leafEq
      refine ⟨dev, ?_, D.forget lexed⟩
      simp only [aklParseToken, tokEq]
      rfl
  · next tokEq =>
      cases leafEq
      refine ⟨dev, ?_, D.forget lexed⟩
      simp only [aklParseToken, tokEq]
      rfl
  · cases leafEq

end

end AkLisp
