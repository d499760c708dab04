import AkLisp.State.Code

/-!
# The reader

`akl_parse_token` turns a token into a value, calling `akl_parse_list` behind
an opening parenthesis; `akl_parse_list` collects values until
`akl_parse_value` gives `NULL`.  The recursion is bounded by a number the caller
chooses; every round of the list loop takes at least one token.
-/

namespace AkLisp

/-- What compiler and reader work on: the device, the data, the functions that
exist, and the reports made so far. -/
structure CompState (σ : Type) where
  dev : σ
  data : Data
  funs : List AklFunction
  errors : List AklError

variable {σ : Type} [TokenSource σ] [Libc]

namespace CompState

/-- `akl_lex` on the device of the state. -/
def aklLex (st : CompState σ) : Except Fault (Token × CompState σ) := do
  let (tok, dev) ← TokenSource.aklLex st.dev
  return (tok, { st with dev })

/-- `akl_lex_putback` -/
def aklLexPutback (st : CompState σ) (tok : Token) : CompState σ :=
  { st with dev := TokenSource.aklLexPutback st.dev tok }

/-- Fetch the text of the last token. -/
def takeText (st : CompState σ) : Except Fault (List Chr × CompState σ) := do
  let (text, dev) ← TokenSource.takeText st.dev
  return (text, { st with dev })

/-- `akl_lex_get_symbol` -/
def aklLexGetSymbol (st : CompState σ) : Except Fault (Symbol × CompState σ) := do
  let (text, st) ← st.takeText
  return (aklGetOrCreateSymbol text, st)

/-- `akl_raise_error`; `errors` is the log of its calls, whether or not an equal error was
raised before. -/
def aklRaiseError (st : CompState σ) (level : Level) (message : String) : CompState σ :=
  { st with errors := st.errors ++ [⟨level, message⟩] }

/-- Allocate a value. -/
def newValue (st : CompState σ) (payload : Payload) (isQuoted isNil : Bool) :
    VRef × CompState σ :=
  let (v, data) := st.data.newValue ⟨payload, isQuoted, isNil⟩
  (v, { st with data })

end CompState

/-- `akl_parse_token`.  `NULL` for the end of input and for a closing
parenthesis; a quote behind a quote leaves `value` null and dereferences it. -/
def aklParseToken (aklParseList : CompState σ → Except Fault (LRef × CompState σ))
    (st : CompState σ) (tok : Token) (isQuoted : Bool) :
    Except Fault (Option VRef × CompState σ) := do
  match tok with
  | .tEOF => return (none, { st with dev := TokenSource.aklLexFree st.dev })
  | .tRBRACE => return (none, st)
  | .tATOM =>
      let (sym, st) ← st.aklLexGetSymbol
      let (value, st) := st.newValue (.symbol sym) isQuoted false
      return (some value, st)
  | .tNUMBER =>
      let (text, st) ← st.takeText
      let (value, st) := st.newValue (.number (numberOfText text)) isQuoted false
      return (some value, st)
  | .tSTRING =>
      let (text, st) ← st.takeText
      let (value, st) := st.newValue (.string text) isQuoted false
      return (some value, st)
  | .tLBRACE =>
      let (l, st) ← aklParseList st
      let (value, st) := st.newValue (.list l) isQuoted false
      return (some value, st)
  | .tNIL =>
      let (value, st) := st.newValue .nil isQuoted true
      return (some value, st)
  | .tTRUE =>
      let (value, st) := st.newValue .true isQuoted false
      return (some value, st)
  | .tQUOTE => throw .nullDeref

/-- `akl_parse_value` -/
def aklParseValue (aklParseList : CompState σ → Except Fault (LRef × CompState σ))
    (st : CompState σ) : Except Fault (Option VRef × CompState σ) := do
  let (tok, st) ← st.aklLex
  if tok = .tQUOTE then
    let (tok, st) ← st.aklLex
    aklParseToken aklParseList st tok true
  else
    aklParseToken aklParseList st tok false

/-- A value that is a list gets the list it is appended to as its parent. -/
def reparent (data : Data) (list : LRef) (value : VRef) : Data :=
  match data.payload value with
  | some (.list lval) => data.modifyList lval fun header => { header with liParent := some list }
  | _ => data

/-- The loop of `akl_parse_list`. -/
def parseListLoop : Nat → LRef → CompState σ → Except Fault (LRef × CompState σ)
  | 0, _, _ => throw .outOfFuel
  | fuel + 1, list, st => do
      let inner (st : CompState σ) : Except Fault (LRef × CompState σ) :=
        parseListLoop fuel st.data.newList.1 { st with data := st.data.newList.2 }
      let (value, st) ← aklParseValue inner st
      match value with
      | none =>
          let data := st.data.modifyList list fun header => { header with isQuoted := true }
          return (list, { st with data })
      | some value =>
          let data := (reparent st.data list value).listAppendValue list value
          parseListLoop fuel list { st with data }

/-- `akl_parse_list` -/
def aklParseList (fuel : Nat) (st : CompState σ) : Except Fault (LRef × CompState σ) :=
  parseListLoop fuel st.data.newList.1 { st with data := st.data.newList.2 }

end AkLisp
