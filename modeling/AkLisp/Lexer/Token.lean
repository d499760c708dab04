import Mathlib.Data.Rat.Defs

/-!
# Tokens and token sources

The compiler and the reader pull tokens from a device through `akl_lex` and
fetch the text of the last token from its buffer.  `TokenSource` collects these
operations, so that both can run over the lexer or over a given list of tokens.
-/

namespace AkLisp

/-- What ends a computation of the model where the C code has no defined result
or does not return. -/
inductive Fault where
  /-- a `NULL` pointer is dereferenced -/
  | nullDeref
  /-- a character behind the terminating NUL is read -/
  | outOfBounds
  /-- a byte behind the token buffer is written -/
  | bufferOverrun
  /-- a loop of the source makes no progress any more -/
  | hang
  /-- an `assert` fails -/
  | assertion
  /-- the bound on the recursion given to the model is too small -/
  | outOfFuel
  deriving DecidableEq, Repr

/-- Characters are C integers: the value of a `char`, or `EOF`. -/
abbrev Chr := Int

/-- The value of an ASCII character. -/
def code (c : Char) : Chr := c.toNat

/-- `EOF`. -/
def eof : Chr := -1

/-- Conversion to `char`, which is signed. -/
def toChr (ch : Int) : Chr := (ch + 128) % 256 - 128

/-- `isdigit`. -/
def isdigit (ch : Chr) : Bool := decide (code '0' ≤ ch ∧ ch ≤ code '9')

def isupper (ch : Chr) : Bool := decide (code 'A' ≤ ch ∧ ch ≤ code 'Z')

def islower (ch : Chr) : Bool := decide (code 'a' ≤ ch ∧ ch ≤ code 'z')

/-- `isalpha` of the C locale. -/
def isalpha (ch : Chr) : Bool := isupper ch || islower ch

/-- `ispunct`: the printing characters other than blanks, letters and digits. -/
def ispunct (ch : Chr) : Bool :=
  decide (code ' ' < ch ∧ ch < 127) && !isalpha ch && !isdigit ch

/-- `tolower`. -/
def tolower (ch : Chr) : Chr := if isupper ch then ch + 32 else ch

theorem isdigit_iff {ch : Chr} : isdigit ch = true ↔ 48 ≤ ch ∧ ch ≤ 57 := decide_eq_true_iff

theorem isupper_iff {ch : Chr} : isupper ch = true ↔ 65 ≤ ch ∧ ch ≤ 90 := decide_eq_true_iff

theorem islower_iff {ch : Chr} : islower ch = true ↔ 97 ≤ ch ∧ ch ≤ 122 := decide_eq_true_iff

@[simp]
theorem tolower_tolower (ch : Chr) : tolower (tolower ch) = tolower ch := by
  simp only [tolower, isupper_iff]
  grind

/-- `akl_token_t`. -/
inductive Token where
  | tEOF
  | tNIL
  | tATOM
  | tNUMBER
  | tSTRING
  | tTRUE
  | tLBRACE
  | tRBRACE
  | tQUOTE
  deriving DecidableEq, Repr, Inhabited

/-- Whether the text of such a token is fetched from the buffer. -/
def Token.hasText : Token → Bool
  | .tATOM | .tNUMBER | .tSTRING => true
  | _ => false

/-- The functions of the C library that turn the text of a number token into a
number: `strtod` and `sscanf` with the format `%o`.  Numbers are the finite
doubles, taken as rationals. -/
class Libc where
  strtod : List Chr → ℚ
  scanOctal : List Chr → ℚ

/-- `akl_lex_get_number`: the second character is looked at before the C string
ends. -/
def numberOfText [Libc] (text : List Chr) : ℚ :=
  let tch := (text ++ [0]).getD 1 0
  if (text ++ [0]).getD 0 0 = code '0' ∧ tch ≠ code 'x' ∧ tch ≠ code '.' then
    Libc.scanOctal text
  else Libc.strtod text

/-- The operations on a device that compiler and reader use. -/
class TokenSource (σ : Type) where
  /-- `akl_lex` -/
  aklLex : σ → Except Fault (Token × σ)
  /-- `akl_lex_putback` -/
  aklLexPutback : σ → Token → σ
  /-- the common part of `akl_lex_get_string`, `akl_lex_get_symbol` and
  `akl_lex_get_number`: the C string in the buffer, which is then emptied -/
  takeText : σ → Except Fault (List Chr × σ)
  /-- `akl_lex_free` -/
  aklLexFree : σ → σ

/-- A token with its text. -/
structure Lexeme where
  tok : Token
  text : List Chr
  deriving DecidableEq, Repr

/-- A source that delivers a given list of tokens and then `tEOF` forever. -/
structure TokStream where
  rest : List Lexeme
  buffer : List Chr
  backlog : Token
  deriving DecidableEq, Repr

namespace TokStream

/-- The source at the start of `toks`. -/
def ofList (toks : List Lexeme) : TokStream := ⟨toks, [], .tEOF⟩

def aklLex (s : TokStream) : Token × TokStream :=
  if s.backlog ≠ .tEOF then (s.backlog, { s with backlog := .tEOF })
  else
    match s.rest with
    | [] => (.tEOF, s)
    | l :: rest =>
        (l.tok, { s with rest := rest, buffer := if l.tok.hasText then l.text else s.buffer })

end TokStream

instance : TokenSource TokStream where
  aklLex s := .ok s.aklLex
  aklLexPutback s tok := { s with backlog := tok }
  takeText s := .ok (s.buffer, { s with buffer := [] })
  aklLexFree s := { s with buffer := [] }

end AkLisp
