import AkLisp.Lexer.Device

/-!
# The lexer

The scanning loops of the lexer, each with a bound on its rounds that is larger
than the number of characters left to read.  A loop that exceeds it reads the
end of a file over and over, which is a `hang`.
-/

namespace AkLisp

/-- `is_valid_in_number` -/
def isValidInNumber (ch : Chr) : Bool :=
  if isdigit ch then true
  else
    decide (tolower ch = code 'e' ∨ tolower ch = code '+' ∨ tolower ch = code '-' ∨
      tolower ch = code 'x' ∨ tolower ch = code '.' ∨ tolower ch = code 'a' ∨
      tolower ch = code 'b' ∨ tolower ch = code 'c' ∨ tolower ch = code 'd' ∨
      tolower ch = code 'f')

/-- The characters that end an atom in `copy_atom`. -/
def endsAtom (ch : Chr) : Bool :=
  decide (ch = code ' ' ∨ ch = code '(' ∨ ch = code ')' ∨ ch = code '\n')

/-- `strcasecmp` of the buffer with an upper-case word. -/
def strcasecmpEq (text word : List Chr) : Bool := decide (text.map tolower = word.map tolower)

/-- The branches of the loop of `akl_lex`. -/
inductive CharClass where
  | endOfFile
  | newline
  | sign
  | digit
  | delimiter
  | doubleQuote
  | opening
  | quote
  | semicolon
  | atom
  | other
  deriving DecidableEq, Repr

/-- The branch a character takes, in the order of the source. -/
def classOf (ch : Chr) : CharClass :=
  if ch = eof then .endOfFile
  else if ch = code '\n' then .newline
  else if ch = code '+' ∨ ch = code '-' then .sign
  else if isdigit ch then .digit
  else if ch = code ' ' ∨ ch = code '\n' ∨ ch = code ')' then .delimiter
  else if ch = code '"' then .doubleQuote
  else if ch = code '(' then .opening
  else if ch = code '\'' ∨ ch = code ':' then .quote
  else if ch = code ';' then .semicolon
  else if isalpha ch ∨ ispunct ch then .atom
  else .other

/-- What is known of a character that takes a branch. -/
def CharClass.Is (ch : Chr) : CharClass → Prop
  | .endOfFile => ch = eof
  | .newline => ch = code '\n'
  | .sign => ch = code '+' ∨ ch = code '-'
  | .digit => isdigit ch = true
  | .delimiter => ch = code ' ' ∨ ch = code ')'
  | .doubleQuote => ch = code '"'
  | .opening => ch = code '('
  | .quote => ch = code '\'' ∨ ch = code ':'
  | .semicolon => ch = code ';'
  | .atom => endsAtom ch = false
  | .other => True

theorem classOf_is (ch : Chr) : (classOf ch).Is ch := by
  fun_cases classOf ch with
  | case1 isEof => exact isEof
  | case2 notEof isNewline => exact isNewline
  | case3 notEof notNewline isSign => exact isSign
  | case4 notEof notNewline notSign digit => exact digit
  | case5 notEof notNewline notSign notDigit delimiter =>
      rcases delimiter with blank | newline | close
      · exact .inl blank
      · exact absurd newline notNewline
      · exact .inr close
  | case6 notEof notNewline notSign notDigit notDelimiter quote => exact quote
  | case7 => assumption
  | case8 => assumption
  | case9 => assumption
  | case10 notEof notNewline notSign notDigit notDelimiter notQuote notOpening =>
      simp only [not_or] at notDelimiter
      simp [CharClass.Is, endsAtom, notDelimiter, notOpening]
  | case11 => exact trivial

theorem CharClass.is_of_eq {ch : Chr} {c : CharClass} (kind : classOf ch = c) : c.Is ch :=
  kind ▸ classOf_is ch

namespace Dev

/-- The bound on the rounds of a loop. -/
def rounds (dev : Dev) : Nat := dev.iodSource.remaining + 1

/-- The loop of `copy_number`, `i` characters being in the buffer. -/
def copyNumberLoop : Nat → Nat → Dev → Except Fault (Nat × Dev)
  | 0, _, _ => throw .hang
  | fuel + 1, i, dev => do
      let (ch, dev) ← dev.aklIoGetc
      if ch = 0 then return (i, dev)
      if isValidInNumber (toChr ch) then
        let dev ← dev.putBuffer i (toChr ch)
        if ← dev.aklIoEof then return (i + 1, dev)
        copyNumberLoop fuel (i + 1) dev
      else
        let (_, dev) ← dev.aklIoUngetc ch
        return (i, dev)

/-- `copy_number` -/
def copyNumber (dev : Dev) (op : Chr) : Except Fault (Nat × Dev) := do
  if op ≠ 0 then
    let dev ← dev.putBuffer 0 op
    copyNumberLoop dev.rounds 1 dev
  else copyNumberLoop dev.rounds 0 dev

/-- The loop of `copy_string`. -/
def copyStringLoop : Nat → Nat → Dev → Except Fault (Nat × Dev)
  | 0, _, _ => throw .hang
  | fuel + 1, i, dev => do
      let (c, dev) ← dev.aklIoGetc
      let ch := toChr c
      if ch = 0 then return (i, dev)
      if ch = code '\\' then
        let (c, dev) ← dev.aklIoGetc
        let ch := toChr c
        if ch = code '"' then
          let dev ← dev.putBuffer i ch
          if ← dev.aklIoEof then return (i + 1, dev)
          copyStringLoop fuel (i + 1) dev
        else
          let dev ← dev.putBuffer i (code '\\')
          let dev ← dev.putBuffer (i + 1) ch
          if ← dev.aklIoEof then return (i + 2, dev)
          copyStringLoop fuel (i + 2) dev
      else if ch ≠ code '"' then
        let dev ← dev.putBuffer i ch
        if ← dev.aklIoEof then return (i + 1, dev)
        copyStringLoop fuel (i + 1) dev
      else return (i, dev)

/-- `copy_string` -/
def copyString (dev : Dev) : Except Fault (Nat × Dev) := copyStringLoop dev.rounds 0 dev

/-- The loop of `copy_atom`. -/
def copyAtomLoop : Nat → Nat → Dev → Except Fault (Nat × Dev)
  | 0, _, _ => throw .hang
  | fuel + 1, i, dev => do
      let (c, dev) ← dev.aklIoGetc
      let ch := toChr c
      if ch = 0 then return (i, dev)
      if endsAtom ch then
        let (_, dev) ← dev.aklIoUngetc ch
        return (i, dev)
      else
        let dev ← dev.putBuffer i (tolower ch)
        if ← dev.aklIoEof then return (i + 1, dev)
        copyAtomLoop fuel (i + 1) dev

/-- `copy_atom` -/
def copyAtom (dev : Dev) : Except Fault (Nat × Dev) := copyAtomLoop dev.rounds 0 dev

/-- The loop that skips a shebang line: the character it ends with. -/
def skipShebang : Nat → Dev → Except Fault (Chr × Dev)
  | 0, _ => throw .hang
  | fuel + 1, dev => do
      let (c, dev) ← dev.aklIoGetc
      let ch := toChr c
      if ch = 0 ∨ ch = code '\n' then return (ch, dev)
      skipShebang fuel dev

/-- The loop that skips a comment: whether the input ended. -/
def skipComment : Nat → Dev → Except Fault (Bool × Dev)
  | 0, _ => throw .hang
  | fuel + 1, dev => do
      let (c, dev) ← dev.aklIoGetc
      if toChr c = code '\n' then return (false, dev)
      if ← dev.aklIoEof then return (true, dev)
      skipComment fuel dev

/-- The character `op` or its double as the text of an atom. -/
def signAtom (dev : Dev) (op : Chr) (times : Nat) : Except Fault Dev :=
  dev.strcpy (List.replicate times (if op = code '+' then code '+' else code '-'))

/-- A digit: the number it starts. -/
def lexNumber (dev : Dev) (op ch : Chr) : Except Fault (Token × Dev) := do
  let (_, dev) ← dev.aklIoUngetc ch
  let (_, dev) ← dev.copyNumber op
  return (.tNUMBER, dev)

/-- A double quote: the empty string is `NIL`. -/
def lexString (dev : Dev) : Except Fault (Token × Dev) := do
  let (c, dev) ← dev.aklIoGetc
  if toChr c = code '"' then return (.tNIL, dev)
  let (_, dev) ← dev.aklIoUngetc (toChr c)
  let (_, dev) ← dev.copyString
  return (.tSTRING, dev)

/-- An opening parenthesis: the empty list is `NIL`. -/
def lexOpen (dev : Dev) : Except Fault (Token × Dev) := do
  let dev := { dev with iodColumn := dev.iodCharCount + 1 }
  let (c, dev) ← dev.aklIoGetc
  if toChr c = code ')' then return (.tNIL, dev)
  let (_, dev) ← dev.aklIoUngetc (toChr c)
  return (.tLBRACE, dev)

/-- The start of an atom: a pending sign is pushed back, too. -/
def lexAtom (dev : Dev) (op ch : Chr) : Except Fault (Token × Dev) := do
  let (_, dev) ←
    if op = code '+' ∨ op = code '-' then dev.aklIoUngetc op else .ok (0, dev)
  let (_, dev) ← dev.aklIoUngetc ch
  let (_, dev) ← dev.copyAtom
  if strcasecmpEq dev.bufferText ("NIL".toList.map code) then return (.tNIL, dev)
  else if strcasecmpEq dev.bufferText ("T".toList.map code) then return (.tTRUE, dev)
  else return (.tATOM, dev)

/-- The loop of `akl_lex` with the pending sign `op`. -/
def lexLoop : Nat → Chr → Dev → Except Fault (Token × Dev)
  | 0, _, _ => throw .hang
  | fuel + 1, op, dev => do
      let (c, dev) ← dev.aklIoGetc
      if toChr c = 0 then return (.tEOF, dev)
      let (ch, dev) ←
        if dev.iodCharCount = 1 ∧ toChr c = code '#' then skipShebang dev.rounds dev
        else .ok (toChr c, dev)
      match classOf ch with
      | .endOfFile => return (.tEOF, dev)
      | .newline =>
          lexLoop fuel op { dev with iodLineCount := dev.iodLineCount + 1, iodCharCount := 0 }
      | .sign =>
          if op ≠ 0 then
            let dev ← dev.signAtom op 2
            return (.tATOM, dev)
          else lexLoop fuel ch dev
      | .digit => dev.lexNumber op ch
      | .delimiter =>
          let dev := { dev with iodColumn := dev.iodCharCount + 1 }
          if op ≠ 0 then
            let dev ← dev.signAtom op 1
            if ch = code ')' then
              let (_, dev) ← dev.aklIoUngetc ch
              return (.tATOM, dev)
            else return (.tATOM, dev)
          else if ch = code ')' then return (.tRBRACE, dev)
          else lexLoop fuel op dev
      | .doubleQuote => dev.lexString
      | .opening => dev.lexOpen
      | .quote => return (.tQUOTE, dev)
      | .semicolon =>
          let (ended, dev) ← skipComment dev.rounds dev
          if ended then return (.tEOF, dev) else lexLoop fuel op dev
      | .atom => dev.lexAtom op ch
      | .other => lexLoop fuel op dev

/-- The device, initialised if it has no buffer. -/
def started (dev : Dev) : Dev := if dev.iodBuffer.isNone then dev.initLexer else dev

/-- `akl_lex` -/
def aklLex (dev : Dev) : Except Fault (Token × Dev) :=
  let dev := dev.started
  if dev.iodBacklog ≠ .tEOF then .ok (dev.iodBacklog, { dev with iodBacklog := .tEOF })
  else lexLoop dev.rounds 0 dev

/-- The common part of `akl_lex_get_string`, `akl_lex_get_symbol` and
`akl_lex_get_number`. -/
def takeText (dev : Dev) : Except Fault (List Chr × Dev) :=
  match dev.iodBuffer with
  | none => .error .nullDeref
  | some block =>
      if 0 ∈ block then .ok (dev.bufferText, { dev with iodBuffer := some (block.set 0 0) })
      else .error .bufferOverrun

end Dev

instance : TokenSource Dev where
  aklLex := Dev.aklLex
  aklLexPutback dev tok := { dev with iodBacklog := tok }
  takeText := Dev.takeText
  aklLexFree := Dev.aklLexFree

end AkLisp
