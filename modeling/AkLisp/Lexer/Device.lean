import AkLisp.Lexer.Token

/-!
# Devices

A device reads from a file or from a string in memory and owns the buffer for
the text of the last token.  A file is what is still to be read, pushed back
characters first, with its end-of-file indicator; `fgetc`, `ungetc` and `feof`
follow the C standard.  A string is its characters up to the terminating NUL;
reading behind that is a fault.
-/

namespace AkLisp

/-- `iod_source` together with `iod_type` and `iod_pos`. -/
inductive Source where
  | file (pending : List Chr) (eofSeen : Bool)
  | string (str : List Chr) (iodPos : Nat)
  deriving DecidableEq, Repr

/-- A character of a string or its terminating NUL. -/
def charAt (str : List Chr) (pos : Nat) : Except Fault Chr :=
  match (str ++ [0])[pos]? with
  | some ch => .ok ch
  | none => .error .outOfBounds

namespace Source

def getc : Source → Except Fault (Chr × Source)
  | .file [] _ => .ok (eof, .file [] true)
  | .file (ch :: pending) eofSeen => .ok (ch, .file pending eofSeen)
  | .string str pos => do
      let ch ← charAt str pos
      return (ch, .string str (pos + 1))

/-- `ungetc` ignores `EOF`, takes anything else as an `unsigned char` and clears
the end-of-file indicator.  In a string the position goes back by one, whatever
the character is. -/
def ungetc (ch : Chr) : Source → Except Fault (Chr × Source)
  | .file pending eofSeen =>
      if ch = eof then .ok (eof, .file pending eofSeen)
      else .ok (ch % 256, .file (ch % 256 :: pending) false)
  | .string _ 0 => .error .outOfBounds
  | .string str (pos + 1) => do
      let ch ← charAt str pos
      return (ch, .string str pos)

def eof? : Source → Except Fault Bool
  | .file _ eofSeen => .ok eofSeen
  | .string str pos => do
      let ch ← charAt str pos
      return decide (ch = 0)

/-- A bound on the number of characters that can be read. -/
def remaining : Source → Nat
  | .file pending _ => pending.length + 1
  | .string str pos => str.length + 1 - pos

end Source

/-- `struct akl_io_device`.  The buffer is the block it points to, its size is
`iod_buffer_size`.  `fresh` is not part of the source: it stands for what the
allocator leaves in the bytes of a block. -/
structure Dev where
  iodSource : Source
  iodBuffer : Option (List Chr)
  iodCharCount : UInt32
  iodLineCount : UInt32
  iodColumn : UInt32
  iodBacklog : Token
  fresh : Nat → Chr

/-- `akl_new_file_device` on an open file.  `iod_char_count` is not set, nor are
the column and the backlog. -/
def aklNewFileDevice (fresh : Nat → Chr) (content : List Chr) (charCount column : UInt32)
    (backlog : Token) : Dev :=
  ⟨.file content false, none, charCount, 1, column, backlog, fresh⟩

/-- `akl_new_string_device`.  The column and the backlog are not set. -/
def aklNewStringDevice (fresh : Nat → Chr) (str : List Chr) (column : UInt32)
    (backlog : Token) : Dev :=
  ⟨.string str 0, none, 0, 1, column, backlog, fresh⟩

/-- `DEF_BUFFER_SIZE` -/
def defBufferSize : Nat := 50

namespace Dev

/-- `init_lexer` -/
def initLexer (dev : Dev) : Dev :=
  { dev with
    iodBuffer := some ((List.range defBufferSize).map dev.fresh)
    iodBacklog := .tEOF }

/-- `akl_lex_free` -/
def aklLexFree (dev : Dev) : Dev := { dev with iodBuffer := none }

/-- `put_buffer`: the block grows by half its size when the character and the
NUL behind it do not fit. -/
def putBuffer (dev : Dev) (pos : Nat) (ch : Chr) : Except Fault Dev :=
  match dev.iodBuffer with
  | none => .error .nullDeref
  | some block =>
      let block :=
        if block.length ≤ pos + 1 then block ++ (List.range (block.length / 2)).map dev.fresh
        else block
      if pos + 1 < block.length then
        .ok { dev with iodBuffer := some ((block.set pos ch).set (pos + 1) 0) }
      else .error .bufferOverrun

/-- `strcpy` of a short string into the buffer. -/
def strcpy (dev : Dev) (text : List Chr) : Except Fault Dev :=
  match dev.iodBuffer with
  | none => .error .nullDeref
  | some block =>
      if text.length < block.length then
        .ok { dev with iodBuffer := some (text ++ 0 :: block.drop (text.length + 1)) }
      else .error .bufferOverrun

/-- The C string in the buffer. -/
def bufferText (dev : Dev) : List Chr := (dev.iodBuffer.getD []).takeWhile (· ≠ 0)

/-- `akl_io_getc` -/
def aklIoGetc (dev : Dev) : Except Fault (Chr × Dev) := do
  let (ch, iodSource) ← dev.iodSource.getc
  return (ch, { dev with iodSource, iodCharCount := dev.iodCharCount + 1 })

/-- `akl_io_ungetc` -/
def aklIoUngetc (ch : Chr) (dev : Dev) : Except Fault (Chr × Dev) := do
  let (ch, iodSource) ← dev.iodSource.ungetc ch
  return (ch, { dev with iodSource, iodCharCount := dev.iodCharCount - 1 })

/-- `akl_io_eof` -/
def aklIoEof (dev : Dev) : Except Fault Bool := dev.iodSource.eof?

end Dev

end AkLisp
