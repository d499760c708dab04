import AkLisp.Lexer.Buffer
import AkLisp.Lexer.Reading
import AkLisp.Outcome.Logged
import Mathlib.Logic.Relation
import Mathlib.Algebra.Group.Nat.Defs

/-!
# The writes to the token buffer

The functions of the lexer that write to the buffer, once more, with a log of
their writes.  Each call of `put_buffer` and of `strcpy` is an entry: the place of
its first character, the characters in front of the NUL it writes, and the device
it leaves.  The loops here repeat those of the lexer line by line, and without the log
each call is the one of the lexer (`SafeCall.logged`).
-/

namespace AkLisp

open Outcome

/-- A write to the buffer. -/
structure Store where
  place : Nat
  chars : List Chr
  after : Dev

namespace Dev

/-- `iod_buffer_size`; `akl_lex_free` sets it to zero. -/
def bufferSize (dev : Dev) : Nat := (dev.iodBuffer.getD []).length

namespace Log

/-- A computation of the lexer with its writes. -/
abbrev Writes := Logged Fault Store

/-- `put_buffer` -/
def putBuffer (dev : Dev) (pos : Nat) (ch : Chr) : Writes Dev :=
  .noting (dev.putBuffer pos ch) (⟨pos, [ch], ·⟩)

/-- `strcpy` into the buffer. -/
def strcpy (dev : Dev) (text : List Chr) : Writes Dev :=
  .noting (dev.strcpy text) (⟨0, text, ·⟩)

/-- The loop of `copy_number`. -/
def copyNumberLoop : Nat → Nat → Dev → Writes (Nat × Dev)
  | 0, _, _ => .quiet (throw .hang)
  | fuel + 1, i, dev => do
      let (ch, dev) ← dev.aklIoGetc
      if ch = 0 then return (i, dev)
      if isValidInNumber (toChr ch) then
        let dev ← putBuffer dev i (toChr ch)
        if ← dev.aklIoEof then return (i + 1, dev)
        copyNumberLoop fuel (i + 1) dev
      else
        let (_, dev) ← dev.aklIoUngetc ch
        return (i, dev)

/-- `copy_number` -/
def copyNumber (dev : Dev) (op : Chr) : Writes (Nat × Dev) := do
  if op ≠ 0 then
    let dev ← putBuffer dev 0 op
    copyNumberLoop dev.rounds 1 dev
  else copyNumberLoop dev.rounds 0 dev

/-- The loop of `copy_string`. -/
def copyStringLoop : Nat → Nat → Dev → Writes (Nat × Dev)
  | 0, _, _ => .quiet (throw .hang)
  | fuel + 1, i, dev => do
      let (c, dev) ← dev.aklIoGetc
      let ch := toChr c
      if ch = 0 then return (i, dev)
      if ch = code '\\' then
        let (c, dev) ← dev.aklIoGetc
        let ch := toChr c
        if ch = code '"' then
          let dev ← putBuffer dev i ch
          if ← dev.aklIoEof then return (i + 1, dev)
          copyStringLoop fuel (i + 1) dev
        else
          let dev ← putBuffer dev i (code '\\')
          let dev ← putBuffer dev (i + 1) ch
          if ← dev.aklIoEof then return (i + 2, dev)
          copyStringLoop fuel (i + 2) dev
      else if ch ≠ code '"' then
        let dev ← putBuffer dev i ch
        if ← dev.aklIoEof then return (i + 1, dev)
        copyStringLoop fuel (i + 1) dev
      else return (i, dev)

/-- `copy_string` -/
def copyString (dev : Dev) : Writes (Nat × Dev) := copyStringLoop dev.rounds 0 dev

/-- The loop of `copy_atom`. -/
def copyAtomLoop : Nat → Nat → Dev → Writes (Nat × Dev)
  | 0, _, _ => .quiet (throw .hang)
  | fuel + 1, i, dev => do
      let (c, dev) ← dev.aklIoGetc
      let ch := toChr c
      if ch = 0 then return (i, dev)
      if endsAtom ch then
        let (_, dev) ← dev.aklIoUngetc ch
        return (i, dev)
      else
        let dev ← putBuffer dev i (tolower ch)
        if ← dev.aklIoEof then return (i + 1, dev)
        copyAtomLoop fuel (i + 1) dev

/-- `copy_atom` -/
def copyAtom (dev : Dev) : Writes (Nat × Dev) := copyAtomLoop dev.rounds 0 dev

/-- The character `op` or its double as the text of an atom. -/
def signAtom (dev : Dev) (op : Chr) (times : Nat) : Writes Dev :=
  strcpy dev (List.replicate times (if op = code '+' then code '+' else code '-'))

/-- A digit. -/
def lexNumber (dev : Dev) (op ch : Chr) : Writes (Token × Dev) := do
  let (_, dev) ← dev.aklIoUngetc ch
  let (_, dev) ← copyNumber dev op
  return (.tNUMBER, dev)

/-- A double quote. -/
def lexString (dev : Dev) : Writes (Token × Dev) := do
  let (c, dev) ← dev.aklIoGetc
  if toChr c = code '"' then return (.tNIL, dev)
  let (_, dev) ← dev.aklIoUngetc (toChr c)
  let (_, dev) ← copyString dev
  return (.tSTRING, dev)

/-- The start of an atom. -/
def lexAtom (dev : Dev) (op ch : Chr) : Writes (Token × Dev) := do
  let (_, dev) ←
    if op = code '+' ∨ op = code '-' then dev.aklIoUngetc op else pure (0, dev)
  let (_, dev) ← dev.aklIoUngetc ch
  let (_, dev) ← copyAtom dev
  if strcasecmpEq dev.bufferText ("NIL".toList.map code) then return (.tNIL, dev)
  else if strcasecmpEq dev.bufferText ("T".toList.map code) then return (.tTRUE, dev)
  else return (.tATOM, dev)

/-- The loop of `akl_lex`. -/
def lexLoop : Nat → Chr → Dev → Writes (Token × Dev)
  | 0, _, _ => .quiet (throw .hang)
  | fuel + 1, op, dev => do
      let (c, dev) ← dev.aklIoGetc
      if toChr c = 0 then return (.tEOF, dev)
      let (ch, dev) ←
        if dev.iodCharCount = 1 ∧ toChr c = code '#' then skipShebang dev.rounds dev
        else pure (toChr c, dev)
      match classOf ch with
      | .endOfFile => return (.tEOF, dev)
      | .newline =>
          lexLoop fuel op { dev with iodLineCount := dev.iodLineCount + 1, iodCharCount := 0 }
      | .sign =>
          if op ≠ 0 then
            let dev ← signAtom dev op 2
            return (.tATOM, dev)
          else lexLoop fuel ch dev
      | .digit => lexNumber dev op ch
      | .delimiter =>
          let dev := { dev with iodColumn := dev.iodCharCount + 1 }
          if op ≠ 0 then
            let dev ← signAtom dev op 1
            if ch = code ')' then
              let (_, dev) ← dev.aklIoUngetc ch
              return (.tATOM, dev)
            else return (.tATOM, dev)
          else if ch = code ')' then return (.tRBRACE, dev)
          else lexLoop fuel op dev
      | .doubleQuote => lexString dev
      | .opening => dev.lexOpen
      | .quote => return (.tQUOTE, dev)
      | .semicolon =>
          let (ended, dev) ← skipComment dev.rounds dev
          if ended then return (.tEOF, dev) else lexLoop fuel op dev
      | .atom => lexAtom dev op ch
      | .other => lexLoop fuel op dev

/-- `akl_lex` -/
def aklLex (dev : Dev) : Writes (Token × Dev) :=
  let dev := dev.started
  if dev.iodBacklog ≠ .tEOF then pure (dev.iodBacklog, { dev with iodBacklog := .tEOF })
  else lexLoop dev.rounds 0 dev

end Log

/-- A write puts its characters behind the text that has been stored, and a NUL
behind them; the buffer does not shrink.  The stored text and the buffer are the
state. -/
structure Stores (t : List Chr × List Chr) (s : Store) (t' : List Chr × List Chr) : Prop where
  place : s.place = t.1.length
  text : t'.1 = t.1 ++ s.chars
  buffer : s.after.iodBuffer = some t'.2
  ends : ∃ tail, t'.2 = t'.1 ++ 0 :: tail
  grows : t.2.length ≤ t'.2.length
  fits : s.place + 1 < 2 ^ 31 → t.2.length < 2 ^ 32 → t'.2.length < 2 ^ 32

/-- The buffer has the state. -/
structure Holding (t : List Chr × List Chr) (dev : Dev) : Prop where
  buffer : dev.iodBuffer = some t.2
  filled : Filled t.2 t.1

/-- A computation that leaves the buffer as it is. -/
abbrev Leaves (dev : Dev) {α : Type} (x : Except Fault (α × Dev)) : Prop :=
  Avoids .bufferOverrun (fun p => p.2.iodBuffer = dev.iodBuffer) x

/-- The computation with a log mirrors the other one and leaves a buffer with the
state its log leads to. -/
abbrev Recorded (t : List Chr × List Chr) {α : Type} (x : Log.Writes (α × Dev))
    (y : Except Fault (α × Dev)) : Prop :=
  Mirrors .bufferOverrun Stores t (fun p t' => p.2.Holding t') x y

variable {dev dev' : Dev} {t : List Chr × List Chr} {block : List Chr}

theorem Holding.congr (holding : dev.Holding t) (kept : dev'.iodBuffer = dev.iodBuffer) :
    dev'.Holding t :=
  ⟨kept.trans holding.buffer, holding.filled⟩

theorem Holding.size (holding : dev.Holding t) : dev.bufferSize = t.2.length := by
  rw [bufferSize, holding.buffer, Option.getD_some]

/-- A computation that leaves the buffer alone logs nothing. -/
theorem Leaves.recorded {α : Type} {y : Except Fault (α × Dev)} (leaves : Leaves dev y)
    (holding : dev.Holding t) :
    Mirrors .bufferOverrun Stores t (fun p t' => t' = t ∧ p.2.Holding t)
      (liftM y : Log.Writes (α × Dev)) y :=
  .lift (leaves.mono fun _ kept => holding.congr kept)

theorem charAt_ne (str : List Chr) (pos : Nat) : charAt str pos ≠ .error .bufferOverrun := by
  rcases Source.charAt_cases str pos with ⟨ch, charEq⟩ | charEq
  · simp [charEq]
  · simp [charEq]

theorem leaves_getc (dev : Dev) : Leaves dev dev.aklIoGetc := by
  unfold aklIoGetc
  cases dev.iodSource with
  | file pending eofSeen =>
      cases pending with
      | nil => exact rfl
      | cons ch pending => exact rfl
  | string str pos =>
      refine Avoids.bind (P := fun _ => True) ?_ fun _ _ => rfl
      refine (Avoids.of_ne (charAt_ne str pos)).bind fun _ _ => trivial

theorem leaves_ungetc (dev : Dev) (ch : Chr) : Leaves dev (dev.aklIoUngetc ch) := by
  unfold aklIoUngetc
  refine Avoids.bind (P := fun _ => True) ?_ fun _ _ => rfl
  cases dev.iodSource with
  | file pending eofSeen =>
      by_cases isEof : ch = eof
      · simp only [Source.ungetc, if_pos isEof]
        trivial
      · simp only [Source.ungetc, if_neg isEof]
        trivial
  | string str pos =>
      cases pos with
      | zero => exact Fault.noConfusion
      | succ pos => exact (Avoids.of_ne (charAt_ne str pos)).bind fun _ _ => trivial

theorem avoids_eof_overrun (dev : Dev) :
    Avoids .bufferOverrun (fun _ => True) dev.aklIoEof := by
  unfold aklIoEof
  cases dev.iodSource with
  | file pending eofSeen => trivial
  | string str pos => exact (Avoids.of_ne (charAt_ne str pos)).bind fun _ _ => trivial

theorem leaves_skipShebang (dev : Dev) (fuel : Nat) : Leaves dev (Dev.skipShebang fuel dev) := by
  induction fuel generalizing dev with
  | zero => exact Fault.noConfusion
  | succ fuel ih =>
      refine dev.leaves_getc.bind fun (c, dev₁) kept => ?_
      dsimp only
      split
      · exact kept
      · exact (ih dev₁).mono fun _ kept₁ => kept₁.trans kept

theorem leaves_skipComment (dev : Dev) (fuel : Nat) : Leaves dev (Dev.skipComment fuel dev) := by
  induction fuel generalizing dev with
  | zero => exact Fault.noConfusion
  | succ fuel ih =>
      refine dev.leaves_getc.bind fun (c, dev₁) kept => ?_
      dsimp only
      split
      · exact kept
      · refine dev₁.avoids_eof_overrun.bind fun ended _ => ?_
        cases ended with
        | true => exact kept
        | false => exact (ih dev₁).mono fun _ kept₁ => kept₁.trans kept

theorem leaves_lexOpen (dev : Dev) : Leaves dev dev.lexOpen := by
  refine (leaves_getc { dev with iodColumn := dev.iodCharCount + 1 }).bind fun (c, dev₁) kept => ?_
  dsimp only
  split
  · exact kept
  · exact (dev₁.leaves_ungetc _).bind fun (_, dev₂) kept₂ => kept₂.trans kept

/-- What `put_buffer` does to the size of the buffer. -/
theorem putBuffer_size {pos : Nat} {ch : Chr} (putEq : dev.putBuffer pos ch = .ok dev') :
    dev'.bufferSize =
      if dev.bufferSize ≤ pos + 1 then dev.bufferSize + dev.bufferSize / 2 else dev.bufferSize := by
  unfold Dev.putBuffer at putEq
  cases buffer : dev.iodBuffer with
  | none =>
      rw [buffer] at putEq
      cases putEq
  | some block =>
      simp only [buffer] at putEq
      generalize grownEq : (if block.length ≤ pos + 1 then _ else block) = grown at putEq
      by_cases inside : pos + 1 < grown.length
      · rw [if_pos inside] at putEq
        cases putEq
        simp only [bufferSize, buffer, Option.getD_some, List.length_set, ← grownEq]
        split
        · simp
        · rfl
      · rw [if_neg inside] at putEq
        cases putEq

/-- Behind the stored text `put_buffer` stores one character more. -/
theorem Holding.putBuffer (holding : dev.Holding t) {i : Nat} (placed : i = t.1.length) (ch : Chr) :
    Mirrors .bufferOverrun Stores t (fun dev' t' => dev'.Holding t' ∧ i + 1 = t'.1.length)
      (Log.putBuffer dev i ch) (dev.putBuffer i ch) := by
  subst placed
  obtain ⟨block', putEq, filled'⟩ := putBuffer_filled holding.buffer holding.filled ch
  have sizeEq := putBuffer_size putEq
  rw [holding.size, bufferSize, Option.getD_some] at sizeEq
  have ends : ∃ tail, block' = t.1 ++ [ch] ++ 0 :: tail := by
    obtain ⟨-, tail, blockEq, nonempty, terminated⟩ := filled'
    obtain ⟨first, others, rfl⟩ := List.exists_cons_of_ne_nil nonempty
    have headEq := terminated (by simp)
    exact ⟨others, by rw [blockEq, Option.some.inj headEq]⟩
  refine .noting (P := fun dev' => dev' = { dev with iodBuffer := some block' }) ?_ ?_
  · rw [putEq]
    exact rfl
  · rintro dev' rfl
    refine ⟨(t.1 ++ [ch], block'), ⟨rfl, rfl, rfl, ends, ?_, ?_⟩, ⟨rfl, filled'⟩, by simp⟩
    · dsimp only
      rw [sizeEq]
      split
      · exact Nat.le_add_right _ _
      · exact Nat.le_refl _
    · intro short small
      dsimp only at short ⊢
      rw [sizeEq]
      split
      · omega
      · exact small

/-- `strcpy` of a short text where nothing has been stored. -/
theorem Holding.strcpy (holding : dev.Holding ([], block)) {text : List Chr}
    (short : text.length ≤ 2) :
    Mirrors .bufferOverrun Stores ([], block) (fun dev' t' => dev'.Holding t')
      (Log.strcpy dev text) (dev.strcpy text) := by
  have large : defBufferSize ≤ block.length := holding.filled.1
  have room : text.length < block.length := by
    unfold defBufferSize at large
    omega
  let block' := text ++ 0 :: block.drop (text.length + 1)
  have size' : block'.length = block.length := by
    simp only [block', List.length_append, List.length_cons, List.length_drop]
    omega
  refine .noting (P := fun dev' => dev' = { dev with iodBuffer := some block' }) ?_ ?_
  · simp only [Dev.strcpy, holding.buffer]
    rw [if_pos room]
    exact rfl
  · rintro dev' rfl
    refine ⟨(text, block'), ⟨rfl, rfl, rfl, ⟨_, rfl⟩, Nat.le_of_eq size'.symm, ?_⟩, rfl,
      size'.symm ▸ large, 0 :: block.drop (text.length + 1), rfl, by simp, fun _ => rfl⟩
    intro _ small
    dsimp only
    rw [size']
    exact small

theorem Holding.signAtom (holding : dev.Holding ([], block)) (op : Chr) {times : Nat}
    (few : times ≤ 2) :
    Mirrors .bufferOverrun Stores ([], block) (fun dev' t' => dev'.Holding t')
      (Log.signAtom dev op times) (dev.signAtom op times) :=
  holding.strcpy (by rwa [List.length_replicate])

/-- A character has been stored, and the loop goes on unless the input has ended. -/
theorem Holding.goOn (holding : dev.Holding t) (n : Nat) {x : Log.Writes (Nat × Dev)}
    {y : Except Fault (Nat × Dev)} (loop : Recorded t x y) :
    Recorded t (do if ← dev.aklIoEof then return (n, dev) else x)
      (do if ← dev.aklIoEof then return (n, dev) else y) := by
  refine (Mirrors.lift dev.avoids_eof_overrun).bind fun ended t' found => ?_
  obtain rfl := found.1
  cases ended with
  | true => exact .pure holding
  | false => exact loop

theorem Holding.copyNumberLoop (holding : dev.Holding t) (fuel : Nat) {i : Nat}
    (placed : i = t.1.length) :
    Recorded t (Log.copyNumberLoop fuel i dev) (Dev.copyNumberLoop fuel i dev) := by
  induction fuel generalizing i dev t with
  | zero => exact .fail Fault.noConfusion
  | succ fuel ih =>
      refine (dev.leaves_getc.recorded holding).bind fun (ch, dev) t' found => ?_
      obtain ⟨rfl, holding⟩ := found
      refine .ite (fun _ => .pure holding) fun _ => .ite (fun _ => ?_) fun _ => ?_
      · refine (holding.putBuffer placed _).bind fun dev t' stored => ?_
        exact stored.1.goOn _ (ih stored.1 stored.2)
      · refine ((dev.leaves_ungetc ch).recorded holding).bind fun (_, dev) t' found => ?_
        obtain ⟨rfl, holding⟩ := found
        exact .pure holding

theorem Holding.copyNumber (holding : dev.Holding ([], block)) (op : Chr) :
    Recorded ([], block) (Log.copyNumber dev op) (dev.copyNumber op) := by
  refine .ite (fun _ => ?_) fun _ => holding.copyNumberLoop _ rfl
  exact (holding.putBuffer rfl op).bind fun dev t' stored => stored.1.copyNumberLoop _ stored.2

theorem Holding.copyStringLoop (holding : dev.Holding t) (fuel : Nat) {i : Nat}
    (placed : i = t.1.length) :
    Recorded t (Log.copyStringLoop fuel i dev) (Dev.copyStringLoop fuel i dev) := by
  induction fuel generalizing i dev t with
  | zero => exact .fail Fault.noConfusion
  | succ fuel ih =>
      refine (dev.leaves_getc.recorded holding).bind fun (c, dev) t' found => ?_
      obtain ⟨rfl, holding⟩ := found
      refine .ite (fun _ => .pure holding) fun _ => .ite (fun _ => ?_) fun _ => ?_
      · refine (dev.leaves_getc.recorded holding).bind fun (c, dev) t' found => ?_
        obtain ⟨rfl, holding⟩ := found
        refine .ite (fun _ => ?_) fun _ => ?_
        · refine (holding.putBuffer placed _).bind fun dev t' stored => ?_
          exact stored.1.goOn _ (ih stored.1 stored.2)
        · refine (holding.putBuffer placed _).bind fun dev t' stored => ?_
          refine (stored.1.putBuffer stored.2 _).bind fun dev t' stored => ?_
          exact stored.1.goOn _ (ih stored.1 stored.2)
      · refine .ite (fun _ => ?_) fun _ => .pure holding
        refine (holding.putBuffer placed _).bind fun dev t' stored => ?_
        exact stored.1.goOn _ (ih stored.1 stored.2)

theorem Holding.copyAtomLoop (holding : dev.Holding t) (fuel : Nat) {i : Nat}
    (placed : i = t.1.length) :
    Recorded t (Log.copyAtomLoop fuel i dev) (Dev.copyAtomLoop fuel i dev) := by
  induction fuel generalizing i dev t with
  | zero => exact .fail Fault.noConfusion
  | succ fuel ih =>
      refine (dev.leaves_getc.recorded holding).bind fun (c, dev) t' found => ?_
      obtain ⟨rfl, holding⟩ := found
      refine .ite (fun _ => .pure holding) fun _ => .ite (fun _ => ?_) fun _ => ?_
      · refine ((dev.leaves_ungetc _).recorded holding).bind fun (_, dev) t' found => ?_
        obtain ⟨rfl, holding⟩ := found
        exact .pure holding
      · refine (holding.putBuffer placed _).bind fun dev t' stored => ?_
        exact stored.1.goOn _ (ih stored.1 stored.2)

theorem Holding.lexNumber (holding : dev.Holding ([], block)) (op ch : Chr) :
    Recorded ([], block) (Log.lexNumber dev op ch) (dev.lexNumber op ch) := by
  refine ((dev.leaves_ungetc ch).recorded holding).bind fun (_, dev) t' found => ?_
  obtain ⟨rfl, holding⟩ := found
  exact (holding.copyNumber op).bind fun (_, dev) t' holding => .pure holding

theorem Holding.lexString (holding : dev.Holding ([], block)) :
    Recorded ([], block) (Log.lexString dev) dev.lexString := by
  refine (dev.leaves_getc.recorded holding).bind fun (c, dev) t' found => ?_
  obtain ⟨rfl, holding⟩ := found
  refine .ite (fun _ => .pure holding) fun _ => ?_
  refine ((dev.leaves_ungetc _).recorded holding).bind fun (_, dev) t' found => ?_
  obtain ⟨rfl, holding⟩ := found
  exact (holding.copyStringLoop _ rfl).bind fun (_, dev) t' holding => .pure holding

theorem Holding.lexAtom (holding : dev.Holding ([], block)) (op ch : Chr) :
    Recorded ([], block) (Log.lexAtom dev op ch) (dev.lexAtom op ch) := by
  refine .bindIte ((dev.leaves_ungetc op).recorded holding) (.pure ⟨rfl, holding⟩)
    fun (_, dev) t' found => ?_
  obtain ⟨rfl, holding⟩ := found
  refine ((dev.leaves_ungetc ch).recorded holding).bind fun (_, dev) t' found => ?_
  obtain ⟨rfl, holding⟩ := found
  refine (holding.copyAtomLoop _ rfl).bind fun (_, dev) t' holding => ?_
  exact .ite (fun _ => .pure holding) fun _ =>
    .ite (fun _ => .pure holding) fun _ => .pure holding

/-- The loop of `akl_lex` before it has stored anything. -/
theorem Holding.lexLoop (holding : dev.Holding ([], block)) (fuel : Nat) (op : Chr) :
    Recorded ([], block) (Log.lexLoop fuel op dev) (Dev.lexLoop fuel op dev) := by
  induction fuel generalizing op dev with
  | zero => exact .fail Fault.noConfusion
  | succ fuel ih =>
      refine (dev.leaves_getc.recorded holding).bind fun (c, dev) t' found => ?_
      obtain ⟨rfl, holding⟩ := found
      refine .ite (fun _ => .pure holding) fun _ => ?_
      refine .bindIte ((dev.leaves_skipShebang _).recorded holding) (.pure ⟨rfl, holding⟩)
        fun (ch, dev) t' found => ?_
      obtain ⟨rfl, holding⟩ := found
      dsimp only
      cases classOf ch with
      | endOfFile => exact .pure holding
      | newline =>
          have moved : Holding ([], block)
              { dev with iodLineCount := dev.iodLineCount + 1, iodCharCount := 0 } :=
            holding.congr rfl
          exact ih moved op
      | sign =>
          refine .ite (fun _ => ?_) fun _ => ih holding ch
          exact (holding.signAtom op (Nat.le_refl 2)).bind fun dev t' holding => .pure holding
      | digit => exact holding.lexNumber op ch
      | delimiter =>
          have moved : Holding ([], block) { dev with iodColumn := dev.iodCharCount + 1 } :=
            holding.congr rfl
          refine .ite (fun _ => ?_) fun _ => .ite (fun _ => .pure moved) fun _ => ih moved op
          refine (moved.signAtom op (show 1 ≤ 2 by omega)).bind fun dev t' holding => ?_
          refine .ite (fun _ => ?_) fun _ => .pure holding
          refine ((dev.leaves_ungetc ch).recorded holding).bind fun (_, dev) t' found => ?_
          obtain ⟨rfl, holding⟩ := found
          exact .pure holding
      | doubleQuote => exact holding.lexString
      | opening =>
          refine (dev.leaves_lexOpen.recorded holding).mono fun _ t' found => ?_
          obtain ⟨rfl, holding⟩ := found
          exact holding
      | quote => exact .pure holding
      | semicolon =>
          refine ((dev.leaves_skipComment _).recorded holding).bind fun (ended, dev) t' found => ?_
          obtain ⟨rfl, holding⟩ := found
          exact .ite (fun _ => .pure holding) fun _ => ih holding op
      | atom => exact holding.lexAtom op ch
      | other => exact ih holding op

/-- The calls on a device that leave it its buffer. -/
inductive LexCall : Dev → Dev → Prop where
  | lex {dev dev' : Dev} {tok : Token} (lexEq : dev.aklLex = .ok (tok, dev')) : LexCall dev dev'
  | putback {dev : Dev} (tok : Token) : LexCall dev { dev with iodBacklog := tok }
  | text {dev dev' : Dev} {text : List Chr} (takeEq : dev.takeText = .ok (text, dev')) :
      LexCall dev dev'

/-- A device on a file or a string after some calls, between which the buffer may
have been freed. -/
inductive Reached : Dev → Prop where
  | file (fresh : Nat → Chr) (content : List Chr) (charCount column : UInt32) (backlog : Token) :
      Reached (aklNewFileDevice fresh content charCount column backlog)
  | string (fresh : Nat → Chr) (str : List Chr) (column : UInt32) (backlog : Token) :
      Reached (aklNewStringDevice fresh str column backlog)
  | call {dev dev' : Dev} (before : Reached dev) (call : LexCall dev dev') : Reached dev'
  | free {dev : Dev} (before : Reached dev) : Reached dev.aklLexFree

/-- A buffer is never smaller than it is at first. -/
def Sized (dev : Dev) : Prop :=
  ∀ block, dev.iodBuffer = some block → defBufferSize ≤ block.length

theorem Sized.started {dev : Dev} (sized : dev.Sized) :
    ∃ block, dev.started.Holding ([], block) := by
  unfold Dev.started
  cases buffer : dev.iodBuffer with
  | none => exact ⟨_, rfl, .nil (by simp [defBufferSize])⟩
  | some block => exact ⟨block, buffer, .nil (sized block buffer)⟩

/-- A call of `akl_lex` with its log. -/
theorem Sized.aklLex {dev : Dev} (sized : dev.Sized) :
    ∃ block, dev.started.Holding ([], block) ∧
      Recorded ([], block) (Log.aklLex dev) dev.aklLex := by
  obtain ⟨block, holding⟩ := sized.started
  refine ⟨block, holding, ?_⟩
  unfold Log.aklLex Dev.aklLex
  exact .ite (fun _ => .pure (holding.congr rfl)) fun _ => holding.lexLoop _ 0

/-- The characters that some writes have stored. -/
def storedText (log : List Store) : List Chr := log.flatMap Store.chars

variable {log : List Store} {t' : List Chr × List Chr}

theorem leads_text (leads : Leads Stores t log t') : t'.1 = t.1 ++ storedText log := by
  induction leads with
  | nil => simp [storedText]
  | cons first _ ih => rw [ih, first.text, storedText, storedText, List.flatMap_cons,
      List.append_assoc]

/-- The writes do not make the buffer smaller. -/
theorem leads_grows (leads : Leads Stores t log t') : t.2.length ≤ t'.2.length := by
  induction leads with
  | nil => exact Nat.le_refl _
  | cons first _ ih => exact Nat.le_trans first.grows ih

/-- The buffer at the end is the one behind the last write. -/
theorem leads_last (leads : Leads Stores t log t') (buffer : dev.iodBuffer = some t.2) :
    ((log.getLast?.map Store.after).getD dev).iodBuffer = some t'.2 := by
  induction leads generalizing dev with
  | nil => exact buffer
  | cons first _ ih =>
      rw [← ih first.buffer, List.getLast?_cons, Option.map_some, Option.getD_some]
      cases List.getLast? _ with
      | none => rfl
      | some last => rfl

theorem Stores.bufferSize {s : Store} (stores : Stores t s t') :
    s.after.bufferSize = t'.2.length := by
  rw [Dev.bufferSize, stores.buffer, Option.getD_some]

theorem leads_sizes (leads : Leads Stores t log t') :
    (t.2.length :: log.map (·.after.bufferSize)).Pairwise (· ≤ ·) := by
  induction leads with
  | nil => exact List.pairwise_singleton _ _
  | cons first _ ih =>
      rw [List.map_cons, first.bufferSize]
      refine List.pairwise_cons.mpr ⟨fun size mem => ?_, ih⟩
      rcases List.mem_cons.mp mem with rfl | later
      · exact first.grows
      · exact Nat.le_trans first.grows ((List.pairwise_cons.mp ih).1 size later)

/-- The size of the buffer fits its type. -/
theorem leads_fits (leads : Leads Stores t log t') (short : ∀ s ∈ log, s.place + 1 < 2 ^ 31)
    (small : t.2.length < 2 ^ 32) : ∀ s ∈ log, s.after.bufferSize < 2 ^ 32 := by
  induction leads with
  | nil => simp
  | cons first _ ih =>
      have small₁ := first.fits (short _ List.mem_cons_self) small
      intro s mem
      rcases List.mem_cons.mp mem with rfl | later
      · rwa [first.bufferSize]
      · exact ih (fun s mem => short s (List.mem_cons_of_mem _ mem)) small₁ s later

/-- What is safe in a call of `akl_lex`: it writes nothing behind the buffer, each
write goes behind the characters the call has stored so far and leaves these and a
NUL in the buffer, and the buffer does not shrink and ends as the last write has
left it. -/
structure SafeCall (dev : Dev) : Prop where
  logged : (Log.aklLex dev).result = dev.aklLex
  noOverrun : dev.aklLex ≠ .error .bufferOverrun
  stored : ∀ before s others, (Log.aklLex dev).log = before ++ s :: others →
    s.place = (storedText before).length ∧ s.place + s.chars.length < s.after.bufferSize ∧
      ∃ tail, s.after.iodBuffer = some (storedText (before ++ [s]) ++ 0 :: tail)
  sizes : (dev.started.bufferSize ::
    (Log.aklLex dev).log.map (·.after.bufferSize)).Pairwise (· ≤ ·)
  last : ∀ tok dev', dev.aklLex = .ok (tok, dev') →
    dev'.iodBuffer = (((Log.aklLex dev).log.getLast?.map Store.after).getD dev.started).iodBuffer
  fits : (∀ s ∈ (Log.aklLex dev).log, s.place + 1 < 2 ^ 31) → dev.started.bufferSize < 2 ^ 32 →
    ∀ s ∈ (Log.aklLex dev).log, s.after.bufferSize < 2 ^ 32

theorem Sized.safeCall {dev : Dev} (sized : dev.Sized) : dev.SafeCall := by
  obtain ⟨block, holding, recorded⟩ := sized.aklLex
  obtain ⟨t', leads, fits⟩ := recorded.leads
  refine ⟨recorded.same, recorded.avoids, ?_, ?_, ?_, ?_⟩
  · intro before s others logEq
    rw [logEq] at leads
    obtain ⟨t₁, t₂, leads₁, stores, -⟩ := leads.split
    have textEq : t₁.1 = storedText before := leads_text leads₁
    have textEq' : t₂.1 = storedText (before ++ [s]) :=
      leads_text (leads₁.append (.cons stores .nil))
    obtain ⟨tail, ends⟩ := stores.ends
    refine ⟨by rw [stores.place, textEq], ?_, tail, by rw [stores.buffer, ends, textEq']⟩
    rw [stores.bufferSize, ends, stores.text, stores.place]
    simp only [List.length_append, List.length_cons]
    omega
  · rw [holding.size]
    exact leads_sizes leads
  · intro tok dev' returned
    rw [leads_last leads holding.buffer]
    exact (fits _ returned).buffer
  · intro short small
    rw [holding.size] at small
    exact leads_fits leads short small

/-- The buffer does not shrink in a call that leaves it to the device. -/
theorem Sized.call {dev : Dev} (sized : dev.Sized) (call : LexCall dev dev') :
    dev'.Sized ∧ dev.bufferSize ≤ dev'.bufferSize := by
  cases call with
  | lex lexEq =>
      obtain ⟨block, holding, recorded⟩ := sized.aklLex
      obtain ⟨t', leads, fits⟩ := recorded.leads
      have holding' := fits _ lexEq
      constructor
      · intro block' buffer
        obtain rfl := Option.some.inj (holding'.buffer.symm.trans buffer)
        exact holding'.filled.1
      · have started : dev.bufferSize ≤ dev.started.bufferSize := by
          unfold Dev.started
          split
          · next none =>
              rw [Option.isNone_iff_eq_none] at none
              simp [bufferSize, none]
          · exact Nat.le_refl _
        rw [holding'.size]
        refine Nat.le_trans started ?_
        rw [holding.size]
        exact leads_grows leads
  | putback => exact ⟨sized, Nat.le_refl _⟩
  | text takeEq =>
      unfold Dev.takeText at takeEq
      cases buffer : dev.iodBuffer with
      | none =>
          rw [buffer] at takeEq
          cases takeEq
      | some block =>
          simp only [buffer] at takeEq
          split at takeEq
          · cases takeEq
            constructor
            · rintro block' ⟨⟩
              rw [List.length_set]
              exact sized block buffer
            · simp [bufferSize, buffer]
          · cases takeEq

theorem Reached.sized {dev : Dev} (reached : Reached dev) : dev.Sized := by
  induction reached with
  | file => rintro block ⟨⟩
  | string => rintro block ⟨⟩
  | call _ call ih => exact (ih.call call).1
  | free => rintro block ⟨⟩

end Dev

/-- The buffer of a device is never overrun, whatever it reads and whatever calls
there have been, and it does not shrink until it is freed. -/
theorem token_buffer_safe {dev : Dev} (reached : Dev.Reached dev) :
    dev.SafeCall ∧
      ∀ dev', Relation.ReflTransGen Dev.LexCall dev dev' → dev.bufferSize ≤ dev'.bufferSize := by
  have sized := reached.sized
  refine ⟨sized.safeCall, fun dev' calls => ?_⟩
  have kept : dev'.Sized ∧ dev.bufferSize ≤ dev'.bufferSize := by
    induction calls with
    | refl => exact ⟨sized, Nat.le_refl _⟩
    | tail _ call ih =>
        obtain ⟨sized', grown⟩ := ih.1.call call
        exact ⟨sized', Nat.le_trans ih.2 grown⟩
  exact kept.2

/-- A text that is longer than the buffer at first. -/
theorem token_buffer_safe_long :
    let dev := aklNewStringDevice (fun _ => 0) (List.replicate 60 (code 'a')) 0 .tEOF
    dev.SafeCall ∧
      ∀ dev', Relation.ReflTransGen Dev.LexCall dev dev' → dev.bufferSize ≤ dev'.bufferSize :=
  token_buffer_safe (.string _ _ _ _)

end AkLisp
