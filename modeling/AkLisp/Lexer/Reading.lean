import AkLisp.Lexer.Scan
import Mathlib.Logic.Function.Iterate
import Mathlib.Data.List.Basic

/-!
# Reading a text from a device

`Dev.At` says that a device, file or string, is about to read a given text.
Both kinds deliver the same characters and take them back; they differ at the
end of the text only.  A file has to be ASCII, for its other bytes are no `char`
values.
-/

namespace AkLisp

/-- A `char` other than NUL. -/
def IsStringChar (ch : Chr) : Prop := ch ≠ 0 ∧ -128 ≤ ch ∧ ch < 128

/-- ASCII characters other than NUL. -/
def IsAscii (ch : Chr) : Prop := 0 < ch ∧ ch < 128

theorem IsAscii.isStringChar {ch : Chr} (ascii : IsAscii ch) : IsStringChar ch := by
  unfold IsAscii at ascii
  unfold IsStringChar
  grind

theorem toChr_eq {ch : Chr} (lower : -128 ≤ ch) (upper : ch < 128) : toChr ch = ch := by
  unfold toChr
  grind

theorem IsStringChar.toChr {ch : Chr} (legal : IsStringChar ch) : toChr ch = ch :=
  toChr_eq legal.2.1 legal.2.2

theorem IsStringChar.ne_zero {ch : Chr} (legal : IsStringChar ch) : ch ≠ 0 := legal.1

/-- The number of characters of the line that have been read, if it is known. -/
abbrev Column := Option UInt32

/-- One character further. -/
def Column.next (col : Column) : Column := col.map (· + 1)

/-- Some characters further. -/
def Column.advance (col : Column) (n : Nat) : Column := Column.next^[n] col

@[simp] theorem Column.advance_zero (col : Column) : col.advance 0 = col := rfl

theorem Column.advance_succ (col : Column) (n : Nat) :
    col.advance (n + 1) = col.next.advance n := rfl

/-- The source is about to deliver the text. -/
def Source.At : Source → List Chr → Prop
  | .file pending eofSeen, r => pending = r ∧ (eofSeen = true → r = []) ∧ ∀ ch ∈ r, IsAscii ch
  | .string str pos, r => ∃ before, str = before ++ r ∧ pos = before.length

/-- The source has delivered a character and is about to deliver the text. -/
def Source.Past : Source → Chr → List Chr → Prop
  | .file pending eofSeen, ch, r => pending = r ∧ eofSeen = false ∧ ∀ c ∈ ch :: r, IsAscii c
  | .string str pos, ch, r => ∃ before, str = before ++ ch :: r ∧ pos = before.length + 1

theorem charAt_append (before : List Chr) (ch : Chr) (r : List Chr) :
    charAt (before ++ ch :: r) before.length = .ok ch := by
  simp [charAt]

theorem charAt_length (str : List Chr) : charAt str str.length = .ok 0 := by
  simp [charAt]

theorem charAt_behind {str : List Chr} {pos : Nat} (behind : str.length < pos) :
    charAt str pos = .error .outOfBounds := by
  have outside : (str ++ [0])[pos]? = none := by
    rw [List.getElem?_eq_none_iff, List.length_append, List.length_singleton]
    omega
  simp [charAt, outside]

namespace Source

variable {s : Source} {ch : Chr} {r : List Chr}

theorem Past.at (past : s.Past ch r) : s.At r := by
  cases s with
  | file pending eofSeen =>
      obtain ⟨pendingEq, rfl, ascii⟩ := past
      exact ⟨pendingEq, by simp, fun c mem => ascii c (List.mem_cons_of_mem _ mem)⟩
  | string str pos =>
      obtain ⟨before, rfl, rfl⟩ := past
      exact ⟨before ++ [ch], by simp, by simp⟩

theorem At.getc (at_ : s.At (ch :: r)) : ∃ s', s.getc = .ok (ch, s') ∧ s'.Past ch r := by
  cases s with
  | file pending eofSeen =>
      obtain ⟨rfl, seen, ascii⟩ := at_
      cases eofSeen with
      | false => exact ⟨_, rfl, rfl, rfl, ascii⟩
      | true => cases seen rfl
  | string str pos =>
      obtain ⟨before, rfl, rfl⟩ := at_
      refine ⟨.string (before ++ ch :: r) (before.length + 1), ?_, before, rfl, rfl⟩
      rw [Source.getc, charAt_append]
      rfl

theorem Past.ungetc (past : s.Past ch r) :
    ∃ s', s.ungetc ch = .ok (ch, s') ∧ s'.At (ch :: r) := by
  cases s with
  | file pending eofSeen =>
      obtain ⟨rfl, rfl, ascii⟩ := past
      obtain ⟨lower, upper⟩ := ascii ch List.mem_cons_self
      have byteEq : ch % 256 = ch := by grind
      have notEof : ch ≠ eof := by
        unfold eof
        grind
      refine ⟨.file (ch :: pending) false, ?_, rfl, by simp, ascii⟩
      rw [Source.ungetc, if_neg notEof, byteEq]
  | string str pos =>
      obtain ⟨before, rfl, rfl⟩ := past
      refine ⟨.string (before ++ ch :: r) before.length, ?_, before, rfl, rfl⟩
      rw [Source.ungetc, charAt_append]
      rfl

theorem At.eof_cons (at_ : s.At (ch :: r)) (nonzero : ch ≠ 0) : s.eof? = .ok false := by
  cases s with
  | file pending eofSeen =>
      cases eofSeen with
      | false => rfl
      | true => cases at_.2.1 rfl
  | string str pos =>
      obtain ⟨before, rfl, rfl⟩ := at_
      rw [Source.eof?, charAt_append]
      simp [nonzero, bind, Except.bind, pure, Except.pure]

/-- The end of a text: the end of a string is seen before it is read, that of a
file behind it. -/
theorem At.end (at_ : s.At []) :
    (s.eof? = .ok true ∧
      ∃ s', s.getc = .ok (0, s') ∧ ∃ s'', s'.ungetc 0 = .ok (0, s'') ∧ s''.At []) ∨
      ∃ s', s.getc = .ok (eof, s') ∧ s'.eof? = .ok true ∧ s'.ungetc eof = .ok (eof, s') ∧
        s'.At [] := by
  cases s with
  | file pending eofSeen =>
      obtain ⟨rfl, -⟩ := at_
      exact .inr ⟨_, rfl, rfl, rfl, rfl, fun _ => rfl, by simp⟩
  | string str pos =>
      obtain ⟨before, rfl, rfl⟩ := at_
      rw [List.append_nil]
      refine .inl ⟨?_, .string before (before.length + 1), ?_, .string before before.length, ?_,
        before, by simp, rfl⟩
      · rw [Source.eof?, charAt_length]
        rfl
      · rw [Source.getc, charAt_length]
        rfl
      · rw [Source.ungetc, charAt_length]
        rfl

theorem At.eof_total (at_ : s.At []) : ∃ b, s.eof? = .ok b := by
  cases s with
  | file pending eofSeen => exact ⟨_, rfl⟩
  | string str pos =>
      rcases at_.end with ⟨eofEq, -⟩ | ⟨s', getcEq, -⟩
      · exact ⟨_, eofEq⟩
      · obtain ⟨before, rfl, rfl⟩ := at_
        refine ⟨true, ?_⟩
        rw [List.append_nil, Source.eof?, charAt_length]
        rfl

theorem At.remaining (at_ : s.At r) : s.remaining = r.length + 1 := by
  cases s with
  | file pending eofSeen => rw [← at_.1, Source.remaining]
  | string str pos =>
      obtain ⟨before, rfl, rfl⟩ := at_
      rw [Source.remaining, List.length_append]
      omega

end Source

/-- The buffer holds the text, terminated if it is not empty, with room for a
terminating NUL. -/
def Filled (block text : List Chr) : Prop :=
  defBufferSize ≤ block.length ∧
    ∃ tail, block = text ++ tail ∧ tail ≠ [] ∧ (text ≠ [] → tail.head? = some 0)

theorem Filled.nil {block : List Chr} (large : defBufferSize ≤ block.length) :
    Filled block [] := by
  refine ⟨large, block, rfl, ?_, by simp⟩
  rintro rfl
  simp [defBufferSize] at large

/-- The C string in the buffer. -/
theorem Filled.takeWhile {block text : List Chr} (filled : Filled block text)
    (nonempty : text ≠ []) (noNul : ∀ ch ∈ text, ch ≠ 0) :
    block.takeWhile (· ≠ 0) = text ∧ 0 ∈ block := by
  obtain ⟨-, tail, rfl, -, terminated⟩ := filled
  obtain ⟨others, rfl⟩ : ∃ others, tail = 0 :: others := by
    cases tail with
    | nil => simp at terminated; exact absurd terminated nonempty
    | cons ch others =>
        have := terminated nonempty
        simp only [List.head?_cons, Option.some.injEq] at this
        exact ⟨others, by rw [this]⟩
  constructor
  · rw [List.takeWhile_append_of_pos (by simpa using noNul)]
    simp
  · simp

namespace Dev

/-- `put_buffer` behind the text that is in the buffer. -/
theorem putBuffer_filled {dev : Dev} {block text : List Chr} (buffer : dev.iodBuffer = some block)
    (filled : Filled block text) (ch : Chr) :
    ∃ block', dev.putBuffer text.length ch = .ok { dev with iodBuffer := some block' } ∧
      Filled block' (text ++ [ch]) := by
  obtain ⟨large, tail, rfl, nonempty, -⟩ := filled
  obtain ⟨first, others, rfl⟩ := List.exists_cons_of_ne_nil nonempty
  -- the block behind the text has room for two characters, if need be after it has grown
  obtain ⟨second, rest, grownEq⟩ : ∃ second rest,
      (if (text ++ first :: others).length ≤ text.length + 1 then
        (text ++ first :: others) ++
          (List.range ((text ++ first :: others).length / 2)).map dev.fresh
        else text ++ first :: others) = text ++ first :: second :: rest := by
    cases others with
    | nil =>
        rw [if_pos (by simp)]
        have positive : 0 < (text ++ [first]).length / 2 := by
          unfold defBufferSize at large
          omega
        rw [← Nat.succ_pred_eq_of_pos positive, Nat.succ_eq_add_one, List.range_succ_eq_map,
          List.map_cons, List.append_assoc, List.singleton_append]
        exact ⟨_, _, rfl⟩
    | cons second rest =>
        rw [if_neg (by simp)]
        exact ⟨second, rest, rfl⟩
  have longer : (text ++ first :: others).length ≤ (text ++ first :: second :: rest).length := by
    rw [← grownEq]
    split
    · simp
    · exact Nat.le_refl _
  refine ⟨text ++ ch :: 0 :: rest, ?_, ?_, 0 :: rest, by simp, by simp, by simp⟩
  · simp only [putBuffer, buffer, grownEq]
    rw [if_pos (by simp)]
    simp
  · refine le_trans large (le_trans longer ?_)
    simp

/-- The device is about to read the text, `col` characters into a line, and its
buffer is usable. -/
structure At (dev : Dev) (col : Column) (r : List Chr) : Prop where
  source : dev.iodSource.At r
  chars : ∀ ch ∈ r, IsStringChar ch
  column : ∀ k ∈ col, dev.iodCharCount = k
  room : ∃ block, dev.iodBuffer = some block ∧ defBufferSize ≤ block.length
  backlog : dev.iodBacklog = .tEOF

/-- The device has read a character `col` characters into a line and is about to
read the text. -/
structure Past (dev : Dev) (col : Column) (ch : Chr) (r : List Chr) : Prop where
  source : dev.iodSource.Past ch r
  chars : ∀ c ∈ ch :: r, IsStringChar c
  column : ∀ k ∈ col, dev.iodCharCount = k + 1
  room : ∃ block, dev.iodBuffer = some block ∧ defBufferSize ≤ block.length
  backlog : dev.iodBacklog = .tEOF

variable {dev : Dev} {col : Column} {ch : Chr} {r : List Chr}

theorem Past.at (past : dev.Past col ch r) : dev.At col.next r where
  source := past.source.at
  chars := fun c mem => past.chars c (List.mem_cons_of_mem _ mem)
  column := by
    intro k mem
    obtain ⟨j, found, rfl⟩ := Option.map_eq_some_iff.mp mem
    exact past.column j found
  room := past.room
  backlog := past.backlog

theorem At.getc (at_ : dev.At col (ch :: r)) :
    ∃ dev', dev.aklIoGetc = .ok (ch, dev') ∧ dev'.Past col ch r ∧
      dev'.iodBuffer = dev.iodBuffer := by
  obtain ⟨s', getcEq, past⟩ := at_.source.getc
  refine ⟨{ dev with iodSource := s', iodCharCount := dev.iodCharCount + 1 }, ?_,
    ⟨past, at_.chars, ?_, at_.room, at_.backlog⟩, rfl⟩
  · simp only [aklIoGetc, getcEq]
    rfl
  · intro k mem
    simp only [at_.column k mem]

theorem Past.ungetc (past : dev.Past col ch r) :
    ∃ dev', dev.aklIoUngetc ch = .ok (ch, dev') ∧ dev'.At col (ch :: r) ∧
      dev'.iodBuffer = dev.iodBuffer := by
  obtain ⟨s', ungetcEq, at_⟩ := past.source.ungetc
  refine ⟨{ dev with iodSource := s', iodCharCount := dev.iodCharCount - 1 }, ?_,
    ⟨at_, past.chars, ?_, past.room, past.backlog⟩, rfl⟩
  · simp only [aklIoUngetc, ungetcEq]
    rfl
  · intro k mem
    simp only [past.column k mem]
    simp

theorem At.eof_cons (at_ : dev.At col (ch :: r)) : dev.aklIoEof = .ok false :=
  at_.source.eof_cons (at_.chars ch (by simp)).ne_zero

theorem At.eof_append {line : List Chr} (at_ : dev.At col (line ++ ch :: r)) :
    dev.aklIoEof = .ok false := by
  cases line with
  | nil => exact at_.eof_cons
  | cons c line => exact at_.eof_cons

/-- At the end of the text the next character is NUL or `EOF` and can be put
back. -/
theorem At.getc_nil (at_ : dev.At col []) :
    ∃ c dev', dev.aklIoGetc = .ok (c, dev') ∧ (c = 0 ∨ c = eof) ∧
      ∃ dev'', dev'.aklIoUngetc c = .ok (c, dev'') ∧ dev''.At col [] ∧
        dev''.iodBuffer = dev.iodBuffer := by
  rcases at_.source.end with ⟨-, s', getcEq, s'', ungetcEq, at''⟩ |
    ⟨s', getcEq, -, ungetcEq, at''⟩
  · refine ⟨0, { dev with iodSource := s', iodCharCount := dev.iodCharCount + 1 }, ?_, .inl rfl,
      { dev with iodSource := s'', iodCharCount := dev.iodCharCount + 1 - 1 }, ?_,
      ⟨at'', at_.chars, ?_, at_.room, at_.backlog⟩, rfl⟩
    · simp only [aklIoGetc, getcEq]
      rfl
    · simp only [aklIoUngetc, ungetcEq]
      rfl
    · intro k mem
      simp [at_.column k mem]
  · refine ⟨eof, { dev with iodSource := s', iodCharCount := dev.iodCharCount + 1 }, ?_, .inr rfl,
      { dev with iodSource := s', iodCharCount := dev.iodCharCount + 1 - 1 }, ?_,
      ⟨at'', at_.chars, ?_, at_.room, at_.backlog⟩, rfl⟩
    · simp only [aklIoGetc, getcEq]
      rfl
    · simp only [aklIoUngetc, ungetcEq]
      rfl
    · intro k mem
      simp [at_.column k mem]

/-- Where the end of the text is not seen, the next character is `EOF`; the end
is seen behind it. -/
theorem At.end (at_ : dev.At col []) :
    dev.aklIoEof = .ok true ∨
      dev.aklIoEof = .ok false ∧ ∃ dev', dev.aklIoGetc = .ok (eof, dev') ∧
        dev'.aklIoEof = .ok true ∧
        ∃ dev'', dev'.aklIoUngetc eof = .ok (eof, dev'') ∧ dev''.At col [] ∧
          dev''.iodBuffer = dev.iodBuffer := by
  obtain ⟨b, eofEq⟩ := at_.source.eof_total
  cases b with
  | true => exact .inl eofEq
  | false =>
      rcases at_.source.end with ⟨eofEq', -⟩ | ⟨s', getcEq, eofEq', ungetcEq, at''⟩
      · cases eofEq.symm.trans eofEq'
      · refine .inr ⟨eofEq, { dev with iodSource := s', iodCharCount := dev.iodCharCount + 1 },
          ?_, eofEq', { dev with iodSource := s', iodCharCount := dev.iodCharCount + 1 - 1 }, ?_,
          ⟨at'', at_.chars, ?_, at_.room, at_.backlog⟩, rfl⟩
        · simp only [aklIoGetc, getcEq]
          rfl
        · simp only [aklIoUngetc, ungetcEq]
          rfl
        · intro k mem
          simp [at_.column k mem]

theorem At.rounds (at_ : dev.At col r) : dev.rounds = r.length + 2 := by
  rw [Dev.rounds, at_.source.remaining]

/-- The position does not depend on what the buffer holds. -/
theorem At.withBuffer (at_ : dev.At col r) {block text : List Chr} (filled : Filled block text) :
    At { dev with iodBuffer := some block } col r :=
  ⟨at_.source, at_.chars, at_.column, ⟨block, rfl, filled.1⟩, at_.backlog⟩

theorem Past.withBuffer (past : dev.Past col ch r) {block text : List Chr}
    (filled : Filled block text) : Past { dev with iodBuffer := some block } col ch r :=
  ⟨past.source, past.chars, past.column, ⟨block, rfl, filled.1⟩, past.backlog⟩

/-- The device is about to read the text and has put some text into its buffer. -/
structure Copying (dev : Dev) (col : Column) (r done : List Chr) : Prop where
  at_ : dev.At col r
  filled : ∃ block, dev.iodBuffer = some block ∧ Filled block done

theorem At.copying (at_ : dev.At col r) : dev.Copying col r [] := by
  obtain ⟨block, buffer, large⟩ := at_.room
  exact ⟨at_, block, buffer, .nil large⟩

theorem Copying.put {done : List Chr} (copying : dev.Copying col r done) (c : Chr) :
    ∃ dev', dev.putBuffer done.length c = .ok dev' ∧ dev'.Copying col r (done ++ [c]) := by
  obtain ⟨block, buffer, filled⟩ := copying.filled
  obtain ⟨block', putEq, filled'⟩ := putBuffer_filled buffer filled c
  exact ⟨_, putEq, copying.at_.withBuffer filled', block', rfl, filled'⟩

/-- Reading one character while text is in the buffer. -/
theorem Copying.getc {done : List Chr} (copying : dev.Copying col (ch :: r) done) :
    ∃ dev', dev.aklIoGetc = .ok (ch, dev') ∧ dev'.Past col ch r ∧
      dev'.Copying col.next r done := by
  obtain ⟨dev', getcEq, past, bufferEq⟩ := copying.at_.getc
  exact ⟨dev', getcEq, past, past.at, bufferEq ▸ copying.filled⟩

theorem Copying.bufferText {done : List Chr} (copying : dev.Copying col r done)
    (nonempty : done ≠ []) (noNul : ∀ c ∈ done, c ≠ 0) :
    dev.bufferText = done ∧ ∃ block, dev.iodBuffer = some block ∧ 0 ∈ block := by
  obtain ⟨block, buffer, filled⟩ := copying.filled
  obtain ⟨textEq, terminated⟩ := filled.takeWhile nonempty noNul
  exact ⟨by rw [Dev.bufferText, buffer, Option.getD_some, textEq], block, buffer, terminated⟩

end Dev

end AkLisp
