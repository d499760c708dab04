import AkLisp.Lexer.Bounds
import AkLisp.Outcome.Results

/-!
# The lexer at the end of a file

On a file, of any bytes, `akl_lex` returns a token, reading on by at least one
character unless the file is exhausted, with one exception: the loop that skips
a shebang line waits for a line end or a NUL and reads the end of the file over
and over.
-/

namespace AkLisp

open Outcome

/-- Where the loop of `akl_lex` is: between tokens, in a comment or in a shebang
line. -/
inductive LexPlace where
  | between
  | comment
  | shebang
  deriving DecidableEq, Repr

/-- Whether `akl_lex` comes to a shebang line that the end of the file ends,
`count` characters into a line, with a pending sign. -/
def openShebang : LexPlace → UInt32 → Chr → List Chr → Bool
  | .shebang, _, _, [] => true
  | .between, _, _, [] | .comment, _, _, [] => false
  | .shebang, count, op, c :: r =>
      if toChr c = 0 then openShebang .between (count + 1) op r
      else if toChr c = code '\n' then openShebang .between 0 op r
      else openShebang .shebang (count + 1) op r
  | .comment, count, op, c :: r =>
      if toChr c = code '\n' then openShebang .between (count + 1) op r
      else openShebang .comment (count + 1) op r
  | .between, count, op, c :: r =>
      if toChr c = 0 then false
      else if count + 1 = 1 ∧ toChr c = code '#' then openShebang .shebang (count + 1) op r
      else
        match classOf (toChr c) with
        | .newline => openShebang .between 0 op r
        | .sign => if op ≠ 0 then false else openShebang .between (count + 1) (toChr c) r
        | .delimiter =>
            if op ≠ 0 ∨ toChr c = code ')' then false
            else openShebang .between (count + 1) op r
        | .semicolon => openShebang .comment (count + 1) op r
        | .other => openShebang .between (count + 1) op r
        | _ => false

namespace Dev

/-- The device is a file with the characters `p` still to be read. -/
structure OnFile (dev : Dev) (p : List Chr) : Prop where
  source : ∃ seen, dev.iodSource = .file p seen ∧ (seen = true → p = [])
  room : ∃ block, dev.iodBuffer = some block ∧ defBufferSize ≤ block.length
  backlog : dev.iodBacklog = .tEOF

/-- At most the characters `p` are still to be read. -/
def Behind (p : List Chr) (dev : Dev) : Prop := ∃ r, dev.OnFile r ∧ r.length ≤ p.length

variable {dev : Dev} {p : List Chr} {ch c : Chr}

theorem OnFile.behind (onFile : dev.OnFile p) : dev.Behind p := ⟨p, onFile, Nat.le_refl _⟩

theorem Behind.trans {r : List Chr} (behind : dev.Behind r) (shorter : r.length ≤ p.length) :
    dev.Behind p := by
  obtain ⟨rest, onFile, less⟩ := behind
  exact ⟨rest, onFile, less.trans shorter⟩

theorem OnFile.holds (onFile : dev.OnFile p) : dev.Holds [] := by
  obtain ⟨block, buffer, large⟩ := onFile.room
  exact ⟨block, buffer, .nil large⟩

theorem OnFile.getc (onFile : dev.OnFile (c :: p)) :
    Returns (fun r => r.1 = c ∧ r.2.OnFile p ∧ r.2.iodBuffer = dev.iodBuffer ∧
      r.2.iodCharCount = dev.iodCharCount + 1) dev.aklIoGetc := by
  obtain ⟨seen, source, atEnd⟩ := onFile.source
  cases seen with
  | true => cases atEnd rfl
  | false =>
      simp only [aklIoGetc, source]
      exact ⟨rfl, ⟨⟨false, rfl, Bool.noConfusion⟩, onFile.room, onFile.backlog⟩, rfl, rfl⟩

/-- At the end of the file `EOF` is read, and the end is seen. -/
theorem OnFile.getc_nil (onFile : dev.OnFile []) :
    Returns (fun r => r.1 = AkLisp.eof ∧ r.2.OnFile [] ∧ r.2.iodBuffer = dev.iodBuffer ∧
      r.2.aklIoEof = .ok true) dev.aklIoGetc := by
  obtain ⟨seen, source, -⟩ := onFile.source
  simp only [aklIoGetc, source]
  exact ⟨rfl, ⟨⟨true, rfl, fun _ => rfl⟩, onFile.room, onFile.backlog⟩, rfl, rfl⟩

/-- A character is read, or the end of the file. -/
theorem OnFile.getc_tail (onFile : dev.OnFile p) :
    Returns (fun r => r.2.OnFile p.tail ∧ r.2.iodBuffer = dev.iodBuffer) dev.aklIoGetc := by
  cases p with
  | nil => exact onFile.getc_nil.mono fun _ ⟨_, onFile', bufferEq, _⟩ => ⟨onFile', bufferEq⟩
  | cons c p => exact onFile.getc.mono fun _ ⟨_, onFile', bufferEq, _⟩ => ⟨onFile', bufferEq⟩

/-- The end of the file is not seen before its last character is read. -/
theorem OnFile.eof (onFile : dev.OnFile p) :
    Returns (fun seen => seen = true → p = []) dev.aklIoEof := by
  obtain ⟨seen, source, atEnd⟩ := onFile.source
  simp only [aklIoEof, source]
  exact atEnd

/-- What is pushed back is read again, unless it is `EOF`. -/
theorem OnFile.ungetc (onFile : dev.OnFile p) (ch : Chr) :
    Returns (fun r => r.2.OnFile (if ch = AkLisp.eof then p else ch % 256 :: p) ∧
      r.2.iodBuffer = dev.iodBuffer) (dev.aklIoUngetc ch) := by
  obtain ⟨seen, source, atEnd⟩ := onFile.source
  simp only [aklIoUngetc, source, Source.ungetc]
  by_cases isEof : ch = AkLisp.eof
  · simp only [if_pos isEof]
    exact ⟨⟨⟨seen, rfl, atEnd⟩, onFile.room, onFile.backlog⟩, rfl⟩
  · simp only [if_neg isEof]
    exact ⟨⟨⟨false, rfl, Bool.noConfusion⟩, onFile.room, onFile.backlog⟩, rfl⟩

/-- Pushing a character back that was read. -/
theorem OnFile.ungetc_behind (onFile : dev.OnFile p) (ch : Chr) :
    Returns (fun r => r.2.Behind (c :: p) ∧ r.2.iodBuffer = dev.iodBuffer)
      (dev.aklIoUngetc ch) := by
  refine (onFile.ungetc ch).mono fun (a, dev') ⟨onFile', bufferEq⟩ => ⟨⟨_, onFile', ?_⟩, bufferEq⟩
  by_cases isEof : ch = AkLisp.eof <;> simp [isEof]

theorem OnFile.rounds (onFile : dev.OnFile p) : dev.rounds = p.length + 2 := by
  obtain ⟨seen, source, -⟩ := onFile.source
  rw [Dev.rounds, source, Source.remaining]

theorem OnFile.put {done : List Chr} (onFile : dev.OnFile p) (holds : dev.Holds done) (c : Chr) :
    Returns (fun dev' => dev'.OnFile p ∧ dev'.Holds (done ++ [c]) ∧ dev'.aklIoEof = dev.aklIoEof)
      (dev.putBuffer done.length c) := by
  obtain ⟨block, buffer, filled⟩ := holds
  obtain ⟨block', putEq, filled'⟩ := putBuffer_filled buffer filled c
  rw [putEq]
  exact ⟨⟨onFile.source, ⟨block', rfl, filled'.1⟩, onFile.backlog⟩, ⟨block', rfl, filled'⟩, rfl⟩

/-- There is a C string in the buffer. -/
def HasText (dev : Dev) : Prop := ∃ block, dev.iodBuffer = some block ∧ 0 ∈ block

theorem Holds.hasText {done : List Chr} (holds : dev.Holds done) (nonempty : done ≠ []) :
    dev.HasText := by
  obtain ⟨block, buffer, -, tail, rfl, -, terminated⟩ := holds
  refine ⟨_, buffer, List.mem_append_right _ ?_⟩
  exact List.mem_of_mem_head? (terminated nonempty)

/-- The end of a round: the loop stops if the end of the file has been seen. -/
theorem OnFile.round {α : Type} {P : α × Dev → Prop} (onFile : dev.OnFile p) (a : α)
    {continued : Except Fault (α × Dev)} (stops : P (a, dev))
    (goes : dev.aklIoEof ≠ .ok true → Returns P continued) :
    Returns P (do if ← dev.aklIoEof then return (a, dev) else continued) := by
  refine onFile.eof.exists.elim fun seen ⟨seenEq, _⟩ => ?_
  rw [seenEq] at goes ⊢
  cases seen with
  | true => exact stops
  | false => exact goes (by simp)

theorem Holds.of_buffer {done : List Chr} {dev' : Dev} (holds : dev.Holds done)
    (bufferEq : dev'.iodBuffer = dev.iodBuffer) : dev'.Holds done := by
  simpa only [Holds, bufferEq] using holds

theorem HasText.of_buffer {dev' : Dev} (hasText : dev.HasText)
    (bufferEq : dev'.iodBuffer = dev.iodBuffer) : dev'.HasText := by
  simpa only [HasText, bufferEq] using hasText

theorem Behind.cons (behind : dev.Behind p) : dev.Behind (c :: p) :=
  behind.trans (Nat.le_succ _)

/-- `copy_number` ends, behind a first character that belongs to the number. -/
theorem OnFile.copyNumberLoop {done : List Chr} (onFile : dev.OnFile p) (holds : dev.Holds done)
    {fuel : Nat} (enough : p.length < fuel) :
    Returns (fun r => r.2.Behind p ∧ ∀ c r', p = c :: r' → c ≠ 0 → isValidInNumber (toChr c) →
      r.2.Behind r') (Dev.copyNumberLoop fuel done.length dev) := by
  induction p generalizing dev done fuel with
  | nil =>
      obtain ⟨fuel, rfl⟩ := Nat.exists_eq_add_of_lt enough
      refine onFile.getc_nil.bind fun (ch, dev₁) ⟨isEof, onFile₁, _⟩ => ?_
      obtain rfl : ch = AkLisp.eof := isEof
      refine (onFile₁.ungetc AkLisp.eof).bind fun (a, dev₂) ⟨onFile₂, _⟩ => ?_
      exact ⟨onFile₂.behind, fun _ _ nil => by cases nil⟩
  | cons c p ih =>
      obtain ⟨fuel, rfl⟩ := Nat.exists_eq_add_of_lt enough
      refine onFile.getc.bind fun (ch, dev₁) ⟨chEq, onFile₁, bufferEq, _⟩ => ?_
      obtain rfl : ch = c := chEq
      dsimp only
      split
      · next zero =>
          refine ⟨onFile₁.behind.cons, fun _ _ same nonzero => ?_⟩
          cases same
          exact absurd zero nonzero
      · split
        · refine (onFile₁.put (holds.of_buffer bufferEq) _).bind
            fun dev₂ ⟨onFile₂, holds₂, _⟩ => ?_
          refine onFile₂.round _ ⟨onFile₂.behind.cons, fun _ _ same _ _ => ?_⟩ fun _ => ?_
          · cases same
            exact onFile₂.behind
          · have less : p.length < (ch :: p).length + fuel := by
              rw [List.length_cons]
              omega
            have loop := ih onFile₂ holds₂ less
            rw [List.length_append] at loop
            refine loop.mono fun r ⟨behind, _⟩ => ⟨behind.cons, fun _ _ same _ _ => ?_⟩
            cases same
            exact behind
        · next invalid =>
            refine (onFile₁.ungetc_behind (c := ch) ch).bind fun (a, dev₂) ⟨behind, _⟩ => ?_
            refine ⟨behind, fun _ _ same _ valid => ?_⟩
            cases same
            exact absurd valid invalid

/-- `copy_string` ends. -/
theorem OnFile.copyStringLoop {done : List Chr} (onFile : dev.OnFile p) (holds : dev.Holds done)
    {fuel : Nat} (enough : p.length < fuel) :
    Returns (fun r => r.2.Behind p) (Dev.copyStringLoop fuel done.length dev) := by
  induction lengthEq : p.length using Nat.strong_induction_on generalizing dev p done fuel with
  | _ n ih =>
    obtain ⟨fuel, rfl⟩ := Nat.exists_eq_add_of_lt enough
    -- the loop goes on behind the characters it has put, unless there are none left
    have goes {dev₂ : Dev} {q : List Chr} {done₂ : List Chr} (n' : Nat) (onFile₂ : dev₂.OnFile q)
        (holds₂ : dev₂.Holds done₂) (countEq : n' = done₂.length)
        (less : dev₂.aklIoEof ≠ .ok true → q.length < p.length) (notMore : q.length ≤ p.length) :
        Returns (fun r => r.2.Behind p)
          (do if ← dev₂.aklIoEof then return (n', dev₂)
              else Dev.copyStringLoop (p.length + fuel) n' dev₂) := by
      subst countEq
      refine onFile₂.round _ ⟨q, onFile₂, notMore⟩ fun more => ?_
      have loop := ih q.length (lengthEq ▸ less more) onFile₂ holds₂
        (Nat.lt_add_right fuel (less more)) rfl
      exact loop.mono fun r behind => behind.trans notMore
    cases p with
    | nil =>
        refine onFile.getc_nil.bind fun (ch, dev₁) ⟨isEof, onFile₁, bufferEq, seen⟩ => ?_
        obtain rfl : ch = AkLisp.eof := isEof
        refine (onFile₁.put (holds.of_buffer bufferEq) _).bind
          fun dev₂ ⟨onFile₂, holds₂, eofEq⟩ => ?_
        exact goes _ onFile₂ holds₂ (by simp) (fun more => absurd (eofEq.trans seen) more) le_rfl
    | cons c p =>
        refine onFile.getc.bind fun (ch, dev₁) ⟨chEq, onFile₁, bufferEq, _⟩ => ?_
        have holds₁ := holds.of_buffer bufferEq
        dsimp only
        split
        · exact onFile₁.behind.cons
        · split
          · have shorter : p.tail.length < (c :: p).length := by
              rw [List.length_tail, List.length_cons]
              omega
            refine onFile₁.getc_tail.bind fun (c', dev₂) ⟨onFile₂, bufferEq₂⟩ => ?_
            have holds₂ := holds₁.of_buffer bufferEq₂
            dsimp only
            split
            · refine (onFile₂.put holds₂ _).bind fun dev₃ ⟨onFile₃, holds₃, _⟩ => ?_
              exact goes _ onFile₃ holds₃ (by simp) (fun _ => shorter) shorter.le
            · refine (onFile₂.put holds₂ _).bind fun dev₃ ⟨onFile₃, holds₃, _⟩ => ?_
              have put := onFile₃.put holds₃ (toChr c')
              rw [List.length_append] at put
              refine put.bind fun dev₄ ⟨onFile₄, holds₄, _⟩ => ?_
              exact goes _ onFile₄ holds₄ (by simp) (fun _ => shorter) shorter.le
          · split
            · refine (onFile₁.put holds₁ _).bind fun dev₂ ⟨onFile₂, holds₂, _⟩ => ?_
              exact goes _ onFile₂ holds₂ (by simp) (fun _ => by simp) (by simp)
            · exact onFile₁.behind.cons

/-- `copy_atom` ends.  Behind a first character that belongs to the atom there is a
text in the buffer. -/
theorem OnFile.copyAtomLoop {done : List Chr} (onFile : dev.OnFile p) (holds : dev.Holds done)
    {fuel : Nat} (enough : p.length < fuel) :
    Returns (fun r => r.2.Behind p ∧ (done ≠ [] → r.2.HasText) ∧
      ∀ c r', p = c :: r' → toChr c ≠ 0 → endsAtom (toChr c) = false →
        r.2.Behind r' ∧ r.2.HasText) (Dev.copyAtomLoop fuel done.length dev) := by
  induction p generalizing dev done fuel with
  | nil =>
      obtain ⟨fuel, rfl⟩ := Nat.exists_eq_add_of_lt enough
      refine onFile.getc_nil.bind fun (ch, dev₁) ⟨isEof, onFile₁, bufferEq, seen⟩ => ?_
      obtain rfl : ch = AkLisp.eof := isEof
      refine (onFile₁.put (holds.of_buffer bufferEq) _).bind fun dev₂ ⟨onFile₂, holds₂, eofEq⟩ => ?_
      refine onFile₂.round _ ⟨onFile₂.behind, fun _ => holds₂.hasText (by simp), ?_⟩ fun more => ?_
      · rintro _ _ ⟨⟩
      · exact absurd (eofEq.trans seen) more
  | cons c p ih =>
      obtain ⟨fuel, rfl⟩ := Nat.exists_eq_add_of_lt enough
      refine onFile.getc.bind fun (ch, dev₁) ⟨chEq, onFile₁, bufferEq, _⟩ => ?_
      obtain rfl : ch = c := chEq
      have holds₁ := holds.of_buffer bufferEq
      dsimp only
      split
      · next zero =>
          refine ⟨onFile₁.behind.cons, holds₁.hasText, fun _ _ same nonzero => ?_⟩
          cases same
          exact absurd zero nonzero
      · split
        · next ends =>
            refine (onFile₁.ungetc_behind (c := ch) _).bind fun (a, dev₂) ⟨behind, bufferEq₂⟩ => ?_
            refine ⟨behind, (holds₁.of_buffer bufferEq₂).hasText, fun _ _ same _ others => ?_⟩
            cases same
            exact absurd ends (by simp [others])
        · refine (onFile₁.put holds₁ _).bind fun dev₂ ⟨onFile₂, holds₂, _⟩ => ?_
          have hasText := holds₂.hasText (by simp)
          refine onFile₂.round _ ⟨onFile₂.behind.cons, fun _ => hasText, fun _ _ same _ _ => ?_⟩
            fun _ => ?_
          · cases same
            exact ⟨onFile₂.behind, hasText⟩
          · have less : p.length < (ch :: p).length + fuel := by
              rw [List.length_cons]
              omega
            have loop := ih onFile₂ holds₂ less
            rw [List.length_append] at loop
            refine loop.mono fun r ⟨behind, text, _⟩ =>
              ⟨behind.cons, fun _ => text (by simp), fun _ _ same _ _ => ?_⟩
            cases same
            exact ⟨behind, text (by simp)⟩

/-- A shebang line is skipped to its end, or the end of the file is read over and
over. -/
theorem OnFile.skipShebang (onFile : dev.OnFile p) {fuel : Nat} (enough : p.length < fuel)
    (op : Chr) :
    Dev.skipShebang fuel dev = .error .hang ∧ openShebang .shebang dev.iodCharCount op p = true ∨
      Returns (fun r => (r.1 = 0 ∨ r.1 = code '\n') ∧ ∃ q, r.2.OnFile q ∧ q.length < p.length ∧
        openShebang .shebang dev.iodCharCount op p =
          openShebang .between (if r.1 = 0 then r.2.iodCharCount else 0) op q)
        (Dev.skipShebang fuel dev) := by
  induction p generalizing dev fuel with
  | nil =>
      refine .inl ⟨?_, rfl⟩
      clear enough
      induction fuel generalizing dev with
      | zero => rfl
      | succ fuel ih =>
          obtain ⟨⟨ch, dev₁⟩, getcEq, isEof, onFile₁, -⟩ := onFile.getc_nil.exists
          obtain rfl : ch = AkLisp.eof := isEof
          have goes : ¬(toChr AkLisp.eof = 0 ∨ toChr AkLisp.eof = code '\n') := by decide
          simp only [Dev.skipShebang, getcEq, bind, Except.bind, if_neg goes]
          exact ih onFile₁
  | cons c p ih =>
      obtain ⟨fuel, rfl⟩ := Nat.exists_eq_add_of_lt enough
      obtain ⟨⟨ch, dev₁⟩, getcEq, chEq, onFile₁, -, countEq⟩ := onFile.getc.exists
      obtain rfl : ch = c := chEq
      rw [openShebang, ← countEq]
      simp only [Dev.skipShebang, getcEq, bind, Except.bind]
      by_cases zero : toChr ch = 0
      · rw [if_pos (.inl zero), if_pos zero]
        exact .inr ⟨.inl zero, p, onFile₁, by simp, by rw [if_pos zero]⟩
      · by_cases newline : toChr ch = code '\n'
        · rw [if_pos (.inr newline), if_neg zero, if_pos newline]
          exact .inr ⟨.inr newline, p, onFile₁, by simp, by rw [if_neg zero]⟩
        · rw [if_neg (not_or.mpr ⟨zero, newline⟩), if_neg zero, if_neg newline]
          have less : p.length < (ch :: p).length + fuel := by
            rw [List.length_cons]
            omega
          refine (ih onFile₁ less).imp_right fun returns => returns.mono ?_
          rintro r ⟨ended, q, onFile', less, openEq⟩
          exact ⟨ended, q, onFile', less.trans (Nat.lt_succ_self _), openEq⟩

/-- A comment is skipped to its end or to the end of the file. -/
theorem OnFile.skipComment (onFile : dev.OnFile p) {fuel : Nat} (enough : p.length < fuel)
    (op : Chr) :
    Returns (fun r => ∃ q, r.2.OnFile q ∧
      if r.1 then q = [] ∧ openShebang .comment dev.iodCharCount op p = false
      else q.length < p.length ∧ openShebang .comment dev.iodCharCount op p =
        openShebang .between r.2.iodCharCount op q) (Dev.skipComment fuel dev) := by
  induction p generalizing dev fuel with
  | nil =>
      obtain ⟨fuel, rfl⟩ := Nat.exists_eq_add_of_lt enough
      refine onFile.getc_nil.bind fun (ch, dev₁) ⟨isEof, onFile₁, _, seen⟩ => ?_
      obtain rfl : ch = AkLisp.eof := isEof
      have goes : toChr AkLisp.eof ≠ code '\n' := by decide
      simp only [if_neg goes, seen, bind, Except.bind, if_true]
      exact ⟨[], onFile₁, rfl, rfl⟩
  | cons c p ih =>
      obtain ⟨fuel, rfl⟩ := Nat.exists_eq_add_of_lt enough
      refine onFile.getc.bind fun (ch, dev₁) ⟨chEq, onFile₁, _, countEq⟩ => ?_
      obtain rfl : ch = c := chEq
      rw [openShebang, ← countEq]
      by_cases newline : toChr ch = code '\n'
      · simp only [if_pos newline]
        exact ⟨p, onFile₁, by simp, rfl⟩
      · simp only [if_neg newline]
        refine onFile₁.eof.bind fun seen atEnd => ?_
        cases seen with
        | true =>
            obtain rfl := atEnd rfl
            exact ⟨[], onFile₁, rfl, rfl⟩
        | false =>
            have less : p.length < (ch :: p).length + fuel := by
              rw [List.length_cons]
              omega
            refine (ih onFile₁ less).mono fun r ⟨q, onFile', kept⟩ => ⟨q, onFile', ?_⟩
            cases ended : r.1 with
            | true => simpa only [ended, if_true] using kept
            | false =>
                simp only [ended, Bool.false_eq_true, if_false] at kept ⊢
                exact ⟨kept.1.trans (Nat.lt_succ_self _), kept.2⟩

/-- What a token leaves of a file with at most `n` characters: it is no longer
than before, and shorter behind a token that is not the end of the input. -/
structure Left (n : Nat) (r : Token × Dev) (q : List Chr) : Prop where
  onFile : r.2.OnFile q
  notMore : q.length ≤ n
  less : r.1 ≠ .tEOF → q.length < n
  ended : r.1 = .tEOF → q = [] ∨ q.length < n
  hasText : r.1 = .tATOM → r.2.HasText

/-- A token has been read from a file with at most `n` characters. -/
def Lexed (n : Nat) (r : Token × Dev) : Prop := ∃ q, Left n r q

theorem Behind.lexed (behind : dev.Behind p) {n : Nat} (less : p.length < n) {tok : Token}
    (hasText : tok = .tATOM → dev.HasText) : Lexed n (tok, dev) := by
  obtain ⟨q, onFile, shorter⟩ := behind
  have shorter := shorter.trans_lt less
  exact ⟨q, onFile, shorter.le, fun _ => shorter, fun _ => .inr shorter, hasText⟩

/-- A character is looked at and pushed back. -/
theorem OnFile.peek (onFile : dev.OnFile p) :
    Returns (fun r => r.2.Behind p ∧
      Returns (fun r' => r'.2.Behind p) (r.2.aklIoUngetc (toChr r.1))) dev.aklIoGetc := by
  cases p with
  | nil =>
      refine onFile.getc_nil.mono fun (ch, dev₁) ⟨isEof, onFile₁, _⟩ => ⟨onFile₁.behind, ?_⟩
      obtain rfl : ch = AkLisp.eof := isEof
      exact (onFile₁.ungetc (toChr AkLisp.eof)).mono fun r ⟨onFile₂, _⟩ => onFile₂.behind
  | cons c p =>
      refine onFile.getc.mono fun (ch, dev₁) ⟨_, onFile₁, _⟩ => ⟨onFile₁.behind.cons, ?_⟩
      exact (onFile₁.ungetc_behind (toChr ch)).mono fun r ⟨behind, _⟩ => behind

/-- A character that is pushed back is the next one to be read. -/
theorem OnFile.ungetc_char (onFile : dev.OnFile p) (notEof : ch ≠ AkLisp.eof) :
    Returns (fun r => r.2.OnFile (ch % 256 :: p)) (dev.aklIoUngetc ch) := by
  refine (onFile.ungetc ch).mono fun r ⟨onFile', _⟩ => ?_
  rwa [if_neg notEof] at onFile'

theorem toChr_emod (ch : Chr) : toChr (ch % 256) = toChr ch := by
  simp [toChr]

theorem toChr_toChr (ch : Chr) : toChr (toChr ch) = toChr ch := by
  simp [toChr]

theorem OnFile.lexNumber (onFile : dev.OnFile p) (op : Chr) (small : toChr ch = ch)
    (digit : isdigit ch) {n : Nat} (less : p.length < n) :
    Returns (Lexed n) (dev.lexNumber op ch) := by
  have notEof : ch ≠ AkLisp.eof := by
    rintro rfl
    exact absurd digit (by decide)
  have nonzero : ch % 256 ≠ 0 := by
    intro zero
    have chEq := toChr_emod ch
    rw [zero, small] at chEq
    obtain rfl : ch = 0 := chEq.symm.trans (by decide)
    exact absurd digit (by decide)
  have valid : isValidInNumber (toChr (ch % 256)) := by
    rw [toChr_emod, small, isValidInNumber, if_pos digit]
  refine (onFile.ungetc_char notEof).bind ?_
  rintro ⟨a, dev₁⟩ onFile₁
  have copied : Returns (fun r => r.2.Behind p) (dev₁.copyNumber op) := by
    unfold Dev.copyNumber
    split
    · refine (onFile₁.put onFile₁.holds op).bind ?_
      rintro dev₂ ⟨onFile₂, holds₂, -⟩
      have loop := onFile₂.copyNumberLoop holds₂ (show _ < dev₂.rounds by simp [onFile₂.rounds])
      exact loop.mono fun r stopped => stopped.2 _ _ rfl nonzero valid
    · have loop := onFile₁.copyNumberLoop onFile₁.holds
        (show _ < dev₁.rounds by simp [onFile₁.rounds])
      exact loop.mono fun r stopped => stopped.2 _ _ rfl nonzero valid
  exact copied.bind fun r behind => behind.lexed less Token.noConfusion

theorem OnFile.lexString (onFile : dev.OnFile p) {n : Nat} (less : p.length < n) :
    Returns (Lexed n) dev.lexString := by
  refine onFile.peek.bind fun (c, dev₁) ⟨behind₁, back⟩ => ?_
  dsimp only
  split
  · exact behind₁.lexed less Token.noConfusion
  · refine back.bind fun (a, dev₂) ⟨q, onFile₂, notMore⟩ => ?_
    have loop := onFile₂.copyStringLoop onFile₂.holds
      (show _ < dev₂.rounds by simp [onFile₂.rounds])
    refine loop.bind fun (a, dev₃) behind₃ => ?_
    exact behind₃.lexed (notMore.trans_lt less) Token.noConfusion

theorem OnFile.lexOpen (onFile : dev.OnFile p) {n : Nat} (less : p.length < n) :
    Returns (Lexed n) dev.lexOpen := by
  have moved : OnFile { dev with iodColumn := dev.iodCharCount + 1 } p :=
    ⟨onFile.source, onFile.room, onFile.backlog⟩
  refine moved.peek.bind fun (c, dev₁) ⟨behind₁, back⟩ => ?_
  dsimp only
  split
  · exact behind₁.lexed less Token.noConfusion
  · exact back.bind fun (a, dev₂) behind₂ => behind₂.lexed less Token.noConfusion

/-- An atom from its first character on, with or without a sign before it. -/
theorem OnFile.atomToken (onFile : dev.OnFile p) {n : Nat} (small : toChr ch = ch)
    (ends : endsAtom ch = false) (notEof : ch ≠ AkLisp.eof) (nonzero : ch ≠ 0)
    (less : p.length < n) :
    Returns (Lexed n) (do
      let (_, dev) ← dev.aklIoUngetc ch
      let (_, dev) ← dev.copyAtom
      if strcasecmpEq dev.bufferText ("NIL".toList.map code) then return (.tNIL, dev)
      else if strcasecmpEq dev.bufferText ("T".toList.map code) then return (.tTRUE, dev)
      else return (.tATOM, dev)) := by
  refine (onFile.ungetc_char notEof).bind ?_
  rintro ⟨a, dev₁⟩ onFile₁
  have loop := onFile₁.copyAtomLoop onFile₁.holds
    (show _ < dev₁.rounds by simp [onFile₁.rounds])
  refine loop.bind ?_
  rintro ⟨a, dev₂⟩ ⟨_, _, first⟩
  obtain ⟨behind, hasText⟩ := first _ _ rfl (by rwa [toChr_emod, small])
    (by rwa [toChr_emod, small])
  dsimp only
  split
  · exact behind.lexed less Token.noConfusion
  · split
    · exact behind.lexed less Token.noConfusion
    · exact behind.lexed less fun _ => hasText

/-- A pending sign is pushed back in front of the atom and is counted to what is
left behind it. -/
theorem OnFile.lexAtom (onFile : dev.OnFile p) {op : Chr} {n : Nat} (small : toChr ch = ch)
    (atom : classOf ch = .atom) (nonzero : ch ≠ 0) (less : p.length < n)
    (pending : op ≠ 0 → p.length + 1 < n) : Returns (Lexed n) (dev.lexAtom op ch) := by
  have ends : endsAtom ch = false := CharClass.is_of_eq atom
  have notEof : ch ≠ AkLisp.eof := by
    rintro rfl
    exact absurd atom (by decide)
  unfold Dev.lexAtom
  by_cases signed : op = code '+' ∨ op = code '-'
  · have isSign : op ≠ AkLisp.eof ∧ op ≠ 0 := by
      rcases signed with rfl | rfl <;> decide
    simp only [if_pos signed]
    refine (onFile.ungetc_char isSign.1).bind ?_
    rintro ⟨a, dev₁⟩ onFile₁
    exact onFile₁.atomToken small ends notEof nonzero (pending isSign.2)
  · simp only [if_neg signed]
    exact onFile.atomToken small ends notEof nonzero less

theorem Lexed.mono {n m : Nat} {r : Token × Dev} (lexed : Lexed n r) (le : n ≤ m) : Lexed m r := by
  obtain ⟨q, left⟩ := lexed
  exact ⟨q, left.onFile, left.notMore.trans le, fun more => (left.less more).trans_le le,
    fun ended => (left.ended ended).imp_right fun less => less.trans_le le, left.hasText⟩

theorem OnFile.lexed_tEOF (onFile : dev.OnFile p) {n : Nat} (less : p = [] ∨ p.length < n) :
    Lexed n (.tEOF, dev) := by
  refine ⟨p, onFile, ?_, fun more => absurd rfl more, fun _ => less, Token.noConfusion⟩
  rcases less with rfl | less
  · exact Nat.zero_le n
  · exact less.le

/-- The `switch` of `akl_lex` behind a character. -/
def lexBranch (fuel : Nat) (op ch : Chr) (dev : Dev) : Except Fault (Token × Dev) :=
  match classOf ch with
  | .endOfFile => return (.tEOF, dev)
  | .newline =>
      lexLoop fuel op { dev with iodLineCount := dev.iodLineCount + 1, iodCharCount := 0 }
  | .sign =>
      if op ≠ 0 then do
        let dev ← dev.signAtom op 2
        return (.tATOM, dev)
      else lexLoop fuel ch dev
  | .digit => dev.lexNumber op ch
  | .delimiter =>
      let dev := { dev with iodColumn := dev.iodCharCount + 1 }
      if op ≠ 0 then do
        let dev ← dev.signAtom op 1
        if ch = code ')' then
          let (_, dev) ← dev.aklIoUngetc ch
          return (.tATOM, dev)
        else return (.tATOM, dev)
      else if ch = code ')' then return (.tRBRACE, dev)
      else lexLoop fuel op dev
  | .doubleQuote => dev.lexString
  | .opening => dev.lexOpen
  | .quote => return (.tQUOTE, dev)
  | .semicolon => do
      let (ended, dev) ← skipComment dev.rounds dev
      if ended then return (.tEOF, dev) else lexLoop fuel op dev
  | .atom => dev.lexAtom op ch
  | .other => lexLoop fuel op dev

theorem lexLoop_succ (fuel : Nat) (op : Chr) (dev : Dev) :
    lexLoop (fuel + 1) op dev = dev.aklIoGetc >>= fun (c, dev) =>
      if toChr c = 0 then .ok (.tEOF, dev)
      else if dev.iodCharCount = 1 ∧ toChr c = code '#' then
        Dev.skipShebang dev.rounds dev >>= fun (ch, dev) => lexBranch fuel op ch dev
      else lexBranch fuel op (toChr c) dev := by
  rfl

/-- The lexer hangs or reads a token. -/
def Scans (stuck : Bool) (n : Nat) (x : Except Fault (Token × Dev)) : Prop :=
  if stuck then x = .error .hang else Returns (Lexed n) x

theorem Scans.mono {stuck : Bool} {n m : Nat} {x : Except Fault (Token × Dev)}
    (scans : Scans stuck n x) (le : n ≤ m) : Scans stuck m x := by
  cases stuck with
  | true => exact scans
  | false => exact Returns.mono scans fun r lexed => lexed.mono le

/-- How many characters a pending sign stands for. -/
def signs (op : Chr) : Nat := if op = 0 then 0 else 1

theorem signs_le (op : Chr) : signs op ≤ 1 := by
  unfold signs
  split <;> decide

theorem signs_pos {op : Chr} (pending : op ≠ 0) : signs op = 1 := if_neg pending

theorem OnFile.signAtom (onFile : dev.OnFile p) (op : Chr) {times : Nat} (few : times ≤ 2)
    (nonempty : times ≠ 0) :
    Returns (fun dev' => dev'.OnFile p ∧ dev'.HasText) (dev.signAtom op times) := by
  obtain ⟨block, buffer, large⟩ := onFile.room
  generalize textEq : List.replicate times (if op = code '+' then code '+' else code '-') = text
  have lengthEq : text.length = times := by rw [← textEq, List.length_replicate]
  obtain ⟨block', strcpyEq, filled⟩ := strcpy_filled buffer large (lengthEq ▸ few)
  rw [Dev.signAtom, textEq, strcpyEq]
  refine ⟨⟨onFile.source, ⟨block', rfl, filled.1⟩, onFile.backlog⟩, ?_⟩
  refine Holds.hasText ⟨block', rfl, filled⟩ ?_
  rintro rfl
  exact nonempty lengthEq.symm

/-- `openShebang` behind a character. -/
def openBranch (count : UInt32) (op ch : Chr) (r : List Chr) : Bool :=
  match classOf ch with
  | .newline => openShebang .between 0 op r
  | .sign => if op ≠ 0 then false else openShebang .between count ch r
  | .delimiter =>
      if op ≠ 0 ∨ ch = code ')' then false else openShebang .between count op r
  | .semicolon => openShebang .comment count op r
  | .other => openShebang .between count op r
  | _ => false

theorem openShebang_cons (count : UInt32) (op c : Chr) (r : List Chr) :
    openShebang .between count op (c :: r) =
      if toChr c = 0 then false
      else if count + 1 = 1 ∧ toChr c = code '#' then openShebang .shebang (count + 1) op r
      else openBranch (count + 1) op (toChr c) r := by
  rw [openShebang]
  rfl

theorem OnFile.moved (onFile : dev.OnFile p) (line count column : UInt32) :
    OnFile { dev with iodLineCount := line, iodCharCount := count, iodColumn := column } p :=
  ⟨onFile.source, onFile.room, onFile.backlog⟩

/-- A branch of `akl_lex`, provided that the loop is right on what is left. -/
theorem OnFile.lexBranch (onFile : dev.OnFile p) (small : toChr ch = ch) (op : Chr) {fuel : Nat}
    (loop : ∀ {dev : Dev} {q : List Chr} (op : Chr), dev.OnFile q → q.length ≤ p.length →
      Scans (openShebang .between dev.iodCharCount op q) (q.length + signs op)
        (Dev.lexLoop fuel op dev)) :
    Scans (openBranch dev.iodCharCount op ch p) (p.length + 1 + signs op)
      (dev.lexBranch fuel op ch) := by
  have less : p.length < p.length + 1 + signs op := by omega
  have again {dev : Dev} (onFile : dev.OnFile p) :
      Scans (openShebang .between dev.iodCharCount op p) (p.length + 1 + signs op)
        (Dev.lexLoop fuel op dev) :=
    (loop op onFile le_rfl).mono (by omega)
  unfold Dev.lexBranch openBranch
  cases branch : classOf ch with
  | endOfFile => exact onFile.lexed_tEOF (.inr less)
  | newline => exact again (onFile.moved _ 0 dev.iodColumn)
  | sign =>
      by_cases pending : op ≠ 0
      · simp only [if_pos pending]
        refine (onFile.signAtom op le_rfl (by decide)).bind fun dev' ⟨onFile', hasText⟩ => ?_
        exact onFile'.behind.lexed less fun _ => hasText
      · simp only [if_neg pending]
        refine (loop ch onFile le_rfl).mono ?_
        have := signs_le ch
        omega
  | digit =>
      have digit : isdigit ch = true := CharClass.is_of_eq branch
      exact onFile.lexNumber op small digit less
  | delimiter =>
      have moved := onFile.moved dev.iodLineCount dev.iodCharCount (dev.iodCharCount + 1)
      by_cases pending : op ≠ 0
      · simp only [if_pos pending, if_pos (Or.inl pending : op ≠ 0 ∨ ch = code ')')]
        refine (moved.signAtom op (by decide) (by decide)).bind fun dev' ⟨onFile', hasText⟩ => ?_
        split
        · refine (onFile'.ungetc_behind (c := 0) ch).bind fun (a, dev₂) ⟨behind, bufferEq⟩ => ?_
          refine behind.lexed ?_ fun _ => hasText.of_buffer bufferEq
          rw [signs_pos pending, List.length_cons]
          omega
        · exact onFile'.behind.lexed less fun _ => hasText
      · by_cases close : ch = code ')'
        · simp only [if_neg pending, if_pos close, if_pos (Or.inr close : op ≠ 0 ∨ ch = code ')')]
          exact moved.behind.lexed less Token.noConfusion
        · simp only [if_neg pending, if_neg close, if_neg (not_or.mpr ⟨pending, close⟩)]
          exact again moved
  | doubleQuote => exact onFile.lexString less
  | opening => exact onFile.lexOpen less
  | quote => exact onFile.behind.lexed less Token.noConfusion
  | semicolon =>
      have skipped := onFile.skipComment (show _ < dev.rounds by simp [onFile.rounds]) op
      obtain ⟨⟨ended, dev'⟩, skipEq, q, onFile', kept⟩ := skipped.exists
      simp only [skipEq, bind, Except.bind]
      cases ended with
      | true =>
          obtain ⟨rfl, openEq⟩ := kept
          rw [openEq]
          exact onFile'.lexed_tEOF (.inl rfl)
      | false =>
          obtain ⟨shorter, openEq⟩ := kept
          rw [openEq]
          exact (loop op onFile' shorter.le).mono (by omega)
  | atom =>
      refine onFile.lexAtom small branch ?_ less fun pending => ?_
      · rintro rfl
        exact absurd branch (by decide)
      · rw [signs_pos pending]
        omega
  | other => exact again onFile

/-- On a file the loop of `akl_lex` returns a token, unless a shebang line is not
ended. -/
theorem OnFile.lexLoop (onFile : dev.OnFile p) {fuel : Nat} (enough : p.length < fuel)
    (op : Chr) :
    Scans (openShebang .between dev.iodCharCount op p) (p.length + signs op)
      (Dev.lexLoop fuel op dev) := by
  induction fuel generalizing dev p op with
  | zero => exact absurd enough (Nat.not_lt_zero _)
  | succ fuel ih =>
      rw [lexLoop_succ]
      cases p with
      | nil =>
          have inner : toChr AkLisp.eof ≠ 0 ∧ toChr AkLisp.eof ≠ code '#' := by decide
          refine onFile.getc_nil.bind fun (ch, dev₁) ⟨isEof, onFile₁, _⟩ => ?_
          obtain rfl : ch = AkLisp.eof := isEof
          simp only [if_neg inner.1, inner.2, and_false, if_false]
          exact onFile₁.lexed_tEOF (.inl rfl)
      | cons c p =>
          obtain ⟨⟨ch, dev₁⟩, getcEq, chEq, onFile₁, -, countEq⟩ := onFile.getc.exists
          obtain rfl : ch = c := chEq
          have loop {dev : Dev} {q : List Chr} (op : Chr) (onFile : dev.OnFile q)
              (notMore : q.length ≤ p.length) := ih onFile
                (notMore.trans_lt (Nat.lt_of_succ_lt_succ enough)) op
          rw [openShebang_cons, ← countEq]
          simp only [getcEq, bind, Except.bind]
          by_cases zero : toChr ch = 0
          · simp only [if_pos zero]
            exact onFile₁.lexed_tEOF (.inr (by simp; omega))
          · simp only [if_neg zero]
            by_cases shebang : dev₁.iodCharCount = 1 ∧ toChr ch = code '#'
            · simp only [if_pos shebang]
              have skipped := onFile₁.skipShebang
                (show _ < dev₁.rounds by simp [onFile₁.rounds]) op
              rcases skipped with ⟨hangs, openEq⟩ | returns
              · rw [hangs, openEq]
                rfl
              · obtain ⟨⟨last, dev₂⟩, skipEq, ended, q, onFile₂, less, openEq⟩ := returns.exists
                have shorter : q.length + signs op ≤ (ch :: p).length + signs op := by
                  rw [List.length_cons]
                  exact Nat.add_le_add_right (less.le.trans (Nat.le_succ _)) _
                rw [openEq, skipEq]
                rcases ended with rfl | rfl
                · exact (loop op onFile₂ less.le).mono shorter
                · exact (loop op (onFile₂.moved _ 0 dev₂.iodColumn) less.le).mono shorter
            · simp only [if_neg shebang]
              exact onFile₁.lexBranch (toChr_toChr ch) op loop

/-- A file with the characters `p` still to be read, between two calls of the
lexer.  When an atom has been put back, its text is in the buffer. -/
structure FileWith (dev : Dev) (p : List Chr) : Prop where
  source : ∃ seen, dev.iodSource = .file p seen ∧ (seen = true → p = [])
  room : ∀ block, dev.iodBuffer = some block → defBufferSize ≤ block.length
  backlog : dev.iodBuffer ≠ none → dev.iodBacklog = .tATOM → dev.HasText

/-- The token that is put back; the backlog of a device without a buffer is not
initialised. -/
def putBack (dev : Dev) : Token := if dev.iodBuffer.isNone then .tEOF else dev.iodBacklog

/-- How many tokens can be read at most. -/
def left (dev : Dev) : Nat :=
  (match dev.iodSource with
    | .file p _ => p.length
    | .string _ _ => 0) + if dev.putBack = .tEOF then 0 else 1

/-- `akl_lex` comes to a shebang line that the end of the file ends. -/
def stuck (dev : Dev) : Bool :=
  match dev.iodSource with
  | .file p _ => decide (dev.putBack = .tEOF) && openShebang .between dev.iodCharCount 0 p
  | .string _ _ => false

theorem FileWith.left_eq (file : dev.FileWith p) :
    dev.left = p.length + if dev.putBack = .tEOF then 0 else 1 := by
  obtain ⟨seen, source, -⟩ := file.source
  rw [left, source]

theorem FileWith.stuck_eq (file : dev.FileWith p) :
    dev.stuck = (decide (dev.putBack = .tEOF) && openShebang .between dev.iodCharCount 0 p) := by
  obtain ⟨seen, source, -⟩ := file.source
  rw [stuck, source]

theorem OnFile.file (onFile : dev.OnFile p) : dev.FileWith p := by
  obtain ⟨block, buffer, large⟩ := onFile.room
  refine ⟨onFile.source, ?_, fun _ atom => ?_⟩
  · intro block' buffer'
    cases buffer.symm.trans buffer'
    exact large
  · exact absurd (onFile.backlog.symm.trans atom) Token.noConfusion

theorem OnFile.left_eq (onFile : dev.OnFile p) : dev.left = p.length := by
  have none : dev.putBack = .tEOF := by
    rw [putBack, onFile.backlog, ite_self]
  rw [onFile.file.left_eq, if_pos none, Nat.add_zero]

theorem OnFile.stuck_nil (onFile : dev.OnFile []) : dev.stuck = false := by
  rw [onFile.file.stuck_eq]
  exact Bool.and_false _

/-- A token that was put back has been read; otherwise a file is ready to be
scanned. -/
theorem FileWith.started (file : dev.FileWith p) (none : dev.putBack = .tEOF) :
    dev.started.OnFile p ∧ dev.started.iodCharCount = dev.iodCharCount := by
  unfold putBack at none
  unfold Dev.started
  cases buffer : dev.iodBuffer with
  | none =>
      refine ⟨⟨file.source, ⟨_, rfl, ?_⟩, rfl⟩, rfl⟩
      simp
  | some block =>
      rw [buffer] at none
      exact ⟨⟨file.source, ⟨block, buffer, file.room block buffer⟩, none⟩, rfl⟩

/-- `akl_lex` returns a token of a file, unless a shebang line is not ended. -/
theorem FileWith.aklLex (file : dev.FileWith p) : Scans dev.stuck dev.left dev.aklLex := by
  rw [file.stuck_eq, file.left_eq]
  by_cases none : dev.putBack = .tEOF
  · obtain ⟨onFile, countEq⟩ := file.started none
    have loop := onFile.lexLoop (show _ < dev.started.rounds by simp [onFile.rounds]) 0
    rw [countEq] at loop
    simp only [none, decide_true, Bool.true_and, if_true, Dev.aklLex, onFile.backlog, ne_eq,
      not_true, if_false]
    exact loop
  · simp only [none, decide_false, Bool.false_and, if_false]
    unfold putBack at none
    cases buffer : dev.iodBuffer with
    | none => simp [buffer] at none
    | some block =>
        simp only [buffer, Option.isNone_some, Bool.false_eq_true, if_false] at none
        have startedEq : dev.started = dev := by simp [Dev.started, buffer]
        simp only [Dev.aklLex, startedEq, ne_eq, none, not_false_eq_true, if_true]
        have cleared : OnFile { dev with iodBacklog := .tEOF } p :=
          ⟨file.source, ⟨block, buffer, file.room block buffer⟩, rfl⟩
        refine cleared.behind.lexed (Nat.lt_succ_self _) fun atom => ?_
        exact file.backlog (by simp [buffer]) atom

/-- A token is put back behind `akl_lex`. -/
theorem Left.putback {n : Nat} {tok : Token} {q : List Chr} (left : Left n (tok, dev) q) :
    FileWith { dev with iodBacklog := tok } q ∧ Dev.left { dev with iodBacklog := tok } ≤ n := by
  have file : FileWith { dev with iodBacklog := tok } q :=
    ⟨left.onFile.source, left.onFile.file.room, fun _ atom => left.hasText atom⟩
  refine ⟨file, ?_⟩
  rw [file.left_eq]
  obtain ⟨block, buffer, -⟩ := left.onFile.room
  replace buffer : dev.iodBuffer = some block := buffer
  by_cases ended : tok = .tEOF
  · simp [putBack, ended, left.notMore]
  · simpa [putBack, buffer, ended] using Nat.succ_le_of_lt (left.less ended)

theorem FileWith.takeText (file : dev.FileWith p) {text : List Chr} {dev' : Dev}
    (taken : dev.takeText = .ok (text, dev')) : dev'.FileWith p ∧ dev'.left = dev.left := by
  unfold Dev.takeText at taken
  cases buffer : dev.iodBuffer with
  | none =>
      rw [buffer] at taken
      cases taken
  | some block =>
      rw [buffer] at taken
      by_cases terminated : 0 ∈ block
      · simp only [if_pos terminated] at taken
        cases taken
        refine ⟨⟨file.source, ?_, fun _ _ => ⟨_, rfl, ?_⟩⟩, ?_⟩
        · rintro block' ⟨⟩
          rw [List.length_set]
          exact file.room block buffer
        · cases block with
          | nil => cases terminated
          | cons a block => exact List.mem_cons_self
        · simp [left, putBack, buffer]
      · simp only [if_neg terminated] at taken
        cases taken

theorem HasText.takeText (hasText : dev.HasText) :
    ∃ text dev', dev.takeText = .ok (text, dev') := by
  obtain ⟨block, buffer, terminated⟩ := hasText
  refine ⟨dev.bufferText, { dev with iodBuffer := some (block.set 0 0) }, ?_⟩
  simp only [Dev.takeText, buffer, if_pos terminated]

/-- Fetching a text ends. -/
theorem takeText_ends {e : Fault} (failed : dev.takeText = .error e) :
    e ≠ .hang ∧ e ≠ .outOfFuel := by
  unfold Dev.takeText at failed
  split at failed
  · cases failed
    decide
  · split at failed
    · cases failed
    · cases failed
      decide

theorem FileWith.free (file : dev.FileWith p) :
    dev.aklLexFree.FileWith p ∧ dev.aklLexFree.left ≤ dev.left := by
  have freed : dev.aklLexFree.FileWith p :=
    ⟨file.source, (by rintro _ ⟨⟩), fun none => absurd rfl none⟩
  refine ⟨freed, ?_⟩
  rw [freed.left_eq, file.left_eq]
  have none : dev.aklLexFree.putBack = .tEOF := rfl
  rw [if_pos none]
  omega

/-- A file that has just been opened. -/
theorem aklNewFileDevice_file (fresh : Nat → Chr) (content : List Chr)
    (charCount column : UInt32) (backlog : Token) :
    (aklNewFileDevice fresh content charCount column backlog).FileWith content :=
  ⟨⟨false, rfl, Bool.noConfusion⟩, (by rintro _ ⟨⟩), fun none => absurd rfl none⟩

end Dev

end AkLisp
