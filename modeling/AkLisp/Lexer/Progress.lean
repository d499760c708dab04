import AkLisp.Lexer.Buffer

/-!
# Every token takes a character

The copying loops push back at most the character they have just read.  In front
of an atom the loop of `akl_lex` pushes back one character more when a sign is
pending.  The sign is then at the place where the call started or behind it, and
at that place `copy_atom` reads it again.
-/

namespace AkLisp

open Outcome

namespace Dev

/-- The device reads the string, from the place on or from a place behind it. -/
def From (dev : Dev) (str : List Chr) (pos : Nat) : Prop :=
  ∃ iodPos, dev.iodSource = .string str iodPos ∧ pos ≤ iodPos

/-- The last character read stands at the place. -/
structure HasRead (dev : Dev) (str : List Chr) (pos : Nat) (ch : Chr) : Prop where
  source : dev.iodSource = .string str (pos + 1)
  char : ∃ c, charAt str pos = .ok c ∧ toChr c = ch

variable {dev : Dev} {str : List Chr} {pos start : Nat} {ch op : Chr}

theorem HasRead.from (read : dev.HasRead str pos ch) : dev.From str (pos + 1) :=
  ⟨pos + 1, read.source, Nat.le_refl _⟩

theorem From.mono (from_ : dev.From str pos) (before : start ≤ pos) : dev.From str start := by
  obtain ⟨iodPos, source, behind⟩ := from_
  exact ⟨iodPos, source, Nat.le_trans before behind⟩

theorem ensures_getc (source : dev.iodSource = .string str pos) :
    Ensures (fun p => p.2.HasRead str pos (toChr p.1)) dev.aklIoGetc := by
  unfold aklIoGetc
  rw [source, Source.getc]
  cases charEq : charAt str pos with
  | error fault => trivial
  | ok c => exact ⟨rfl, c, charEq, rfl⟩

theorem From.getc (from_ : dev.From str pos) :
    Ensures (fun p => p.2.From str (pos + 1)) dev.aklIoGetc := by
  obtain ⟨iodPos, source, behind⟩ := from_
  exact (ensures_getc source).mono fun _ read => read.from.mono (Nat.succ_le_succ behind)

theorem ensures_ungetc (source : dev.iodSource = .string str (pos + 1)) (c : Chr) :
    Ensures (fun p => p.2.iodSource = .string str pos) (dev.aklIoUngetc c) := by
  unfold aklIoUngetc
  rw [source, Source.ungetc]
  cases charAt str pos with
  | error fault => trivial
  | ok c => exact rfl

theorem From.ungetc (from_ : dev.From str (pos + 1)) (c : Chr) :
    Ensures (fun p => p.2.From str pos) (dev.aklIoUngetc c) := by
  obtain ⟨iodPos, source, behind⟩ := from_
  obtain ⟨iodPos, rfl⟩ : ∃ n, iodPos = n + 1 := ⟨iodPos - 1, by omega⟩
  refine (ensures_ungetc source c).mono fun p source => ?_
  exact ⟨iodPos, source, Nat.le_of_succ_le_succ behind⟩

theorem ensures_putBuffer (dev : Dev) (i : Nat) (c : Chr) :
    Ensures (fun dev' => dev'.iodSource = dev.iodSource) (dev.putBuffer i c) := by
  unfold putBuffer
  cases dev.iodBuffer with
  | none => trivial
  | some block =>
      dsimp only
      generalize (if block.length ≤ i + 1 then _ else block) = grown
      split
      · exact rfl
      · trivial

theorem From.putBuffer (from_ : dev.From str pos) (i : Nat) (c : Chr) :
    Ensures (From · str pos) (dev.putBuffer i c) :=
  (dev.ensures_putBuffer i c).mono fun dev' source => by rwa [From, source]

theorem From.strcpy (from_ : dev.From str pos) (text : List Chr) :
    Ensures (From · str pos) (dev.strcpy text) := by
  unfold Dev.strcpy
  cases dev.iodBuffer with
  | none => trivial
  | some block =>
      dsimp only
      split
      · exact from_
      · trivial

theorem From.copyNumberLoop (from_ : dev.From str pos) (fuel i : Nat) :
    Ensures (fun p => p.2.From str pos) (Dev.copyNumberLoop fuel i dev) := by
  induction fuel generalizing i dev with
  | zero => trivial
  | succ fuel ih =>
      refine from_.getc.bind fun (c, dev) from_ => ?_
      have later := from_.mono (Nat.le_succ pos)
      dsimp only
      split
      · exact later
      · split
        · refine (later.putBuffer i _).bind fun dev from_ => Ensures.any.bind fun ended _ => ?_
          cases ended with
          | true => exact from_
          | false => exact ih from_ (i + 1)
        · exact (from_.ungetc c).bind fun (_, dev) from_ => from_

/-- `copy_number` takes its first digit. -/
theorem ensures_copyNumber (source : dev.iodSource = .string str pos)
    (char : ∃ c, charAt str pos = .ok c ∧ toChr c = ch) (digit : isdigit ch = true) (op : Chr) :
    Ensures (fun p => p.2.From str (pos + 1)) (dev.copyNumber op) := by
  have loop {dev : Dev} (source : dev.iodSource = .string str pos) (fuel i : Nat) :
      Ensures (fun p => p.2.From str (pos + 1)) (Dev.copyNumberLoop fuel i dev) := by
    cases fuel with
    | zero => trivial
    | succ fuel =>
        refine (ensures_getc source).bind fun (c, dev) read => ?_
        obtain ⟨c', charEq, isChar⟩ := char
        obtain ⟨c'', charEq', isChar'⟩ := read.char
        obtain rfl : c' = c'' := Except.ok.inj (charEq.symm.trans charEq')
        have valid : isValidInNumber (toChr c) = true := by
          rw [← isChar', isChar, isValidInNumber, if_pos digit]
        dsimp only
        split
        · exact read.from
        · refine (read.from.putBuffer i _).bind fun dev from_ => Ensures.any.bind fun ended _ => ?_
          cases ended with
          | true => exact from_
          | false => exact from_.copyNumberLoop fuel (i + 1)
  unfold copyNumber
  split
  · refine (dev.ensures_putBuffer 0 op).bind fun dev' kept => ?_
    exact loop (kept.trans source) _ 1
  · exact loop source _ 0

theorem From.copyStringLoop (from_ : dev.From str pos) (fuel i : Nat) :
    Ensures (fun p => p.2.From str pos) (Dev.copyStringLoop fuel i dev) := by
  -- a character has been put, and the loop goes on unless the input has ended
  have put (fuel : Nat) (ih : ∀ {dev : Dev}, dev.From str pos → ∀ i,
      Ensures (fun p => p.2.From str pos) (Dev.copyStringLoop fuel i dev)) (n : Nat) (dev : Dev)
      (from_ : dev.From str pos) : Ensures (fun p => p.2.From str pos)
        (do if ← dev.aklIoEof then return (n, dev) else Dev.copyStringLoop fuel n dev) := by
    refine Ensures.any.bind fun ended _ => ?_
    cases ended with
    | true => exact from_
    | false => exact ih from_ n
  induction fuel generalizing i dev with
  | zero => trivial
  | succ fuel ih =>
      refine from_.getc.bind fun (c, dev) from_ => ?_
      have later := from_.mono (Nat.le_succ pos)
      dsimp only
      split
      · exact later
      · split
        · refine later.getc.bind fun (c, dev) from_ => ?_
          have later := from_.mono (Nat.le_succ pos)
          dsimp only
          split
          · exact (later.putBuffer i _).bind fun dev from_ =>
              put fuel (fun from_ i => ih from_ i) _ dev from_
          · refine (later.putBuffer i _).bind fun dev from_ => ?_
            exact (from_.putBuffer (i + 1) _).bind fun dev from_ =>
              put fuel (fun from_ i => ih from_ i) _ dev from_
        · split
          · exact (later.putBuffer i _).bind fun dev from_ =>
              put fuel (fun from_ i => ih from_ i) _ dev from_
          · exact later

theorem From.copyAtomLoop (from_ : dev.From str pos) (fuel i : Nat) :
    Ensures (fun p => p.2.From str pos) (Dev.copyAtomLoop fuel i dev) := by
  induction fuel generalizing i dev with
  | zero => trivial
  | succ fuel ih =>
      refine from_.getc.bind fun (c, dev) from_ => ?_
      have later := from_.mono (Nat.le_succ pos)
      dsimp only
      split
      · exact later
      · split
        · exact (from_.ungetc _).bind fun (_, dev) from_ => from_
        · refine (later.putBuffer i _).bind fun dev from_ => Ensures.any.bind fun ended _ => ?_
          cases ended with
          | true => exact from_
          | false => exact ih from_ (i + 1)

/-- `copy_atom` takes a first character that does not end an atom. -/
theorem ensures_copyAtom (source : dev.iodSource = .string str pos)
    (char : ∃ c, charAt str pos = .ok c ∧ toChr c = ch) (inside : endsAtom ch = false) :
    Ensures (fun p => p.2.From str (pos + 1)) dev.copyAtom := by
  unfold copyAtom
  cases dev.rounds with
  | zero => trivial
  | succ fuel =>
      refine (ensures_getc source).bind fun (c, dev) read => ?_
      obtain ⟨c', charEq, isChar⟩ := char
      obtain ⟨c'', charEq', isChar'⟩ := read.char
      obtain rfl : c' = c'' := Except.ok.inj (charEq.symm.trans charEq')
      have stays : endsAtom (toChr c) = false := by rw [← isChar', isChar, inside]
      dsimp only
      split
      · exact read.from
      · rw [stays]
        refine (read.from.putBuffer 0 _).bind fun dev from_ => Ensures.any.bind fun ended _ => ?_
        cases ended with
        | true => exact from_
        | false => exact from_.copyAtomLoop fuel 1

/-- The loop that skips a shebang line returns the last character it has read. -/
theorem ensures_skipShebang (source : dev.iodSource = .string str pos) (fuel : Nat) :
    Ensures (fun p => ∃ pos', pos ≤ pos' ∧ p.2.HasRead str pos' p.1)
      (Dev.skipShebang fuel dev) := by
  induction fuel generalizing dev pos with
  | zero => trivial
  | succ fuel ih =>
      refine (ensures_getc source).bind fun (c, dev) read => ?_
      dsimp only
      split
      · exact ⟨pos, Nat.le_refl _, read⟩
      · refine (ih read.source).mono fun p found => ?_
        obtain ⟨pos', behind, read'⟩ := found
        exact ⟨pos', Nat.le_of_succ_le behind, read'⟩

theorem From.skipComment (from_ : dev.From str pos) (fuel : Nat) :
    Ensures (fun p => p.2.From str pos) (Dev.skipComment fuel dev) := by
  induction fuel generalizing dev with
  | zero => trivial
  | succ fuel ih =>
      refine from_.getc.bind fun (c, dev) from_ => ?_
      have later := from_.mono (Nat.le_succ pos)
      dsimp only
      split
      · exact later
      · refine Ensures.any.bind fun ended _ => ?_
        cases ended with
        | true => exact later
        | false => exact ih later

/-- A token other than `tEOF` leaves the device behind the place. -/
abbrev Takes (str : List Chr) (start : Nat) (x : Except Fault (Token × Dev)) : Prop :=
  Ensures (fun p => p.1 ≠ .tEOF → p.2.From str (start + 1)) x

theorem From.lexString (from_ : dev.From str (start + 1)) : Takes str start dev.lexString := by
  refine from_.getc.bind fun (c, dev) from_ => ?_
  dsimp only
  split
  · exact fun _ => from_.mono (Nat.le_succ _)
  · refine (from_.ungetc _).bind fun (_, dev) from_ => ?_
    exact (from_.copyStringLoop _ 0).bind fun (_, dev) from_ => fun _ => from_

theorem From.lexOpen (from_ : dev.From str (start + 1)) : Takes str start dev.lexOpen := by
  have moved : From { dev with iodColumn := dev.iodCharCount + 1 } str (start + 1) := from_
  refine moved.getc.bind fun (c, dev) from_ => ?_
  dsimp only
  split
  · exact fun _ => from_.mono (Nat.le_succ _)
  · exact (from_.ungetc _).bind fun (_, dev) from_ => fun _ => from_

/-- The pending sign has been read since the call started; if the device is just
behind the start, it stands there. -/
structure Pending (str : List Chr) (start pos : Nat) (op : Chr) : Prop where
  behind : start < pos
  char : pos = start + 1 → ∃ c, charAt str start = .ok c ∧ toChr c = op
  sign : op = code '+' ∨ op = code '-'

theorem Pending.mono (pending : Pending str start pos op) {pos' : Nat} (later : pos ≤ pos') :
    Pending str start pos' op where
  behind := Nat.lt_of_lt_of_le pending.behind later
  char := by
    intro first
    apply pending.char
    have := pending.behind
    omega
  sign := pending.sign

/-- A sign is not the end of an atom. -/
theorem Pending.inside (pending : Pending str start pos op) : endsAtom op = false := by
  rcases pending.sign with rfl | rfl
  · decide
  · decide

theorem Pending.ne_zero (pending : Pending str start pos op) : op ≠ 0 := by
  rcases pending.sign with rfl | rfl
  · decide
  · decide

theorem HasRead.lexNumber (read : dev.HasRead str pos ch) (behind : start ≤ pos)
    (digit : isdigit ch = true) (op : Chr) : Takes str start (dev.lexNumber op ch) := by
  refine (ensures_ungetc read.source ch).bind fun (_, dev) source => ?_
  refine (ensures_copyNumber source read.char digit op).bind fun (_, dev) from_ => fun _ => ?_
  exact from_.mono (Nat.succ_le_succ behind)

/-- The text of an atom only decides about the token. -/
theorem takes_atomToken {x : Except Fault (Nat × Dev)}
    (copied : Ensures (fun p => p.2.From str (start + 1)) x) :
    Takes str start (do
      let (_, dev) ← x
      if strcasecmpEq dev.bufferText ("NIL".toList.map code) then return (.tNIL, dev)
      else if strcasecmpEq dev.bufferText ("T".toList.map code) then return (.tTRUE, dev)
      else return (.tATOM, dev)) := by
  refine copied.bind ?_
  rintro ⟨_, dev⟩ from_
  dsimp only
  split
  · exact fun _ => from_
  · split
    · exact fun _ => from_
    · exact fun _ => from_

/-- With a sign pending, `copy_atom` starts at the character in front of the last
one read. -/
theorem HasRead.lexAtom (read : dev.HasRead str pos ch) (behind : start ≤ pos)
    (inside : endsAtom ch = false) (signed : op = 0 ∨ Pending str start pos op) :
    Takes str start (dev.lexAtom op ch) := by
  unfold Dev.lexAtom
  rcases signed with rfl | pending
  · have noSign : ¬((0 : Chr) = code '+' ∨ (0 : Chr) = code '-') := by decide
    rw [if_neg noSign]
    refine (ensures_ungetc read.source ch).bind ?_
    rintro ⟨_, dev⟩ source
    apply takes_atomToken
    refine (ensures_copyAtom source read.char inside).mono fun _ from_ => ?_
    exact from_.mono (Nat.succ_le_succ behind)
  · rw [if_pos pending.sign]
    obtain ⟨before, rfl⟩ : ∃ n, pos = n + 1 := ⟨pos - 1, by have := pending.behind; omega⟩
    refine (ensures_ungetc read.source op).bind ?_
    rintro ⟨_, dev⟩ source
    refine (ensures_ungetc source ch).bind ?_
    rintro ⟨_, dev⟩ source
    apply takes_atomToken
    rcases Nat.eq_or_lt_of_le (Nat.le_of_lt_succ pending.behind) with rfl | later
    · exact ensures_copyAtom source (pending.char rfl) pending.inside
    · have from_ : dev.From str (start + 1) := ⟨before, source, later⟩
      exact from_.copyAtomLoop _ 0

/-- The loop of `akl_lex` takes a character for a token. -/
theorem ensures_lexLoop (source : dev.iodSource = .string str pos) (behind : start ≤ pos)
    (signed : op = 0 ∨ Pending str start pos op) (fuel : Nat) :
    Takes str start (Dev.lexLoop fuel op dev) := by
  induction fuel generalizing op dev pos with
  | zero => trivial
  | succ fuel ih =>
      refine (ensures_getc source).bind fun (c, dev) read => ?_
      dsimp only
      split
      · exact fun notEof => absurd rfl notEof
      · have first : ∃ pos', pos ≤ pos' ∧ dev.HasRead str pos' (toChr c) :=
          ⟨pos, Nat.le_refl _, read⟩
        have shebang := (ensures_skipShebang read.source dev.rounds).mono fun p found =>
          show ∃ pos', pos ≤ pos' ∧ p.2.HasRead str pos' p.1 from
            found.imp fun _ found => ⟨Nat.le_of_succ_le found.1, found.2⟩
        refine Ensures.bindIte shebang (y := .ok (toChr c, dev)) first fun (ch, dev) found => ?_
        obtain ⟨pos', later, read⟩ := found
        have behind' := Nat.le_trans behind later
        have signed' : op = 0 ∨ Pending str start (pos' + 1) op :=
          signed.imp id fun pending => pending.mono (Nat.le_succ_of_le later)
        have next : dev.From str (start + 1) := read.from.mono (Nat.succ_le_succ behind')
        have skipped := ih read.source (Nat.le_succ_of_le behind') signed'
        dsimp only
        cases kind : classOf ch with
        | endOfFile => exact fun notEof => absurd rfl notEof
        | newline =>
            have source : Dev.iodSource
                { dev with iodLineCount := dev.iodLineCount + 1, iodCharCount := 0 } =
                  .string str (pos' + 1) := read.source
            exact ih source (Nat.le_succ_of_le behind') signed'
        | sign =>
            dsimp only
            split
            · exact (next.strcpy _).bind fun dev from_ => fun _ => from_
            · refine ih read.source (Nat.le_succ_of_le behind') (.inr ⟨by omega, ?_, ?_⟩)
              · intro first
                obtain rfl : pos' = start := by omega
                exact read.char
              · exact CharClass.is_of_eq kind
        | digit => exact read.lexNumber behind' (CharClass.is_of_eq kind) op
        | delimiter =>
            have moved : From { dev with iodColumn := dev.iodCharCount + 1 } str (start + 1) := next
            dsimp only
            rcases signed with rfl | pending
            · rw [if_neg (show ¬((0 : Chr) ≠ 0) by decide)]
              split
              · exact fun _ => moved
              · have source : Dev.iodSource { dev with iodColumn := dev.iodCharCount + 1 } =
                    .string str (pos' + 1) := read.source
                exact ih source (Nat.le_succ_of_le behind') (.inl rfl)
            · have further : From { dev with iodColumn := dev.iodCharCount + 1 } str
                  (start + 1 + 1) :=
                ⟨pos' + 1, read.source, Nat.succ_le_succ (Nat.le_trans pending.behind later)⟩
              rw [if_pos pending.ne_zero]
              refine (further.strcpy _).bind fun dev from_ => ?_
              split
              · exact (from_.ungetc ch).bind fun (_, dev) from_ => fun _ => from_
              · exact fun _ => from_.mono (Nat.le_succ _)
        | doubleQuote => exact next.lexString
        | opening => exact next.lexOpen
        | quote => exact fun _ => next
        | semicolon =>
            refine (read.from.skipComment _).bind fun (ended, dev) from_ => ?_
            obtain ⟨iodPos, source, later'⟩ := from_
            cases ended with
            | true => exact fun notEof => absurd rfl notEof
            | false =>
                exact ih source (by omega) (signed'.imp id fun pending => pending.mono later')
        | atom =>
            refine read.lexAtom behind' (CharClass.is_of_eq kind) ?_
            exact signed.imp id fun pending => pending.mono later
        | other => exact skipped

theorem started_source (dev : Dev) : dev.started.iodSource = dev.iodSource := by
  unfold started
  split
  · rfl
  · rfl

end Dev

/-- A call of `akl_lex` on a string with an empty putback slot takes a character
for its token. -/
theorem token_progress (dev dev' : Dev) (str : List Chr) (pos : Nat) (tok : Token)
    (source : dev.iodSource = .string str pos) (backlog : dev.iodBacklog = .tEOF)
    (lexEq : dev.aklLex = .ok (tok, dev')) (notEof : tok ≠ .tEOF) :
    ∃ pos', dev'.iodSource = .string str pos' ∧ pos < pos' := by
  have started : dev.started.iodSource = .string str pos := dev.started_source.trans source
  have empty : dev.started.iodBacklog = .tEOF := by
    unfold Dev.started
    split
    · rfl
    · exact backlog
  have loopEq : Dev.lexLoop dev.started.rounds 0 dev.started = .ok (tok, dev') := by
    simpa only [Dev.aklLex, empty, ne_eq, not_true, if_false] using lexEq
  have taken := Dev.ensures_lexLoop started (Nat.le_refl pos) (.inl rfl) dev.started.rounds
  exact taken.ok loopEq notEof

/-- The sign and the letter of the text `+a` are pushed back and read again. -/
theorem token_progress_sign :
    ∃ dev', (aklNewStringDevice (fun _ => 0) [code '+', code 'a'] 0 .tEOF).aklLex =
        .ok (.tATOM, dev') ∧
      ∃ pos', dev'.iodSource = .string [code '+', code 'a'] pos' ∧ 0 < pos' := by
  obtain ⟨dev', lexEq⟩ : ∃ dev',
      (aklNewStringDevice (fun _ => 0) [code '+', code 'a'] 0 .tEOF).aklLex =
        .ok (.tATOM, dev') := ⟨_, rfl⟩
  exact ⟨dev', lexEq, token_progress _ dev' _ 0 .tATOM rfl rfl lexEq (by decide)⟩

end AkLisp
