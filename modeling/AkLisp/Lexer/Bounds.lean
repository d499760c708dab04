import AkLisp.Lexer.Sound

/-!
# Where the lexer stops in a string

`Dev.Within` says at which place of a string a device is.  A call of `akl_lex`
that starts within the string and does not run off its end stays within it or
reads the terminating NUL and nothing behind; a call that starts behind the NUL
reads on.
-/

namespace AkLisp

namespace Dev

/-- The device has read `before` and is about to read `r`. -/
structure Within (dev : Dev) (before r : List Chr) : Prop where
  source : dev.iodSource = .string (before ++ r) before.length
  chars : ∀ ch ∈ before ++ r, IsStringChar ch
  room : ∃ block, dev.iodBuffer = some block ∧ defBufferSize ≤ block.length
  backlog : dev.iodBacklog = .tEOF

/-- The device is at some place within the string. -/
def Inside (dev : Dev) (str : List Chr) : Prop :=
  ∃ before r, str = before ++ r ∧ dev.Within before r

/-- The device has read the NUL behind the string. -/
structure Spent (dev : Dev) (str : List Chr) : Prop where
  source : dev.iodSource = .string str (str.length + 1)
  chars : ∀ ch ∈ str, IsStringChar ch
  room : ∃ block, dev.iodBuffer = some block ∧ defBufferSize ≤ block.length
  backlog : dev.iodBacklog = .tEOF

/-- The number of characters of the line, which is known. -/
abbrev column (dev : Dev) : Column := some dev.iodCharCount

variable {dev : Dev} {before r str done : List Chr} {ch op : Chr}

theorem Within.inside (within : dev.Within before r) : dev.Inside (before ++ r) :=
  ⟨before, r, rfl, within⟩

theorem Within.getc (within : dev.Within before (ch :: r)) :
    ∃ dev', dev.aklIoGetc = .ok (ch, dev') ∧ dev'.Within (before ++ [ch]) r ∧
      dev'.column = dev.column.next ∧ dev'.iodBuffer = dev.iodBuffer := by
  refine ⟨{ dev with
    iodSource := .string (before ++ ch :: r) (before.length + 1)
    iodCharCount := dev.iodCharCount + 1 }, ?_, ⟨?_, ?_, within.room, within.backlog⟩, rfl, rfl⟩
  · simp only [aklIoGetc, within.source, Source.getc, charAt_append]
    rfl
  · simp
  · simpa using within.chars

theorem Within.getc_nil (within : dev.Within before []) :
    ∃ dev', dev.aklIoGetc = .ok (0, dev') ∧ dev'.Spent before ∧
      dev'.iodBuffer = dev.iodBuffer := by
  have source := within.source
  rw [List.append_nil] at source
  refine ⟨{ dev with
    iodSource := .string before (before.length + 1)
    iodCharCount := dev.iodCharCount + 1 }, ?_, ⟨rfl, ?_, within.room, within.backlog⟩, rfl⟩
  · simp only [aklIoGetc, source, Source.getc, charAt_length]
    rfl
  · simpa using within.chars

theorem Within.eof_cons (within : dev.Within before (ch :: r)) : dev.aklIoEof = .ok false := by
  have nonzero := (within.chars ch (by simp)).1
  simp [aklIoEof, within.source, Source.eof?, charAt_append, nonzero, bind, Except.bind, pure,
    Except.pure]

theorem Within.eof_nil (within : dev.Within before []) : dev.aklIoEof = .ok true := by
  have source := within.source
  rw [List.append_nil] at source
  simp [aklIoEof, source, Source.eof?, charAt_length, bind, Except.bind, pure, Except.pure]

/-- Going back by one, whatever the character is. -/
theorem Within.ungetc (within : dev.Within (before ++ [ch]) r) (c : Chr) :
    ∃ dev', dev.aklIoUngetc c = .ok (ch, dev') ∧ dev'.Within before (ch :: r) ∧
      dev'.iodBuffer = dev.iodBuffer := by
  have source := within.source
  rw [List.length_append, List.length_singleton, List.append_assoc, List.singleton_append] at source
  refine ⟨{ dev with
    iodSource := .string (before ++ ch :: r) before.length
    iodCharCount := dev.iodCharCount - 1 }, ?_, ⟨rfl, ?_, within.room, within.backlog⟩, rfl⟩
  · simp only [aklIoUngetc, source, Source.ungetc, charAt_append]
    rfl
  · simpa using within.chars

theorem Spent.getc (spent : dev.Spent str) : dev.aklIoGetc = .error .outOfBounds := by
  simp only [aklIoGetc, spent.source, Source.getc, charAt_behind (Nat.lt_succ_self _)]
  rfl

theorem Spent.eof (spent : dev.Spent str) : dev.aklIoEof = .error .outOfBounds := by
  simp only [aklIoEof, spent.source, Source.eof?, charAt_behind (Nat.lt_succ_self _)]
  rfl

theorem Spent.ungetc (spent : dev.Spent str) (c : Chr) :
    ∃ dev', dev.aklIoUngetc c = .ok (0, dev') ∧ dev'.Within str [] ∧
      dev'.iodBuffer = dev.iodBuffer := by
  refine ⟨{ dev with
    iodSource := .string str str.length
    iodCharCount := dev.iodCharCount - 1 }, ?_, ⟨by simp, ?_, spent.room, spent.backlog⟩, rfl⟩
  · simp only [aklIoUngetc, spent.source, Source.ungetc, charAt_length]
    rfl
  · simpa using spent.chars

theorem Within.rounds (within : dev.Within before r) : dev.rounds = r.length + 2 := by
  rw [Dev.rounds, within.source, Source.remaining, List.length_append]
  omega

theorem Within.withBuffer (within : dev.Within before r) {block text : List Chr}
    (filled : Filled block text) : Within { dev with iodBuffer := some block } before r :=
  ⟨within.source, within.chars, ⟨block, rfl, filled.1⟩, within.backlog⟩

theorem Within.withColumn (within : dev.Within before r) (k : UInt32) :
    Within { dev with iodColumn := k } before r :=
  ⟨within.source, within.chars, within.room, within.backlog⟩

theorem Within.newline (within : dev.Within before r) :
    Within { dev with iodLineCount := dev.iodLineCount + 1, iodCharCount := 0 } before r :=
  ⟨within.source, within.chars, within.room, within.backlog⟩

/-- The device has put some text into its buffer. -/
def Holds (dev : Dev) (done : List Chr) : Prop :=
  ∃ block, dev.iodBuffer = some block ∧ Filled block done

theorem Within.holds_nil (within : dev.Within before r) : dev.Holds [] := by
  obtain ⟨block, buffer, large⟩ := within.room
  exact ⟨block, buffer, .nil large⟩

theorem Within.put (within : dev.Within before r) (holds : dev.Holds done) (c : Chr) :
    ∃ dev', dev.putBuffer done.length c = .ok dev' ∧ dev'.Within before r ∧
      dev'.Holds (done ++ [c]) := by
  obtain ⟨block, buffer, filled⟩ := holds
  obtain ⟨block', putEq, filled'⟩ := putBuffer_filled buffer filled c
  exact ⟨_, putEq, within.withBuffer filled', block', rfl, filled'⟩

/-- `copy_atom` stays within the string. -/
theorem Within.copyAtom (within : dev.Within before r) (holds : dev.Holds done)
    (nonempty : r ≠ []) {fuel : Nat} (enough : r.length < fuel) :
    ∃ n dev', copyAtomLoop fuel done.length dev = .ok (n, dev') ∧ dev'.Inside (before ++ r) := by
  induction r generalizing dev before done fuel with
  | nil => exact absurd rfl nonempty
  | cons ch r ih =>
      simp only [List.length_cons] at enough
      obtain ⟨fuel, rfl⟩ : ∃ n, fuel = n + 1 := ⟨fuel - 1, by omega⟩
      have legal := within.chars ch (by simp)
      obtain ⟨dev₁, getcEq, within₁, -, bufferEq⟩ := within.getc
      cases ends : endsAtom ch with
      | true =>
          obtain ⟨dev₂, ungetcEq, within₂, -⟩ := within₁.ungetc ch
          refine ⟨done.length, dev₂, ?_, within₂.inside⟩
          simp only [copyAtomLoop, getcEq, bind, Except.bind, legal.toChr, if_neg legal.1, ends,
            if_true, ungetcEq, pure, Except.pure]
      | false =>
          have holds₁ : dev₁.Holds done := by simpa only [Holds, bufferEq] using holds
          obtain ⟨dev₂, putEq, within₂, holds₂⟩ := within₁.put holds₁ (tolower ch)
          have stepEq : copyAtomLoop (fuel + 1) done.length dev =
              (dev₂.aklIoEof >>= fun b =>
                if b then .ok (done.length + 1, dev₂)
                else copyAtomLoop fuel (done.length + 1) dev₂) := by
            simp only [copyAtomLoop, getcEq, bind, Except.bind, legal.toChr, if_neg legal.1, ends,
              Bool.false_eq_true, if_false, putEq, pure, Except.pure]
          cases r with
          | nil =>
              refine ⟨done.length + 1, dev₂, ?_, by simpa using within₂.inside⟩
              rw [stepEq, within₂.eof_nil]
              rfl
          | cons c r =>
              obtain ⟨n, dev', loopEq, inside⟩ :=
                ih within₂ holds₂ (by simp) (show (c :: r).length < fuel by omega)
              refine ⟨n, dev', ?_, by simpa using inside⟩
              rw [List.length_append, List.length_singleton] at loopEq
              rw [stepEq, within₂.eof_cons]
              exact loopEq

/-- `copy_number` stays within the string. -/
theorem Within.copyNumberLoop (within : dev.Within before r) (holds : dev.Holds done)
    (nonempty : r ≠ []) {fuel : Nat} (enough : r.length < fuel) :
    ∃ n dev', Dev.copyNumberLoop fuel done.length dev = .ok (n, dev') ∧
      dev'.Inside (before ++ r) := by
  induction r generalizing dev before done fuel with
  | nil => exact absurd rfl nonempty
  | cons ch r ih =>
      simp only [List.length_cons] at enough
      obtain ⟨fuel, rfl⟩ : ∃ n, fuel = n + 1 := ⟨fuel - 1, by omega⟩
      have legal := within.chars ch (by simp)
      obtain ⟨dev₁, getcEq, within₁, -, bufferEq⟩ := within.getc
      cases valid : isValidInNumber ch with
      | false =>
          obtain ⟨dev₂, ungetcEq, within₂, -⟩ := within₁.ungetc ch
          refine ⟨done.length, dev₂, ?_, within₂.inside⟩
          simp only [Dev.copyNumberLoop, getcEq, bind, Except.bind, legal.toChr, if_neg legal.1,
            valid, Bool.false_eq_true, if_false, ungetcEq, pure, Except.pure]
      | true =>
          have holds₁ : dev₁.Holds done := by simpa only [Holds, bufferEq] using holds
          obtain ⟨dev₂, putEq, within₂, holds₂⟩ := within₁.put holds₁ ch
          have stepEq : Dev.copyNumberLoop (fuel + 1) done.length dev =
              (dev₂.aklIoEof >>= fun b =>
                if b then .ok (done.length + 1, dev₂)
                else Dev.copyNumberLoop fuel (done.length + 1) dev₂) := by
            simp only [Dev.copyNumberLoop, getcEq, bind, Except.bind, legal.toChr,
              if_neg legal.1, valid, if_true, putEq, pure, Except.pure]
          cases r with
          | nil =>
              refine ⟨done.length + 1, dev₂, ?_, by simpa using within₂.inside⟩
              rw [stepEq, within₂.eof_nil]
              rfl
          | cons c r =>
              obtain ⟨n, dev', loopEq, inside⟩ :=
                ih within₂ holds₂ (by simp) (show (c :: r).length < fuel by omega)
              refine ⟨n, dev', ?_, by simpa using inside⟩
              rw [List.length_append, List.length_singleton] at loopEq
              rw [stepEq, within₂.eof_cons]
              exact loopEq

theorem Within.copyNumber (within : dev.Within before r) (nonempty : r ≠ []) (op : Chr) :
    ∃ n dev', dev.copyNumber op = .ok (n, dev') ∧ dev'.Inside (before ++ r) := by
  by_cases zero : op = 0
  · obtain ⟨n, dev', loopEq, inside⟩ := within.copyNumberLoop within.holds_nil nonempty
      (show r.length < dev.rounds by rw [within.rounds]; omega)
    refine ⟨n, dev', ?_, inside⟩
    simp only [Dev.copyNumber, zero, ne_eq, not_true, if_false]
    exact loopEq
  · obtain ⟨dev₁, putEq, within₁, holds₁⟩ := within.put within.holds_nil op
    obtain ⟨n, dev', loopEq, inside⟩ := within₁.copyNumberLoop holds₁ nonempty
      (show r.length < dev₁.rounds by rw [within₁.rounds]; omega)
    refine ⟨n, dev', ?_, inside⟩
    rw [List.length_nil] at putEq
    simp only [Dev.copyNumber, ne_eq, zero, not_false_eq_true, if_true, putEq, bind, Except.bind]
    exact loopEq

end Dev

/-- What stands behind an opening quote ends with an escape character that
escapes nothing. -/
inductive EscapesEnd : List Chr → Prop where
  | escape : EscapesEnd [code '\\']
  | plain {ch r} (notEscape : ch ≠ code '\\') (notQuote : ch ≠ code '"')
      (others : EscapesEnd r) : EscapesEnd (ch :: r)
  | escaped {ch r} (others : EscapesEnd r) : EscapesEnd (code '\\' :: ch :: r)

namespace Dev

variable {dev : Dev} {before r str done : List Chr} {ch op : Chr}

/-- `copy_string` stays within the string or reads its NUL, unless an escape
character is the last one. -/
theorem Within.copyString (within : dev.Within before r) (holds : dev.Holds done) {fuel : Nat}
    (enough : r.length < fuel) (safe : ¬EscapesEnd r) :
    ∃ n dev', copyStringLoop fuel done.length dev = .ok (n, dev') ∧
      (dev'.Inside (before ++ r) ∨ dev'.Spent (before ++ r)) := by
  induction lengthEq : r.length using Nat.strong_induction_on
    generalizing r dev before done fuel with
  | _ n ih =>
    obtain ⟨fuel, rfl⟩ : ∃ n, fuel = n + 1 := ⟨fuel - 1, by omega⟩
    cases r with
    | nil =>
        obtain ⟨dev₁, getcEq, spent, -⟩ := within.getc_nil
        refine ⟨done.length, dev₁, ?_, .inr (by simpa using spent)⟩
        have zeroEq : toChr 0 = 0 := by decide
        simp only [copyStringLoop, getcEq, bind, Except.bind, zeroEq, if_true, pure, Except.pure]
    | cons ch r =>
        simp only [List.length_cons] at lengthEq enough
        have legal := within.chars ch (by simp)
        obtain ⟨dev₁, getcEq, within₁, -, bufferEq⟩ := within.getc
        have holds₁ : dev₁.Holds done := by simpa only [Holds, bufferEq] using holds
        by_cases escape : ch = code '\\'
        · subst escape
          cases r with
          | nil => exact absurd .escape safe
          | cons c r =>
              have legal₂ := within.chars c (by simp)
              obtain ⟨dev₂, getcEq₂, within₂, -, bufferEq₂⟩ := within₁.getc
              have holds₂ : dev₂.Holds done := by simpa only [Holds, bufferEq₂] using holds₁
              simp only [List.length_cons] at lengthEq enough
              -- both kinds of escapes go on behind the second character
              have continued {dev₃ : Dev} {done₃ : List Chr}
                  (within₃ : dev₃.Within (before ++ [code '\\'] ++ [c]) r)
                  (holds₃ : dev₃.Holds done₃)
                  (stepEq : copyStringLoop (fuel + 1) done.length dev =
                    (dev₃.aklIoEof >>= fun b =>
                      if b then .ok (done₃.length, dev₃)
                      else copyStringLoop fuel done₃.length dev₃)) :
                  ∃ n dev', copyStringLoop (fuel + 1) done.length dev = .ok (n, dev') ∧
                    (dev'.Inside (before ++ code '\\' :: c :: r) ∨
                      dev'.Spent (before ++ code '\\' :: c :: r)) := by
                cases r with
                | nil =>
                    refine ⟨done₃.length, dev₃, ?_, .inl (by simpa using within₃.inside)⟩
                    rw [stepEq, within₃.eof_nil]
                    rfl
                | cons c' r =>
                    obtain ⟨n, dev', loopEq, ends⟩ := ih (c' :: r).length (by omega) within₃ holds₃
                      (show (c' :: r).length < fuel by omega)
                      (fun escapes => safe (.escaped escapes)) rfl
                    refine ⟨n, dev', ?_, by simpa using ends⟩
                    rw [stepEq, within₃.eof_cons]
                    exact loopEq
              by_cases quote : c = code '"'
              · obtain ⟨dev₃, putEq, within₃, holds₃⟩ := within₂.put holds₂ c
                refine continued within₃ holds₃ ?_
                rw [List.length_append, List.length_singleton]
                simp only [copyStringLoop, getcEq, bind, Except.bind, legal.toChr,
                  if_neg legal.1, if_true, getcEq₂, legal₂.toChr, if_pos quote, putEq, pure,
                  Except.pure]
              · obtain ⟨dev₃, putEq, within₃, holds₃⟩ := within₂.put holds₂ (code '\\')
                obtain ⟨dev₄, putEq₂, within₄, holds₄⟩ := within₃.put holds₃ c
                refine continued within₄ holds₄ ?_
                simp only [List.length_append, List.length_singleton] at putEq₂ ⊢
                simp only [copyStringLoop, getcEq, bind, Except.bind, legal.toChr,
                  if_neg legal.1, if_true, getcEq₂, legal₂.toChr, if_neg quote, putEq, putEq₂,
                  pure, Except.pure]
        · by_cases quote : ch = code '"'
          · refine ⟨done.length, dev₁, ?_, .inl (by simpa using within₁.inside)⟩
            have closes : ¬ch ≠ code '"' := not_not.mpr quote
            simp only [copyStringLoop, getcEq, bind, Except.bind, legal.toChr, if_neg legal.1,
              if_neg escape, if_neg closes, pure, Except.pure]
          · obtain ⟨dev₂, putEq, within₂, holds₂⟩ := within₁.put holds₁ ch
            have stepEq : copyStringLoop (fuel + 1) done.length dev =
                (dev₂.aklIoEof >>= fun b =>
                  if b then .ok (done.length + 1, dev₂)
                  else copyStringLoop fuel (done.length + 1) dev₂) := by
              simp only [copyStringLoop, getcEq, bind, Except.bind, legal.toChr, if_neg legal.1,
                if_neg escape, ne_eq, quote, not_false_eq_true, if_true, putEq, pure, Except.pure]
            cases r with
            | nil =>
                refine ⟨done.length + 1, dev₂, ?_, .inl (by simpa using within₂.inside)⟩
                rw [stepEq, within₂.eof_nil]
                rfl
            | cons c r =>
                obtain ⟨n, dev', loopEq, ends⟩ := ih (c :: r).length (by omega) within₂ holds₂
                  (show (c :: r).length < fuel by omega)
                  (fun escapes => safe (.plain escape quote escapes)) rfl
                refine ⟨n, dev', ?_, by simpa using ends⟩
                rw [List.length_append, List.length_singleton] at loopEq
                rw [stepEq, within₂.eof_cons]
                exact loopEq

/-- The rest of a comment line. -/
theorem Within.skipComment {line : List Chr} (inside : ∀ ch ∈ line, ch ≠ code '\n')
    (within : dev.Within before (line ++ code '\n' :: r)) {fuel : Nat}
    (enough : line.length < fuel) :
    ∃ dev', Dev.skipComment fuel dev = .ok (false, dev') ∧
      dev'.Within (before ++ line ++ [code '\n']) r ∧
      dev'.column = dev.column.advance (line.length + 1) := by
  induction line generalizing dev before fuel with
  | nil =>
      obtain ⟨fuel, rfl⟩ : ∃ n, fuel = n + 1 := ⟨fuel - 1, by omega⟩
      obtain ⟨dev₁, getcEq, within₁, columnEq, -⟩ := within.getc
      have charEq : toChr (code '\n') = code '\n' := by decide
      refine ⟨dev₁, ?_, by simpa using within₁, columnEq⟩
      simp only [Dev.skipComment, getcEq, bind, Except.bind, charEq, if_true, pure, Except.pure]
  | cons ch line ih =>
      simp only [List.length_cons] at enough
      obtain ⟨fuel, rfl⟩ : ∃ n, fuel = n + 1 := ⟨fuel - 1, by omega⟩
      have legal := within.chars ch (by simp)
      obtain ⟨dev₁, getcEq, within₁, columnEq, -⟩ := within.getc
      have eofEq : dev₁.aklIoEof = .ok false := by
        cases line with
        | nil => exact within₁.eof_cons
        | cons c line => exact within₁.eof_cons
      obtain ⟨dev', loopEq, within', columnEq'⟩ :=
        ih (fun c mem => inside c (List.mem_cons_of_mem _ mem)) within₁
          (show line.length < fuel by omega)
      refine ⟨dev', ?_, by simpa using within', by rw [columnEq', columnEq]; rfl⟩
      simp only [Dev.skipComment, getcEq, bind, Except.bind, legal.toChr,
        if_neg (inside ch (by simp)), eofEq, Bool.false_eq_true, if_false, loopEq]

/-- A comment that runs up to the end of the string. -/
theorem Within.skipComment_end (inside : ∀ ch ∈ r, ch ≠ code '\n') (nonempty : r ≠ [])
    (within : dev.Within before r) {fuel : Nat} (enough : r.length < fuel) :
    ∃ dev', Dev.skipComment fuel dev = .ok (true, dev') ∧ dev'.Within (before ++ r) [] := by
  induction r generalizing dev before fuel with
  | nil => exact absurd rfl nonempty
  | cons ch r ih =>
      simp only [List.length_cons] at enough
      obtain ⟨fuel, rfl⟩ : ∃ n, fuel = n + 1 := ⟨fuel - 1, by omega⟩
      have legal := within.chars ch (by simp)
      obtain ⟨dev₁, getcEq, within₁, -, -⟩ := within.getc
      have stepEq : Dev.skipComment (fuel + 1) dev =
          (dev₁.aklIoEof >>= fun b =>
            if b then .ok (true, dev₁) else Dev.skipComment fuel dev₁) := by
        simp only [Dev.skipComment, getcEq, bind, Except.bind, legal.toChr,
          if_neg (inside ch (by simp)), pure, Except.pure]
      cases r with
      | nil => exact ⟨dev₁, by rw [stepEq, within₁.eof_nil]; rfl, within₁⟩
      | cons c r =>
          obtain ⟨dev', loopEq, within'⟩ :=
            ih (fun c mem => inside c (List.mem_cons_of_mem _ mem)) (by simp) within₁
              (show (c :: r).length < fuel by omega)
          exact ⟨dev', by rw [stepEq, within₁.eof_cons]; exact loopEq, by simpa using within'⟩

/-- The rest of a shebang line. -/
theorem Within.skipShebang {line : List Chr} (inside : ∀ ch ∈ line, ch ≠ code '\n')
    (within : dev.Within before (line ++ code '\n' :: r)) {fuel : Nat}
    (enough : line.length < fuel) :
    ∃ dev', Dev.skipShebang fuel dev = .ok (code '\n', dev') ∧
      dev'.Within (before ++ line ++ [code '\n']) r := by
  induction line generalizing dev before fuel with
  | nil =>
      obtain ⟨fuel, rfl⟩ : ∃ n, fuel = n + 1 := ⟨fuel - 1, by omega⟩
      obtain ⟨dev₁, getcEq, within₁, -, -⟩ := within.getc
      have charEq : toChr (code '\n') = code '\n' := by decide
      refine ⟨dev₁, ?_, by simpa using within₁⟩
      simp only [Dev.skipShebang, getcEq, bind, Except.bind, charEq, or_true, if_true, pure,
        Except.pure]
  | cons ch line ih =>
      simp only [List.length_cons] at enough
      obtain ⟨fuel, rfl⟩ : ∃ n, fuel = n + 1 := ⟨fuel - 1, by omega⟩
      have legal := within.chars ch (by simp)
      obtain ⟨dev₁, getcEq, within₁, -, -⟩ := within.getc
      obtain ⟨dev', loopEq, within'⟩ :=
        ih (fun c mem => inside c (List.mem_cons_of_mem _ mem)) within₁
          (show line.length < fuel by omega)
      refine ⟨dev', ?_, by simpa using within'⟩
      simp only [Dev.skipShebang, getcEq, bind, Except.bind, legal.toChr, legal.1, false_or,
        if_neg (inside ch (by simp)), loopEq]

end Dev

/-- A place where `akl_lex` reads behind the NUL of a string: a comment
character at the very end, a shebang line that is not ended, or a string with an
escape character at the very end. -/
inductive RunsOff : Column → Chr → List Chr → Prop where
  | commentEmpty {col op} : RunsOff col op [code ';']
  | shebangEnd {op line} (inside : ∀ ch ∈ line, ch ≠ code '\n') :
      RunsOff (some 0) op (code '#' :: line)
  | escapesEnd {col op r} (escapes : EscapesEnd r) : RunsOff col op (code '"' :: r)

/-- A character that `akl_lex` takes for the end of the input although others
follow. -/
inductive TakenForEof : Column → Chr → List Chr → Prop where
  | byte {col op ch r} : TakenForEof col op (eof :: ch :: r)

namespace Dev

/-- What a call of `akl_lex` within a string comes to: another place within the
string, with `tEOF` only at its end, or the place behind its NUL. -/
inductive LexedIn (str : List Chr) : Except Fault (Token × Dev) → Prop where
  | token {tok dev} (notEof : tok ≠ .tEOF) (inside : dev.Inside str) : LexedIn str (.ok (tok, dev))
  | ended {dev} (within : dev.Within str []) : LexedIn str (.ok (.tEOF, dev))
  | spent {tok dev} (spent : dev.Spent str) : LexedIn str (.ok (tok, dev))

variable {dev : Dev} {before r str done : List Chr} {ch op : Chr}

/-- `strcpy` of a pending sign. -/
theorem Within.signAtom (within : dev.Within before r) (sign : IsSign op) {times : Nat}
    (few : times ≤ 2) :
    ∃ dev', dev.signAtom op times = .ok dev' ∧ dev'.Within before r := by
  obtain ⟨block, buffer, large⟩ := within.room
  obtain ⟨block', copyEq, filled⟩ := signAtom_filled _ buffer large sign few
  exact ⟨_, copyEq, within.withBuffer filled⟩

/-- An atom, the sign in front of it having been pushed back or not. -/
theorem Within.lexAtom (within : dev.Within (before ++ [ch]) r)
    (signed : op = 0 ∨ IsSign op ∧ before ≠ []) :
    LexedIn (before ++ ch :: r) (dev.lexAtom op ch) := by
  have copied {before' r' : List Chr} {dev' : Dev} (equal : before' ++ r' = before ++ ch :: r)
      (within' : dev'.Within before' r') (nonempty : r' ≠ [])
      (stepEq : dev.lexAtom op ch = (dev'.copyAtom >>= fun p =>
        if strcasecmpEq p.2.bufferText ("NIL".toList.map code) then .ok (.tNIL, p.2)
        else if strcasecmpEq p.2.bufferText ("T".toList.map code) then .ok (.tTRUE, p.2)
        else .ok (.tATOM, p.2))) : LexedIn (before ++ ch :: r) (dev.lexAtom op ch) := by
    obtain ⟨n, dev₁, copyEq, inside⟩ := within'.copyAtom within'.holds_nil nonempty
      (show r'.length < dev'.rounds by rw [within'.rounds]; omega)
    rw [List.length_nil] at copyEq
    rw [equal] at inside
    simp only [stepEq, Dev.copyAtom, copyEq, bind, Except.bind]
    split
    · exact .token (by decide) inside
    · split
      · exact .token (by decide) inside
      · exact .token (by decide) inside
  rcases signed with rfl | ⟨sign, nonempty⟩
  · obtain ⟨dev₁, ungetcEq, within₁, -⟩ := within.ungetc ch
    have noSign : ¬((0 : Chr) = code '+' ∨ (0 : Chr) = code '-') := by decide
    refine copied rfl within₁ (by simp) ?_
    simp only [Dev.lexAtom, if_neg noSign, bind, Except.bind, ungetcEq, pure, Except.pure]
  · -- the position goes back by two
    obtain ⟨before, p, rfl⟩ := List.eq_nil_or_concat before |>.resolve_left nonempty
    rw [List.concat_eq_append] at *
    obtain ⟨dev₁, ungetcEq, within₁, -⟩ := within.ungetc op
    obtain ⟨dev₂, ungetcEq₂, within₂, -⟩ := within₁.ungetc ch
    refine copied (by simp) within₂ (by simp) ?_
    have isSign : op = code '+' ∨ op = code '-' := sign
    simp only [Dev.lexAtom, if_pos isSign, bind, Except.bind, ungetcEq, ungetcEq₂, pure,
      Except.pure]

theorem Within.lexString (within : dev.Within before r) (safe : ¬EscapesEnd r) :
    LexedIn (before ++ r) dev.lexString := by
  have copied {dev' dev₁ : Dev} {c : Chr} (getcEq : dev.aklIoGetc = .ok (c, dev₁))
      (notQuote : toChr c ≠ code '"') {x : Chr}
      (ungetcEq : dev₁.aklIoUngetc (toChr c) = .ok (x, dev')) (within' : dev'.Within before r) :
      LexedIn (before ++ r) dev.lexString := by
    obtain ⟨n, dev'', copyEq, ends⟩ := within'.copyString within'.holds_nil
      (show r.length < dev'.rounds by rw [within'.rounds]; omega) safe
    rw [List.length_nil] at copyEq
    simp only [Dev.lexString, getcEq, bind, Except.bind, if_neg notQuote, ungetcEq,
      Dev.copyString, copyEq, pure, Except.pure]
    rcases ends with inside | spent
    · exact .token (by decide) inside
    · exact .spent spent
  cases r with
  | nil =>
      obtain ⟨dev₁, getcEq, spent, -⟩ := within.getc_nil
      obtain ⟨dev₂, ungetcEq, within₂, -⟩ := spent.ungetc (toChr 0)
      exact copied getcEq (by decide) ungetcEq within₂
  | cons c r =>
      have legal := within.chars c (by simp)
      obtain ⟨dev₁, getcEq, within₁, -, -⟩ := within.getc
      by_cases quote : c = code '"'
      · have isQuote : toChr c = code '"' := by rw [legal.toChr, quote]
        simp only [Dev.lexString, getcEq, bind, Except.bind, if_pos isQuote, pure, Except.pure]
        exact .token (by decide) (by simpa using within₁.inside)
      · obtain ⟨dev₂, ungetcEq, within₂, -⟩ := within₁.ungetc (toChr c)
        exact copied getcEq (by rw [legal.toChr]; exact quote) ungetcEq within₂

theorem Within.lexOpen (within : dev.Within before r) :
    LexedIn (before ++ r) dev.lexOpen := by
  have within₀ := within.withColumn (dev.iodCharCount + 1)
  cases r with
  | nil =>
      obtain ⟨dev₁, getcEq, spent, -⟩ := within₀.getc_nil
      obtain ⟨dev₂, ungetcEq, within₂, -⟩ := spent.ungetc (toChr 0)
      have notClose : toChr 0 ≠ code ')' := by decide
      simp only [Dev.lexOpen, getcEq, bind, Except.bind, if_neg notClose, ungetcEq, pure,
        Except.pure]
      exact .token (by decide) (by simpa using within₂.inside)
  | cons c r =>
      obtain ⟨dev₁, getcEq, within₁, -, -⟩ := within₀.getc
      obtain ⟨dev₂, ungetcEq, within₂, -⟩ := within₁.ungetc (toChr c)
      simp only [Dev.lexOpen, getcEq, bind, Except.bind, ungetcEq, pure, Except.pure]
      split
      · exact .token (by decide) (by simpa using within₁.inside)
      · exact .token (by decide) within₂.inside

/-- The loop of `akl_lex` within a string: what is skipped comes first, then the
token. -/
theorem Within.lexLoop (within : dev.Within before r) (signed : op = 0 ∨ IsSign op ∧ before ≠ [])
    {fuel : Nat} (enough : r.length < fuel) (safe : ¬SkipsTo RunsOff dev.column op r)
    (noEof : ¬SkipsTo TakenForEof dev.column op r) :
    LexedIn (before ++ r) (Dev.lexLoop fuel op dev) := by
  induction lengthEq : r.length using Nat.strong_induction_on generalizing r dev before op fuel with
  | _ n ih =>
    obtain ⟨fuel, rfl⟩ : ∃ n, fuel = n + 1 := ⟨fuel - 1, by omega⟩
    cases r with
    | nil =>
        obtain ⟨dev₁, getcEq, spent, -⟩ := within.getc_nil
        rw [Dev.lexLoop, getcEq, List.append_nil]
        exact .spent spent
    | cons ch r =>
        simp only [List.length_cons] at lengthEq enough
        have legal := within.chars ch (by simp)
        obtain ⟨dev₁, getcEq, within₁, columnEq, -⟩ := within.getc
        have signed₁ : op = 0 ∨ IsSign op ∧ before ++ [ch] ≠ [] := by
          rcases signed with zero | ⟨sign, -⟩
          · exact .inl zero
          · exact .inr ⟨sign, by simp⟩
        have rounds₁ := within₁.rounds
        by_cases shebang : dev₁.iodCharCount = 1 ∧ ch = code '#'
        · obtain ⟨first, rfl⟩ := shebang
          have startEq : dev.iodCharCount = 0 := by
            have := Option.some.inj columnEq
            rw [first] at this
            simpa using this.symm
          rcases split_line r with inside | ⟨line, after, rfl, inside⟩
          · refine absurd (.here ?_) safe
            rw [Dev.column, startEq]
            exact .shebangEnd inside
          · simp only [List.length_append, List.length_cons] at lengthEq enough rounds₁
            obtain ⟨dev₂, skipEq, within₂⟩ := within₁.skipShebang inside
              (show line.length < dev₁.rounds by omega)
            have kind : classOf (code '\n') = .newline := by decide
            have stepEq : Dev.lexLoop (fuel + 1) op dev = Dev.lexLoop fuel op
                { dev₂ with iodLineCount := dev₂.iodLineCount + 1, iodCharCount := 0 } := by
              rw [Dev.lexLoop, getcEq]
              simp only [bind, Except.bind, legal.toChr, if_neg legal.1, first, and_true, if_true,
                skipEq, kind]
            rw [Dev.column, startEq] at safe noEof
            rw [stepEq]
            have lexed := ih after.length (by omega) within₂.newline
              (signed.imp id fun s => ⟨s.1, by simp⟩) (show after.length < fuel by omega)
              (fun skips => safe (.shebang inside skips))
              (fun skips => noEof (.shebang inside skips)) rfl
            simpa using lexed
        · have round {c : CharClass} (kind : classOf ch = c) :=
            lexLoop_round fuel op getcEq legal.toChr legal.1 kind shebang
          have wholeEq : before ++ ch :: r = before ++ [ch] ++ r := by simp
          -- the recursive call behind a character that is skipped
          have skipped {op' : Chr} {dev₂ : Dev} (within₂ : dev₂.Within (before ++ [ch]) r)
              (signed₂ : op' = 0 ∨ IsSign op' ∧ before ++ [ch] ≠ [])
              (safe₂ : ¬SkipsTo RunsOff dev₂.column op' r)
              (noEof₂ : ¬SkipsTo TakenForEof dev₂.column op' r) :
              LexedIn (before ++ ch :: r) (Dev.lexLoop fuel op' dev₂) := by
            rw [wholeEq]
            exact ih r.length (by omega) within₂ signed₂ (by omega) safe₂ noEof₂ rfl
          cases kind : classOf ch with
          | endOfFile =>
              rw [round kind]
              have isEof : ch = AkLisp.eof := CharClass.is_of_eq kind
              cases r with
              | nil => exact .ended within₁
              | cons c r =>
                  subst isEof
                  exact absurd (.here .byte) noEof
          | newline =>
              rw [round kind]
              cases CharClass.is_of_eq kind
              exact skipped within₁.newline signed₁ (fun skips => safe (.newline skips))
                (fun skips => noEof (.newline skips))
          | sign =>
              rw [round kind]
              have isSign : IsSign ch := CharClass.is_of_eq kind
              rcases signed with rfl | ⟨pending, -⟩
              · simp only [ne_eq, not_true, if_false]
                exact skipped within₁ (.inr ⟨isSign, by simp⟩)
                  (fun skips => safe (.sign isSign (columnEq ▸ skips)))
                  (fun skips => noEof (.sign isSign (columnEq ▸ skips)))
              · obtain ⟨dev₂, copyEq, within₂⟩ := within₁.signAtom pending (Nat.le_refl 2)
                simp only [ne_eq, pending.ne_zero, not_false_eq_true, if_true, copyEq, bind,
                  Except.bind]
                exact .token (by decide) (by simpa using within₂.inside)
          | digit =>
              obtain ⟨dev₂, ungetcEq, within₂, -⟩ := within₁.ungetc ch
              obtain ⟨n, dev₃, copyEq, inside⟩ := within₂.copyNumber (by simp) op
              rw [round kind]
              simp only [lexNumber, ungetcEq, copyEq, bind, Except.bind, pure, Except.pure]
              exact .token (by decide) inside
          | delimiter =>
              rw [round kind]
              have within₁' := within₁.withColumn (dev₁.iodCharCount + 1)
              rcases signed with rfl | ⟨pending, -⟩
              · simp only [ne_eq, not_true, if_false]
                rcases CharClass.is_of_eq kind with rfl | rfl
                · have notClose : code ' ' ≠ code ')' := by decide
                  simp only [if_neg notClose]
                  exact skipped within₁' (.inl rfl)
                    (fun skips => safe (.blank (columnEq ▸ skips)))
                    (fun skips => noEof (.blank (columnEq ▸ skips)))
                · simp only [if_true]
                  exact .token (by decide) (by simpa using within₁'.inside)
              · obtain ⟨dev₂, copyEq, within₂⟩ :=
                  within₁'.signAtom pending (show 1 ≤ 2 by omega)
                obtain ⟨dev₃, ungetcEq, within₃, -⟩ := within₂.ungetc ch
                simp only [ne_eq, pending.ne_zero, not_false_eq_true, if_true, copyEq, bind,
                  Except.bind]
                split
                · simp only [ungetcEq]
                  exact .token (by decide) within₃.inside
                · exact .token (by decide) (by simpa using within₂.inside)
          | doubleQuote =>
              rw [round kind, wholeEq]
              cases CharClass.is_of_eq kind
              exact within₁.lexString fun escapes => safe (.here (.escapesEnd escapes))
          | opening =>
              rw [round kind, wholeEq]
              exact within₁.lexOpen
          | quote =>
              rw [round kind]
              exact .token (by decide) (by simpa using within₁.inside)
          | semicolon =>
              rw [round kind]
              cases CharClass.is_of_eq kind
              rcases split_line r with inside | ⟨line, after, rfl, inside⟩
              · cases r with
                | nil => exact absurd (.here .commentEmpty) safe
                | cons c r =>
                    obtain ⟨dev₂, skipEq, within₂⟩ := within₁.skipComment_end inside (by simp)
                      (show (c :: r).length < dev₁.rounds by omega)
                    simp only [skipEq, bind, Except.bind, if_true]
                    exact .ended (by simpa using within₂)
              · simp only [List.length_append, List.length_cons] at lengthEq enough rounds₁
                obtain ⟨dev₂, skipEq, within₂, columnEq₂⟩ := within₁.skipComment inside
                  (show line.length < dev₁.rounds by omega)
                have columnEq' : dev₂.column = dev.column.advance (line.length + 2) := by
                  rw [columnEq₂, columnEq]
                  rfl
                simp only [skipEq, bind, Except.bind, Bool.false_eq_true, if_false]
                have lexed := ih after.length (by omega) within₂
                  (signed.imp id fun s => ⟨s.1, by simp⟩) (show after.length < fuel by omega)
                  (fun skips => safe (.comment inside (columnEq' ▸ skips)))
                  (fun skips => noEof (.comment inside (columnEq' ▸ skips))) rfl
                simpa using lexed
          | atom =>
              rw [round kind]
              exact within₁.lexAtom signed
          | other =>
              rw [round kind]
              exact skipped within₁ signed₁ (fun skips => safe (.other kind (columnEq ▸ skips)))
                (fun skips => noEof (.other kind (columnEq ▸ skips)))

/-- Some calls of `akl_lex` with the tokens they return. -/
def lexCalls : Nat → Dev → Except Fault (List Token × Dev)
  | 0, dev => .ok ([], dev)
  | n + 1, dev => do
      let (tok, dev) ← dev.aklLex
      let (toks, dev) ← lexCalls n dev
      return (tok :: toks, dev)

/-- Calls of `akl_lex` that read nothing behind the NUL of the string and return
`tEOF` for good. -/
def StopsAtEnd (n : Nat) (dev : Dev) : Prop :=
  ∃ front m dev', lexCalls n dev = .ok (front ++ List.replicate m .tEOF, dev') ∧ .tEOF ∉ front

/-- A call may start: the NUL of the string has not been read, the call does not
run off the end, and it meets no byte that it takes for the end. -/
def MayLex (str : List Chr) (dev : Dev) : Prop :=
  ∃ before r, str = before ++ r ∧ dev.started.Within before r ∧
    ¬SkipsTo RunsOff dev.started.column 0 r ∧ ¬SkipsTo TakenForEof dev.started.column 0 r

theorem Within.started (within : dev.Within before r) : dev.started = dev := by
  obtain ⟨block, buffer, -⟩ := within.room
  simp [Dev.started, buffer]

theorem Spent.not_mayLex (spent : dev.Spent str) : ¬MayLex str dev := by
  rintro ⟨before, r, rfl, within, -⟩
  obtain ⟨block, buffer, -⟩ := spent.room
  have startedEq : dev.started = dev := by simp [Dev.started, buffer]
  rw [startedEq] at within
  have sourceEq := spent.source.symm.trans within.source
  simp only [Source.string.injEq, true_and, List.length_append] at sourceEq
  omega

theorem aklLex_within (within : dev.started.Within before r) :
    dev.aklLex = Dev.lexLoop dev.started.rounds 0 dev.started := by
  simp only [Dev.aklLex, within.backlog, ne_eq, not_true, if_false]

/-- One call. -/
theorem MayLex.aklLex (may : MayLex str dev) : LexedIn str dev.aklLex := by
  obtain ⟨before, r, rfl, within, safe, noEof⟩ := may
  rw [aklLex_within within]
  exact within.lexLoop (.inl rfl) (by rw [within.rounds]; omega) safe noEof

theorem lexCalls_succ {dev₁ : Dev} {tok : Token} (lexEq : dev.aklLex = .ok (tok, dev₁)) {n : Nat}
    {toks : List Token} {dev' : Dev} (others : lexCalls n dev₁ = .ok (toks, dev')) :
    lexCalls (n + 1) dev = .ok (tok :: toks, dev') := by
  simp only [lexCalls, lexEq, others, bind, Except.bind, pure, Except.pure]

/-- Behind the last token of the string there is only `tEOF`. -/
theorem Within.lexCalls_end (within : dev.Within str []) {n : Nat}
    (may : ∀ k < n, ∀ toks dev', lexCalls k dev = .ok (toks, dev') → MayLex str dev') :
    ∃ dev', lexCalls n dev = .ok (List.replicate n .tEOF, dev') := by
  cases n with
  | zero => exact ⟨dev, rfl⟩
  | succ n =>
      obtain ⟨dev₁, getcEq, spent, -⟩ := within.getc_nil
      have lexEq : dev.aklLex = .ok (.tEOF, dev₁) := by
        rw [aklLex_within (within.started.symm ▸ within), within.started, within.rounds,
          Dev.lexLoop, getcEq]
        rfl
      cases n with
      | zero => exact ⟨dev₁, lexCalls_succ lexEq rfl⟩
      | succ n =>
          refine absurd ?_ spent.not_mayLex
          exact may 1 (by omega) _ _ (lexCalls_succ (n := 0) lexEq rfl)

/-- A run in which every call may start stops at the end. -/
theorem stopsAtEnd_of_mayLex {n : Nat} {dev : Dev} {str : List Chr}
    (may : ∀ k < n, ∀ toks dev', lexCalls k dev = .ok (toks, dev') → MayLex str dev') :
    StopsAtEnd n dev := by
  induction n generalizing dev with
  | zero => exact ⟨[], 0, dev, rfl, by simp⟩
  | succ n ih =>
      have later {tok : Token} {dev₁ : Dev} (lexEq : dev.aklLex = .ok (tok, dev₁)) :
          ∀ k < n, ∀ toks dev', lexCalls k dev₁ = .ok (toks, dev') → MayLex str dev' :=
        fun k below toks dev' calls => may (k + 1) (by omega) _ _ (lexCalls_succ lexEq calls)
      have lexed := (may 0 (by omega) [] dev rfl).aklLex
      cases resultEq : dev.aklLex with
      | error fault =>
          rw [resultEq] at lexed
          cases lexed
      | ok result =>
          rw [resultEq] at lexed
          cases lexed with
          | @token tok dev₁ notEof inside =>
              obtain ⟨front, m, dev', calls, noEof⟩ := ih (later resultEq)
              refine ⟨tok :: front, m, dev', lexCalls_succ resultEq calls, ?_⟩
              rw [List.mem_cons]
              exact not_or.mpr ⟨Ne.symm notEof, noEof⟩
          | @ended dev₁ within =>
              obtain ⟨dev', calls⟩ := within.lexCalls_end (later resultEq)
              exact ⟨[], n + 1, dev', lexCalls_succ resultEq calls, by simp⟩
          | @spent tok dev₁ spent =>
              cases n with
              | succ n => exact absurd (later resultEq 0 (by omega) [] dev₁ rfl) spent.not_mayLex
              | zero =>
                  have calls : lexCalls 1 dev = .ok ([tok], dev₁) := lexCalls_succ resultEq rfl
                  by_cases isEof : tok = .tEOF
                  · exact ⟨[], 1, dev₁, by rw [calls, isEof]; rfl, by simp⟩
                  · exact ⟨[tok], 0, dev₁, calls, by simpa using Ne.symm isEof⟩

end Dev

/-- Calls of `akl_lex` on a fresh string device read nothing behind the NUL and
return `tEOF` for good, if each of them starts where it may. -/
theorem string_lexer_bounded (fresh : Nat → Chr) (text : List Chr) (column : UInt32)
    (backlog : Token) (n : Nat)
    (may : ∀ k < n, ∀ toks dev', Dev.lexCalls k (aklNewStringDevice fresh text column backlog) =
      .ok (toks, dev') → Dev.MayLex text dev') :
    Dev.StopsAtEnd n (aklNewStringDevice fresh text column backlog) :=
  Dev.stopsAtEnd_of_mayLex may

/-- At a token there is nothing to skip. -/
theorem SkipsTo.found {stop : Column → Chr → List Chr → Prop} {col : Column} {op : Chr}
    {r : List Chr} (skips : SkipsTo stop col op r)
    (token : ∀ ch ∈ r.head?, classOf ch = .opening) : stop col op r := by
  cases skips with
  | here found => exact found
  | newline | shebang | comment | blank => exact absurd (token _ rfl) (by decide)
  | other kind => exact absurd ((token _ rfl).symm.trans kind) (by decide)
  | sign isSign => exact absurd ((token _ rfl).symm.trans isSign.classOf) (by decide)

/-- The first call on the text of an empty list. -/
theorem string_lexer_bounded_open :
    (∀ k < 1, ∀ toks dev', Dev.lexCalls k
        (aklNewStringDevice (fun _ => 0) [code '(', code ')'] 0 .tEOF) = .ok (toks, dev') →
      Dev.MayLex [code '(', code ')'] dev') ∧
    Dev.StopsAtEnd 1 (aklNewStringDevice (fun _ => 0) [code '(', code ')'] 0 .tEOF) := by
  have may : ∀ k < 1, ∀ toks dev', Dev.lexCalls k
      (aklNewStringDevice (fun _ => 0) [code '(', code ')'] 0 .tEOF) = .ok (toks, dev') →
      Dev.MayLex [code '(', code ')'] dev' := by
    intro k below toks dev' calls
    obtain rfl : k = 0 := by omega
    cases calls
    refine ⟨[], _, rfl, ⟨rfl, ?_, ⟨_, rfl, by simp⟩, rfl⟩, ?_, ?_⟩
    · simp [IsStringChar, code]
    · intro skips
      cases skips.found (by decide)
    · intro skips
      cases skips.found (by decide)
  exact ⟨may, string_lexer_bounded _ _ _ _ _ may⟩

/-- Two calls on the empty text: the second one reads behind its NUL. -/
theorem string_lexer_runs_off :
    Dev.lexCalls 2 (aklNewStringDevice (fun _ => 0) [] 0 .tEOF) = .error .outOfBounds ∧
      ¬Dev.StopsAtEnd 2 (aklNewStringDevice (fun _ => 0) [] 0 .tEOF) := by
  have calls : Dev.lexCalls 2 (aklNewStringDevice (fun _ => 0) [] 0 .tEOF) =
      .error .outOfBounds := rfl
  refine ⟨calls, ?_⟩
  rintro ⟨front, m, dev', stops, -⟩
  cases calls.symm.trans stops

end AkLisp
