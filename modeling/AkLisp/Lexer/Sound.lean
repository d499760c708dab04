import AkLisp.Lexer.Lexes
import AkLisp.Reader.Delivery

/-!
# The lexer delivers the tokens of a text

`akl_lex` on a device that is about to read a text follows `Lexes`.  So every
device, file or string, is a source that delivers the tokens of its text.
-/

namespace AkLisp

theorem tolower_ne_zero {ch : Chr} (legal : IsStringChar ch) : tolower ch ≠ 0 := by
  have nonzero := legal.1
  unfold tolower
  split
  · next upper =>
      have := (isupper_iff.mp upper).1
      grind
  · exact nonzero

theorem StringBody.noNul {raw text : List Chr} (body : StringBody raw text)
    (legal : ∀ ch ∈ raw, IsStringChar ch) : ∀ ch ∈ text, ch ≠ 0 := by
  induction body with
  | nil => simp
  | plain notEscape notQuote others ih =>
      simp only [List.mem_cons, forall_eq_or_imp] at legal ⊢
      exact ⟨legal.1.ne_zero, ih legal.2⟩
  | quote others ih =>
      simp only [List.mem_cons, forall_eq_or_imp] at legal ⊢
      exact ⟨legal.2.1.ne_zero, ih legal.2.2⟩
  | escape notQuote others ih =>
      simp only [List.mem_cons, forall_eq_or_imp] at legal ⊢
      exact ⟨legal.1.ne_zero, legal.2.1.ne_zero, ih legal.2.2⟩

theorem StringBody.text_ne_nil {raw text : List Chr} (body : StringBody raw text)
    (nonempty : raw ≠ []) : text ≠ [] := by
  cases body with
  | nil => exact absurd rfl nonempty
  | plain | quote | escape => simp

theorem IsSign.ne_zero {op : Chr} (sign : IsSign op) : op ≠ 0 := by
  rcases sign with rfl | rfl <;> decide

theorem IsSign.classOf {op : Chr} (sign : IsSign op) : classOf op = .sign := by
  rcases sign with rfl | rfl <;> decide

theorem IsSign.not_hash {op : Chr} (sign : IsSign op) : op ≠ code '#' := by
  rcases sign with rfl | rfl <;> decide

theorem ne_hash_of_class {ch : Chr} (kind : classOf ch ≠ .atom) : ch ≠ code '#' := by
  rintro rfl
  exact kind (by decide)

/-- `strcpy` of the pending sign, or of its double. -/
theorem IsSign.text_eq {op : Chr} (sign : IsSign op) :
    (if op = code '+' then code '+' else code '-') = op := by
  rcases sign with rfl | rfl <;> decide

namespace Dev

variable {dev dev₁ : Dev} {col : Column} {ch op : Chr} {r : List Chr}

theorem strcpy_filled {block : List Chr} (buffer : dev.iodBuffer = some block)
    (large : defBufferSize ≤ block.length) {text : List Chr} (short : text.length ≤ 2) :
    ∃ block', dev.strcpy text = .ok { dev with iodBuffer := some block' } ∧
      Filled block' text := by
  have size : text.length < block.length := by
    unfold defBufferSize at large
    omega
  refine ⟨text ++ 0 :: block.drop (text.length + 1), ?_, ?_, _, rfl, by simp, by simp⟩
  · rw [strcpy, buffer]
    simp only [if_pos size]
  · simp only [List.length_append, List.length_cons, List.length_drop]
    omega

theorem signAtom_filled (dev : Dev) {block : List Chr} (buffer : dev.iodBuffer = some block)
    (large : defBufferSize ≤ block.length) (sign : IsSign op) {times : Nat} (few : times ≤ 2) :
    ∃ block', dev.signAtom op times = .ok { dev with iodBuffer := some block' } ∧
      Filled block' (List.replicate times op) := by
  rw [signAtom, sign.text_eq]
  exact strcpy_filled buffer large (by simpa using few)

theorem At.newline (at_ : dev.At col r) :
    At { dev with iodLineCount := dev.iodLineCount + 1, iodCharCount := 0 } (some 0) r :=
  ⟨at_.source, at_.chars, by simp, at_.room, at_.backlog⟩

theorem At.withColumn (at_ : dev.At col r) (k : UInt32) : At { dev with iodColumn := k } col r :=
  ⟨at_.source, at_.chars, at_.column, at_.room, at_.backlog⟩

theorem Past.withColumn (past : dev.Past col ch r) (k : UInt32) :
    Past { dev with iodColumn := k } col ch r :=
  ⟨past.source, past.chars, past.column, past.room, past.backlog⟩

/-- What the device is like behind a token, `start` having been its buffer. -/
structure Delivered (dev : Dev) (start : Option (List Chr)) (written : Option (List Chr))
    (col : Column) (r : List Chr) : Prop where
  at_ : dev.At col r
  text : ∀ text ∈ written,
    dev.bufferText = text ∧ ∃ block, dev.iodBuffer = some block ∧ 0 ∈ block
  same : written = none → dev.iodBuffer = start

theorem At.delivered (at_ : dev.At col r) {start : Option (List Chr)}
    (bufferEq : dev.iodBuffer = start) : dev.Delivered start none col r :=
  ⟨at_, by simp, fun _ => bufferEq⟩

theorem Copying.delivered {text : List Chr} (copying : dev.Copying col r text)
    (nonempty : text ≠ []) (noNul : ∀ c ∈ text, c ≠ 0) (start : Option (List Chr)) :
    dev.Delivered start (some text) col r := by
  refine ⟨copying.at_, ?_, by simp⟩
  rintro _ ⟨⟩
  exact copying.bufferText nonempty noNul

/-- `copy_number` behind a pending sign. -/
theorem At.copyNumber (ds : List Chr) (inside : ∀ c ∈ ds, isValidInNumber c = true)
    (nonempty : ds ≠ []) (ends : ∀ c ∈ r.head?, isValidInNumber c = false)
    (at_ : dev.At col (ds ++ r)) (op : Chr) :
    ∃ n dev', dev.copyNumber op = .ok (n, dev') ∧
      dev'.Copying (col.advance ds.length) r (signText op ++ ds) := by
  have more : ds ++ r ≠ [] ∨ dev.aklIoEof = .ok false := .inl (by simp [nonempty])
  have rounds := at_.rounds
  rw [List.length_append] at rounds
  by_cases zero : op = 0
  · obtain ⟨n, dev', loopEq, copying⟩ :=
      at_.copying.copyNumberLoop inside ends more (show ds.length < dev.rounds by omega)
    refine ⟨n, dev', ?_, by simpa [signText, zero] using copying⟩
    simp only [Dev.copyNumber, zero, ne_eq, not_true, if_false]
    exact loopEq
  · obtain ⟨dev₁, putEq, copying₁⟩ := at_.copying.put op
    have rounds₁ := copying₁.at_.rounds
    rw [List.length_append] at rounds₁
    obtain ⟨n, dev', loopEq, copying⟩ :=
      copying₁.copyNumberLoop inside ends (.inl (by simp [nonempty]))
        (show ds.length < dev₁.rounds by omega)
    refine ⟨n, dev', ?_, by simpa [signText, zero] using copying⟩
    rw [List.length_nil] at putEq
    simp only [Dev.copyNumber, ne_eq, zero, not_false_eq_true, if_true, putEq, bind, Except.bind]
    simpa using loopEq

/-- One round of the loop of `akl_lex`. -/
theorem lexLoop_round (fuel : Nat) (op : Chr) {c : CharClass}
    (getcEq : dev.aklIoGetc = .ok (ch, dev₁)) (charEq : toChr ch = ch) (nonzero : ch ≠ 0)
    (kind : classOf ch = c) (plain : ¬(dev₁.iodCharCount = 1 ∧ ch = code '#')) :
    lexLoop (fuel + 1) op dev =
      match c with
      | .endOfFile => .ok (.tEOF, dev₁)
      | .newline =>
          lexLoop fuel op { dev₁ with iodLineCount := dev₁.iodLineCount + 1, iodCharCount := 0 }
      | .sign =>
          if op ≠ 0 then dev₁.signAtom op 2 >>= fun dev => .ok (.tATOM, dev)
          else lexLoop fuel ch dev₁
      | .digit => dev₁.lexNumber op ch
      | .delimiter =>
          let dev₁ := { dev₁ with iodColumn := dev₁.iodCharCount + 1 }
          if op ≠ 0 then
            dev₁.signAtom op 1 >>= fun dev =>
              if ch = code ')' then dev.aklIoUngetc ch >>= fun p => .ok (.tATOM, p.2)
              else .ok (.tATOM, dev)
          else if ch = code ')' then .ok (.tRBRACE, dev₁)
          else lexLoop fuel op dev₁
      | .doubleQuote => dev₁.lexString
      | .opening => dev₁.lexOpen
      | .quote => .ok (.tQUOTE, dev₁)
      | .semicolon =>
          skipComment dev₁.rounds dev₁ >>= fun p =>
            if p.1 then .ok (.tEOF, p.2) else lexLoop fuel op p.2
      | .atom => dev₁.lexAtom op ch
      | .other => lexLoop fuel op dev₁ := by
  rw [lexLoop, getcEq]
  simp only [bind, Except.bind, charEq, if_neg nonzero, if_neg plain, kind]
  cases c <;> rfl

end Dev

open Dev in
/-- The loop of `akl_lex` delivers the token the text starts with. -/
theorem Lexes.sound {col col' : Column} {op : Chr} {r r' : List Chr} {tok : Token}
    {w : Option (List Chr)} (lexes : Lexes col op r tok w col' r') {dev : Dev}
    (at_ : dev.At col r) {fuel : Nat} (enough : r.length < fuel) :
    ∃ dev', lexLoop fuel op dev = .ok (tok, dev') ∧
      (tok ≠ .tEOF → dev'.Delivered dev.iodBuffer w col' r') := by
  obtain ⟨fuel, rfl⟩ : ∃ n, fuel = n + 1 := ⟨fuel - 1, by omega⟩
  induction lexes generalizing dev fuel with
  | ended =>
      obtain ⟨c, dev', getcEq, ends, -⟩ := at_.getc_nil
      refine ⟨dev', ?_, fun notEof => absurd rfl notEof⟩
      rw [lexLoop, getcEq]
      rcases ends with rfl | rfl
      · rfl
      · have notZero : toChr eof ≠ 0 := by decide
        have notHash : toChr eof ≠ code '#' := by decide
        have kind : classOf (toChr eof) = .endOfFile := by decide
        simp only [bind, Except.bind, if_neg notZero, notHash, and_false, if_false, kind]
        rfl
  | newline next ih =>
      simp only [List.length_cons] at enough
      obtain ⟨dev₁, getcEq, past, bufferEq⟩ := at_.getc
      obtain ⟨fuel, rfl⟩ : ∃ n, fuel = n + 1 := ⟨fuel - 1, by omega⟩
      rw [lexLoop_round _ _ getcEq (past.chars _ List.mem_cons_self).toChr
        (past.chars _ List.mem_cons_self).ne_zero
        (show classOf (code '\n') = .newline by decide) (by simp [code]), ← bufferEq]
      exact ih past.at.newline fuel (by omega)
  | @shebang op line r tok w col' r' inside next ih =>
      simp only [List.length_cons, List.length_append] at enough
      obtain ⟨dev₁, getcEq, past, bufferEq⟩ := at_.getc
      obtain ⟨fuel, rfl⟩ : ∃ n, fuel = n + 1 := ⟨fuel - 1, by omega⟩
      have rounds := past.at.rounds
      simp only [List.length_append] at rounds
      obtain ⟨dev₂, skipEq, at₂, bufferEq₂⟩ :=
        past.at.skipShebang inside (show line.length < dev₁.rounds by omega)
      have legal := past.chars _ List.mem_cons_self
      have first : dev₁.iodCharCount = 1 := by simpa using past.column 0 rfl
      have kind : classOf (code '\n') = .newline := by decide
      have stepEq : lexLoop (fuel + 1 + 1) op dev = lexLoop (fuel + 1) op
          { dev₂ with iodLineCount := dev₂.iodLineCount + 1, iodCharCount := 0 } := by
        rw [lexLoop, getcEq]
        simp only [bind, Except.bind, legal.toChr, if_neg legal.ne_zero, first, and_true, if_true,
          skipEq, kind]
      rw [stepEq, ← bufferEq, ← bufferEq₂]
      exact ih at₂.newline fuel (by omega)
  | @comment col op line r tok w col' r' inside next ih =>
      simp only [List.length_cons, List.length_append] at enough
      obtain ⟨dev₁, getcEq, past, bufferEq⟩ := at_.getc
      obtain ⟨fuel, rfl⟩ : ∃ n, fuel = n + 1 := ⟨fuel - 1, by omega⟩
      have rounds := past.at.rounds
      simp only [List.length_append] at rounds
      obtain ⟨dev₂, skipEq, at₂, bufferEq₂⟩ :=
        past.at.skipComment inside (show line.length < dev₁.rounds by omega)
      rw [lexLoop_round _ _ getcEq (past.chars _ List.mem_cons_self).toChr
        (past.chars _ List.mem_cons_self).ne_zero
        (show classOf (code ';') = .semicolon by decide) (by simp [code]), ← bufferEq, ← bufferEq₂]
      simp only [skipEq, bind, Except.bind, Bool.false_eq_true, if_false]
      exact ih at₂ fuel (by omega)
  | @commentEnded col op line inside nonempty =>
      obtain ⟨dev₁, getcEq, past, -⟩ := at_.getc
      obtain ⟨dev', skipEq⟩ := past.at.skipComment_end inside nonempty
        (show line.length < dev₁.rounds by rw [past.at.rounds]; omega)
      refine ⟨dev', ?_, fun notEof => absurd rfl notEof⟩
      rw [lexLoop_round _ _ getcEq (past.chars _ List.mem_cons_self).toChr
        (past.chars _ List.mem_cons_self).ne_zero
        (show classOf (code ';') = .semicolon by decide) (by simp [code])]
      simp only [skipEq, bind, Except.bind, if_true]
  | other kind next ih =>
      simp only [List.length_cons] at enough
      obtain ⟨dev₁, getcEq, past, bufferEq⟩ := at_.getc
      obtain ⟨fuel, rfl⟩ : ∃ n, fuel = n + 1 := ⟨fuel - 1, by omega⟩
      rw [lexLoop_round _ _ getcEq (past.chars _ List.mem_cons_self).toChr
        (past.chars _ List.mem_cons_self).ne_zero kind
        (by simp [ne_hash_of_class (by rw [kind]; decide)]), ← bufferEq]
      exact ih past.at fuel (by omega)
  | blank next ih =>
      simp only [List.length_cons] at enough
      obtain ⟨dev₁, getcEq, past, bufferEq⟩ := at_.getc
      obtain ⟨fuel, rfl⟩ : ∃ n, fuel = n + 1 := ⟨fuel - 1, by omega⟩
      rw [lexLoop_round _ _ getcEq (past.chars _ List.mem_cons_self).toChr
        (past.chars _ List.mem_cons_self).ne_zero
        (show classOf (code ' ') = .delimiter by decide) (by simp [code]), ← bufferEq]
      have notClose : code ' ' ≠ code ')' := by decide
      simp only [ne_eq, not_true, if_false, if_neg notClose]
      exact ih (past.at.withColumn _) fuel (by omega)
  | sign isSign next ih =>
      simp only [List.length_cons] at enough
      obtain ⟨dev₁, getcEq, past, bufferEq⟩ := at_.getc
      obtain ⟨fuel, rfl⟩ : ∃ n, fuel = n + 1 := ⟨fuel - 1, by omega⟩
      rw [lexLoop_round _ _ getcEq (past.chars _ List.mem_cons_self).toChr
        (past.chars _ List.mem_cons_self).ne_zero isSign.classOf
        (by simp [isSign.not_hash]), ← bufferEq]
      simp only [ne_eq, not_true, if_false]
      exact ih past.at fuel (by omega)
  | @signs col op ch r pending isSign =>
      obtain ⟨dev₁, getcEq, past, -⟩ := at_.getc
      obtain ⟨block, buffer, large⟩ := past.room
      obtain ⟨block', strcpyEq, filled⟩ := signAtom_filled _ buffer large pending (Nat.le_refl 2)
      have copying : Copying { dev₁ with iodBuffer := some block' } col.next r [op, op] :=
        ⟨past.at.withBuffer filled, block', rfl, filled⟩
      refine ⟨_, ?_, fun _ => copying.delivered (by simp) (by simp [pending.ne_zero]) _⟩
      rw [lexLoop_round _ _ getcEq (past.chars _ List.mem_cons_self).toChr
        (past.chars _ List.mem_cons_self).ne_zero isSign.classOf
        (by simp [isSign.not_hash])]
      simp only [ne_eq, pending.ne_zero, not_false_eq_true, if_true, strcpyEq, bind, Except.bind]
  | @signBlank col op r pending =>
      obtain ⟨dev₁, getcEq, past, -⟩ := at_.getc
      obtain ⟨block, buffer, large⟩ := past.room
      have notClose : code ' ' ≠ code ')' := by decide
      obtain ⟨block', strcpyEq, filled⟩ :=
        signAtom_filled { dev₁ with iodColumn := dev₁.iodCharCount + 1 } buffer large
          pending (show 1 ≤ 2 by omega)
      have copying := (past.at.withColumn (dev₁.iodCharCount + 1)).withBuffer filled
      refine ⟨_, ?_, fun _ => Copying.delivered ⟨copying, block', rfl, filled⟩ (by simp)
        (by simp [pending.ne_zero]) _⟩
      rw [lexLoop_round _ _ getcEq (past.chars _ List.mem_cons_self).toChr
        (past.chars _ List.mem_cons_self).ne_zero
        (show classOf (code ' ') = .delimiter by decide) (by simp [code])]
      simp only [ne_eq, pending.ne_zero, not_false_eq_true, if_true, strcpyEq, bind, Except.bind,
        if_neg notClose]
  | @signClose col op r pending =>
      obtain ⟨dev₁, getcEq, past, -⟩ := at_.getc
      obtain ⟨block, buffer, large⟩ := past.room
      obtain ⟨block', strcpyEq, filled⟩ :=
        signAtom_filled { dev₁ with iodColumn := dev₁.iodCharCount + 1 } buffer large
          pending (show 1 ≤ 2 by omega)
      obtain ⟨dev₂, ungetcEq, at₂, bufferEq⟩ :=
        ((past.withColumn (dev₁.iodCharCount + 1)).withBuffer filled).ungetc
      refine ⟨_, ?_, fun _ => Copying.delivered ⟨at₂, block', bufferEq, filled⟩ (by simp)
        (by simp [pending.ne_zero]) _⟩
      rw [lexLoop_round _ _ getcEq (past.chars _ List.mem_cons_self).toChr
        (past.chars _ List.mem_cons_self).ne_zero
        (show classOf (code ')') = .delimiter by decide) (by simp [code])]
      simp only [ne_eq, pending.ne_zero, not_false_eq_true, if_true, strcpyEq, bind, Except.bind,
        ungetcEq]
  | close =>
      obtain ⟨dev₁, getcEq, past, bufferEq⟩ := at_.getc
      refine ⟨_, ?_, fun _ => (past.at.withColumn (dev₁.iodCharCount + 1)).delivered bufferEq⟩
      rw [lexLoop_round _ _ getcEq (past.chars _ List.mem_cons_self).toChr
        (past.chars _ List.mem_cons_self).ne_zero
        (show classOf (code ')') = .delimiter by decide) (by simp [code])]
      simp only [ne_eq, not_true, if_false, if_true]
  | @number col op d ds r digit inside ends =>
      obtain ⟨dev₁, getcEq, past, -⟩ := at_.getc
      obtain ⟨dev₂, ungetcEq, at₂, -⟩ := past.ungetc
      have valid : isValidInNumber d = true := by
        have isDigit : isdigit d = true := CharClass.is_of_eq digit
        rw [isValidInNumber, if_pos isDigit]
      obtain ⟨n, dev', copyEq, copying⟩ := At.copyNumber (d :: ds)
        (by simpa [valid] using inside) (by simp) ends at₂ op
      have legal := past.chars d List.mem_cons_self
      refine ⟨dev', ?_, fun _ => copying.delivered (by simp) ?_ _⟩
      · rw [lexLoop_round _ _ getcEq legal.toChr legal.ne_zero digit
          (by simp [ne_hash_of_class (by rw [digit]; decide)])]
        simp only [lexNumber, ungetcEq, copyEq, bind, Except.bind, pure, Except.pure]
      · intro c mem
        rcases List.mem_append.mp mem with mem | mem
        · unfold signText at mem
          split at mem
          · cases mem
          · next nonzero => exact List.mem_singleton.mp mem ▸ nonzero
        · exact (past.chars c (by simp at mem ⊢; tauto)).ne_zero
  | emptyString =>
      obtain ⟨dev₁, getcEq, past, bufferEq⟩ := at_.getc
      obtain ⟨dev₂, getcEq₂, past₂, bufferEq₂⟩ := past.at.getc
      have legal := past.chars _ List.mem_cons_self
      refine ⟨dev₂, ?_, fun _ => past₂.at.delivered (bufferEq₂.trans bufferEq)⟩
      rw [lexLoop_round _ _ getcEq legal.toChr legal.ne_zero
        (show classOf (code '"') = .doubleQuote by decide)
        (by simp [code])]
      simp only [lexString, getcEq₂, bind, Except.bind, legal.toChr, if_true, pure, Except.pure]
  | @string col op raw text r body nonempty =>
      obtain ⟨dev₁, getcEq, past, -⟩ := at_.getc
      obtain ⟨c, cs, rfl⟩ := List.exists_cons_of_ne_nil nonempty
      obtain ⟨dev₂, getcEq₂, past₂, -⟩ := past.at.getc
      obtain ⟨dev₃, ungetcEq, at₃, -⟩ := past₂.ungetc
      have legal := past.chars _ List.mem_cons_self
      have legal₂ := past₂.chars c List.mem_cons_self
      have notQuote : c ≠ code '"' := by
        cases body with
        | plain notEscape notQuote others => exact notQuote
        | quote | escape => decide
      have enough₃ : (c :: cs).length < dev₃.rounds := by
        rw [at₃.rounds, List.append_eq, List.length_cons, List.length_cons, List.length_append]
        omega
      obtain ⟨n, dev', copyEq, copying⟩ :=
        at₃.copying.copyString body enough₃
      refine ⟨dev', ?_, fun _ => Copying.delivered copying (body.text_ne_nil (by simp)) ?_ _⟩
      · rw [lexLoop_round _ _ getcEq legal.toChr legal.ne_zero
          (show classOf (code '"') = .doubleQuote by decide)
          (by simp [code])]
        rw [List.length_nil] at copyEq
        simp only [lexString, getcEq₂, bind, Except.bind, legal₂.toChr, if_neg notQuote, ungetcEq,
          Dev.copyString, copyEq, pure, Except.pure]
      · exact body.noNul fun ch mem => past.chars ch (by simp at mem ⊢; tauto)
  | nil =>
      obtain ⟨dev₁, getcEq, past, bufferEq⟩ := at_.getc
      obtain ⟨dev₂, getcEq₂, past₂, bufferEq₂⟩ :=
        (past.at.withColumn (dev₁.iodCharCount + 1)).getc
      have legal₂ := past₂.chars _ List.mem_cons_self
      refine ⟨dev₂, ?_, fun _ => past₂.at.delivered (bufferEq₂.trans bufferEq)⟩
      rw [lexLoop_round _ _ getcEq (past.chars _ List.mem_cons_self).toChr
        (past.chars _ List.mem_cons_self).ne_zero
        (show classOf (code '(') = .opening by decide) (by simp [code])]
      simp only [lexOpen, getcEq₂, bind, Except.bind, legal₂.toChr, if_true, pure, Except.pure]
  | @opening col op r ends =>
      obtain ⟨dev₁, getcEq, past, bufferEq⟩ := at_.getc
      have at₁ := past.at.withColumn (dev₁.iodCharCount + 1)
      have stepEq : lexLoop (fuel + 1) op dev = dev₁.lexOpen :=
        lexLoop_round _ _ getcEq (past.chars _ List.mem_cons_self).toChr
        (past.chars _ List.mem_cons_self).ne_zero
          (show classOf (code '(') = .opening by decide) (by simp [code])
      cases r with
      | nil =>
          obtain ⟨c, dev₂, getcEq₂, isEnd, dev₃, ungetcEq, at₃, bufferEq₃⟩ := at₁.getc_nil
          refine ⟨dev₃, ?_, fun _ => at₃.delivered (bufferEq₃.trans bufferEq)⟩
          have charEq : toChr c = c := by
            rcases isEnd with rfl | rfl <;> decide
          have notClose : c ≠ code ')' := by
            rcases isEnd with rfl | rfl <;> decide
          rw [stepEq]
          simp only [lexOpen, getcEq₂, bind, Except.bind, charEq, if_neg notClose, ungetcEq, pure,
            Except.pure]
      | cons c r =>
          obtain ⟨dev₂, getcEq₂, past₂, bufferEq₂⟩ := at₁.getc
          obtain ⟨dev₃, ungetcEq, at₃, bufferEq₃⟩ := past₂.ungetc
          have legal₂ := past₂.chars c List.mem_cons_self
          have notClose : c ≠ code ')' := by simpa using ends
          refine ⟨dev₃, ?_, fun _ => at₃.delivered (bufferEq₃.trans (bufferEq₂.trans bufferEq))⟩
          rw [stepEq]
          simp only [lexOpen, getcEq₂, bind, Except.bind, legal₂.toChr, if_neg notClose, ungetcEq,
            pure, Except.pure]
  | quote kind =>
      obtain ⟨dev₁, getcEq, past, bufferEq⟩ := at_.getc
      refine ⟨dev₁, ?_, fun _ => past.at.delivered bufferEq⟩
      rw [lexLoop_round _ _ getcEq (past.chars _ List.mem_cons_self).toChr
        (past.chars _ List.mem_cons_self).ne_zero kind
        (by simp [ne_hash_of_class (by rw [kind]; decide)])]
  | @atom col ch cs e r kind plain inside ends =>
      obtain ⟨dev₁, getcEq, past, -⟩ := at_.getc
      obtain ⟨dev₂, ungetcEq, at₂, -⟩ := past.ungetc
      have legal := past.chars ch List.mem_cons_self
      have notShebang : ¬(dev₁.iodCharCount = 1 ∧ ch = code '#') := by
        rintro ⟨first, hash⟩
        obtain ⟨k, known, later⟩ := plain hash
        exact later ((past.column k known).symm.trans first)
      have notDelimiter : endsAtom ch = false := CharClass.is_of_eq kind
      have rounds := at₂.rounds
      simp only [List.length_cons, List.length_append] at rounds
      obtain ⟨n, dev', copyEq, copying⟩ := at₂.copying.copyAtom
        (by simpa [notDelimiter] using inside) ends
        (show (ch :: cs).length < dev₂.rounds by simp only [List.length_cons]; omega)
      have noNul : ∀ c ∈ (ch :: cs).map tolower, c ≠ 0 := by
        intro c mem
        obtain ⟨a, inside, rfl⟩ := List.mem_map.mp mem
        exact tolower_ne_zero (past.chars a (List.mem_append_left (e :: r) inside))
      have textEq : dev'.bufferText = (ch :: cs).map tolower :=
        (Copying.bufferText copying (by simp) noNul).1
      have stepEq : lexLoop (fuel + 1) 0 dev =
          if strcasecmpEq dev'.bufferText ("NIL".toList.map code) then .ok (.tNIL, dev')
          else if strcasecmpEq dev'.bufferText ("T".toList.map code) then .ok (.tTRUE, dev')
          else .ok (.tATOM, dev') := by
        have noSign : ¬((0 : Chr) = code '+' ∨ (0 : Chr) = code '-') := by decide
        rw [lexLoop_round _ _ getcEq legal.toChr legal.ne_zero kind notShebang]
        rw [List.length_nil] at copyEq
        simp only [lexAtom, if_neg noSign, bind, Except.bind, ungetcEq, Dev.copyAtom, copyEq, pure,
          Except.pure]
      refine ⟨dev', ?_, fun _ => Copying.delivered copying (by simp) noNul _⟩
      rw [stepEq, textEq, atomToken]
      split
      · rfl
      · split <;> rfl

/-- What is left behind a token is the end of the text. -/
theorem Lexes.suffix {col col' : Column} {op : Chr} {r r' : List Chr} {tok : Token}
    {w : Option (List Chr)} (lexes : Lexes col op r tok w col' r') : r' <:+ r := by
  induction lexes with
  | ended | signClose => exact List.suffix_rfl
  | newline _ ih | other _ _ ih | blank _ ih | sign _ _ ih =>
      exact ih.trans (List.suffix_cons _ _)
  | shebang _ _ ih | comment _ _ ih =>
      exact ih.trans ((List.suffix_cons _ _).trans ((List.suffix_append _ _).trans
        (List.suffix_cons _ _)))
  | commentEnded => exact List.nil_suffix
  | signs | signBlank | close | quote | opening => exact List.suffix_cons _ _
  | number | atom => exact (List.suffix_append _ _).trans (List.suffix_cons _ _)
  | string =>
      exact (List.suffix_cons _ _).trans ((List.suffix_append _ _).trans (List.suffix_cons _ _))
  | emptyString | nil => exact (List.suffix_cons _ _).trans (List.suffix_cons _ _)

/-- A token takes a character, unless a sign was pending. -/
theorem Lexes.length_lt {col col' : Column} {r r' : List Chr} {tok : Token}
    {w : Option (List Chr)} (lexes : Lexes col 0 r tok w col' r') (notEof : tok ≠ .tEOF) :
    r'.length < r.length := by
  cases lexes with
  | ended | commentEnded => exact absurd rfl notEof
  | newline next | other _ next | blank next | sign _ next =>
      exact Nat.lt_succ_of_le next.suffix.length_le
  | shebang _ next | comment _ next =>
      have := next.suffix.length_le
      simp only [List.length_cons, List.length_append]
      omega
  | signClose pending => exact absurd rfl pending.ne_zero
  | signs | signBlank | close | quote | opening => exact Nat.lt_succ_self _
  | number | string | atom | emptyString | nil =>
      simp only [List.length_cons, List.length_append]
      omega

/-- The text starts with these tokens. -/
inductive Tokenizes : Column → List Chr → List (Token × Option (List Chr)) → Column →
    List Chr → Prop where
  | done {col r} : Tokenizes col r [] col r
  | token {col r tok w col₁ r₁ toks col' r'} (lexes : Lexes col 0 r tok w col₁ r₁)
      (notEof : tok ≠ .tEOF) (others : Tokenizes col₁ r₁ toks col' r') :
      Tokenizes col r ((tok, w) :: toks) col' r'

theorem Tokenizes.append {col col₁ col₂ : Column} {r r₁ r₂ : List Chr}
    {toks others : List (Token × Option (List Chr))} (first : Tokenizes col r toks col₁ r₁)
    (second : Tokenizes col₁ r₁ others col₂ r₂) : Tokenizes col r (toks ++ others) col₂ r₂ := by
  induction first with
  | done => exact second
  | token lexes notEof _ ih => exact .token lexes notEof (ih second)

/-- There are not more tokens than characters. -/
theorem Tokenizes.length_le {col col' : Column} {r r' : List Chr}
    {toks : List (Token × Option (List Chr))} (tokenizes : Tokenizes col r toks col' r') :
    toks.length + r'.length ≤ r.length := by
  induction tokenizes with
  | done => simp
  | token lexes notEof others ih =>
      have := lexes.length_lt notEof
      rw [List.length_cons]
      omega

/-- A blank in front of a token is skipped. -/
theorem Tokenizes.blank {col col' : Column} {r r' : List Chr}
    {toks : List (Token × Option (List Chr))} (tokenizes : Tokenizes col.next r toks col' r')
    (nonempty : toks ≠ []) : Tokenizes col (code ' ' :: r) toks col' r' := by
  cases tokenizes with
  | done => exact absurd rfl nonempty
  | token lexes notEof others => exact .token (.blank lexes) notEof others

namespace Dev

variable {dev : Dev} {col col' : Column} {r r' : List Chr} {tok : Token} {w : Option (List Chr)}

theorem At.started (at_ : dev.At col r) : dev.started = dev := by
  obtain ⟨block, buffer, -⟩ := at_.room
  simp [Dev.started, buffer]

/-- `akl_lex` on a device, initialised or not. -/
theorem At.aklLex (at_ : dev.started.At col r) (lexes : Lexes col 0 r tok w col' r') :
    ∃ dev', dev.aklLex = .ok (tok, dev') ∧
      (tok ≠ .tEOF → dev'.Delivered dev.started.iodBuffer w col' r') := by
  obtain ⟨dev', loopEq, delivered⟩ :=
    lexes.sound at_ (show r.length < dev.started.rounds by rw [at_.rounds]; omega)
  refine ⟨dev', ?_, delivered⟩
  simpa only [Dev.aklLex, at_.backlog, ne_eq, not_true, if_false] using loopEq

/-- A token that was put back is delivered again. -/
theorem At.aklLex_putback (at_ : dev.At col r) (notEof : tok ≠ .tEOF) :
    Dev.aklLex { dev with iodBacklog := tok } = .ok (tok, dev) := by
  obtain ⟨block, buffer, -⟩ := at_.room
  obtain ⟨source, iodBuffer, count, line, column, backlog, fresh⟩ := dev
  cases buffer
  cases at_.backlog
  simp [Dev.aklLex, Dev.started, notEof]

/-- The text of the last token is fetched, and the buffer is emptied. -/
theorem At.takeText (at_ : dev.At col r) {text : List Chr}
    (held : dev.bufferText = text ∧ ∃ block, dev.iodBuffer = some block ∧ 0 ∈ block) :
    ∃ dev', dev.takeText = .ok (text, dev') ∧ dev'.At col r ∧ dev'.iodSource = dev.iodSource := by
  obtain ⟨textEq, block, buffer, terminated⟩ := held
  obtain ⟨block', buffer', large⟩ := at_.room
  cases buffer.symm.trans buffer'
  have filled : Filled (block.set 0 0) [] := .nil (by simpa using large)
  refine ⟨{ dev with iodBuffer := some (block.set 0 0) }, ?_, at_.withBuffer filled, rfl⟩
  simp only [Dev.takeText, buffer, if_pos terminated, textEq]

end Dev

/-- The token with the text that is fetched for it. -/
def deliveredLexeme (p : Token × Option (List Chr)) : Lexeme :=
  ⟨p.1, if p.1.hasText then p.2.getD [] else []⟩

/-- A token whose text is fetched has put it into the buffer. -/
theorem Lexes.written {col col' : Column} {op : Chr} {r r' : List Chr} {tok : Token}
    {w : Option (List Chr)} (lexes : Lexes col op r tok w col' r') (hasText : tok.hasText = true) :
    ∃ text, w = some text := by
  induction lexes with
  | newline _ ih | shebang _ _ ih | comment _ _ ih | other _ _ ih | blank _ ih | sign _ _ ih =>
      exact ih hasText
  | signs | signBlank | signClose | number | string | atom => exact ⟨_, rfl⟩
  | ended | commentEnded | close | emptyString | nil | opening | quote => cases hasText

/-- A device is a source that delivers the tokens of its text. -/
def textDelivery : Delivery Dev where
  Ready ls dev := ∃ col r toks col' r', dev.started.At col r ∧ Tokenizes col r toks col' r' ∧
    toks.map deliveredLexeme = ls
  Lexed l ls dev := ∃ col r toks col' r', dev.At col r ∧ Tokenizes col r toks col' r' ∧
    toks.map deliveredLexeme = ls ∧
    (l.tok.hasText = true →
      dev.bufferText = l.text ∧ ∃ block, dev.iodBuffer = some block ∧ 0 ∈ block)
  lex := by
    rintro l ls dev ⟨col, r, toks, col', r', at_, tokenizes, toksEq⟩
    cases tokenizes with
    | done => cases toksEq
    | @token _ _ tok w col₁ r₁ toks _ _ lexes notEof others =>
        cases toksEq
        obtain ⟨dev', lexEq, delivered⟩ := at_.aklLex lexes
        obtain ⟨at', text, -⟩ := delivered notEof
        refine ⟨dev', lexEq, col₁, r₁, toks, col', r', at', others, rfl, ?_⟩
        intro hasText
        obtain ⟨text', rfl⟩ := lexes.written hasText
        have hasText' : tok.hasText = true := hasText
        simpa only [deliveredLexeme, hasText', if_true, Option.getD_some] using text text' rfl
  forget := by
    rintro l ls dev ⟨col, r, toks, col', r', at_, tokenizes, toksEq, -⟩
    exact ⟨col, r, toks, col', r', at_.started.symm ▸ at_, tokenizes, toksEq⟩
  text := by
    rintro l ls dev ⟨col, r, toks, col', r', at_, tokenizes, toksEq, text⟩ hasText
    obtain ⟨dev', takeEq, at', -⟩ := at_.takeText (text hasText)
    exact ⟨dev', takeEq, col, r, toks, col', r', at'.started.symm ▸ at', tokenizes, toksEq⟩
  putback := by
    rintro l ls dev ⟨col, r, toks, col', r', at_, tokenizes, toksEq, text⟩ notEof
    exact ⟨dev, at_.aklLex_putback notEof, col, r, toks, col', r', at_, tokenizes, toksEq, text⟩

theorem aklNewStringDevice_at (fresh : Nat → Chr) {text : List Chr}
    (chars : ∀ ch ∈ text, IsStringChar ch) (column : UInt32) (backlog : Token) :
    (aklNewStringDevice fresh text column backlog).started.At (some 0) text where
  source := ⟨[], rfl, rfl⟩
  chars := chars
  column := by
    rintro k ⟨⟩
    rfl
  room := ⟨_, rfl, by simp⟩
  backlog := rfl

end AkLisp
