import AkLisp.Lexer.Reading

/-!
# The tokens of a text

`Lexes` says which token a text starts with and what is left of it, with the
actual remaining characters present.  It has one rule for each way through
`akl_lex` that is the same for files and for strings; there is none for a sign
in front of an atom, for an atom or a string that runs up to the end of the text,
for a comment character at the very end, or for a shebang line that is not ended.
-/

namespace AkLisp

/-- A sign that may be pending. -/
def IsSign (op : Chr) : Prop := op = code '+' ∨ op = code '-'

/-- What stands between the quotes of a string, and what `copy_string` makes of
it. -/
inductive StringBody : List Chr → List Chr → Prop where
  | nil : StringBody [] []
  | plain {ch raw text} (notEscape : ch ≠ code '\\') (notQuote : ch ≠ code '"')
      (others : StringBody raw text) : StringBody (ch :: raw) (ch :: text)
  | quote {raw text} (others : StringBody raw text) :
      StringBody (code '\\' :: code '"' :: raw) (code '"' :: text)
  | escape {ch raw text} (notQuote : ch ≠ code '"') (others : StringBody raw text) :
      StringBody (code '\\' :: ch :: raw) (code '\\' :: ch :: text)

/-- The token `akl_lex` makes of the text of an atom. -/
def atomToken (text : List Chr) : Token :=
  if strcasecmpEq text ("NIL".toList.map code) then .tNIL
  else if strcasecmpEq text ("T".toList.map code) then .tTRUE
  else .tATOM

/-- The pending sign as a text. -/
def signText (op : Chr) : List Chr := if op = 0 then [] else [op]

/-- With the sign `op` pending, `col` characters into a line, the text starts
with the token, and `akl_lex` puts a text into the buffer or leaves it alone. -/
inductive Lexes : Column → Chr → List Chr → Token → Option (List Chr) → Column → List Chr →
    Prop where
  | ended {col op} : Lexes col op [] .tEOF none col []
  | newline {col op r tok w col' r'} (next : Lexes (some 0) op r tok w col' r') :
      Lexes col op (code '\n' :: r) tok w col' r'
  | shebang {op line r tok w col' r'} (inside : ∀ ch ∈ line, ch ≠ code '\n')
      (next : Lexes (some 0) op r tok w col' r') :
      Lexes (some 0) op (code '#' :: (line ++ code '\n' :: r)) tok w col' r'
  | comment {col : Column} {op line r tok w col' r'} (inside : ∀ ch ∈ line, ch ≠ code '\n')
      (next : Lexes (col.advance (line.length + 2)) op r tok w col' r') :
      Lexes col op (code ';' :: (line ++ code '\n' :: r)) tok w col' r'
  | commentEnded {col op line} (inside : ∀ ch ∈ line, ch ≠ code '\n') (nonempty : line ≠ []) :
      Lexes col op (code ';' :: line) .tEOF none col []
  | other {col : Column} {op ch r tok w col' r'} (kind : classOf ch = .other)
      (next : Lexes col.next op r tok w col' r') : Lexes col op (ch :: r) tok w col' r'
  | blank {col : Column} {r tok w col' r'} (next : Lexes col.next 0 r tok w col' r') :
      Lexes col 0 (code ' ' :: r) tok w col' r'
  | sign {col : Column} {ch r tok w col' r'} (isSign : IsSign ch)
      (next : Lexes col.next ch r tok w col' r') : Lexes col 0 (ch :: r) tok w col' r'
  | signs {col : Column} {op ch r} (pending : IsSign op) (isSign : IsSign ch) :
      Lexes col op (ch :: r) .tATOM (some [op, op]) col.next r
  | signBlank {col : Column} {op r} (pending : IsSign op) :
      Lexes col op (code ' ' :: r) .tATOM (some [op]) col.next r
  | signClose {col op r} (pending : IsSign op) :
      Lexes col op (code ')' :: r) .tATOM (some [op]) col (code ')' :: r)
  | close {col : Column} {r} : Lexes col 0 (code ')' :: r) .tRBRACE none col.next r
  | number {col : Column} {op d ds r} (digit : classOf d = .digit)
      (inside : ∀ ch ∈ ds, isValidInNumber ch = true)
      (ends : ∀ ch ∈ r.head?, isValidInNumber ch = false) :
      Lexes col op (d :: (ds ++ r)) .tNUMBER (some (signText op ++ d :: ds))
        (col.advance (ds.length + 1)) r
  | emptyString {col : Column} {op r} :
      Lexes col op (code '"' :: code '"' :: r) .tNIL none (col.advance 2) r
  | string {col : Column} {op raw text r} (body : StringBody raw text) (nonempty : raw ≠ []) :
      Lexes col op (code '"' :: (raw ++ code '"' :: r)) .tSTRING (some text)
        (col.advance (raw.length + 2)) r
  | nil {col : Column} {op r} :
      Lexes col op (code '(' :: code ')' :: r) .tNIL none (col.advance 2) r
  | opening {col : Column} {op r} (ends : r.head? ≠ some (code ')')) :
      Lexes col op (code '(' :: r) .tLBRACE none col.next r
  | quote {col : Column} {op ch r} (kind : classOf ch = .quote) :
      Lexes col op (ch :: r) .tQUOTE none col.next r
  | atom {col : Column} {ch cs e r} (kind : classOf ch = .atom)
      (plain : ch = code '#' → ∃ k, col = some k ∧ k + 1 ≠ 1)
      (inside : ∀ c ∈ cs, endsAtom c = false) (ends : endsAtom e = true) :
      Lexes col 0 (ch :: (cs ++ e :: r)) (atomToken ((ch :: cs).map tolower))
        (some ((ch :: cs).map tolower)) (col.advance (cs.length + 1)) (e :: r)

/-- The loop of `akl_lex` skips to a place with a property, which speaks of the
column, the pending sign and the rest of the text. -/
inductive SkipsTo (stop : Column → Chr → List Chr → Prop) : Column → Chr → List Chr → Prop where
  | here {col op r} (found : stop col op r) : SkipsTo stop col op r
  | newline {col op r} (next : SkipsTo stop (some 0) op r) : SkipsTo stop col op (code '\n' :: r)
  | shebang {op line r} (inside : ∀ ch ∈ line, ch ≠ code '\n')
      (next : SkipsTo stop (some 0) op r) :
      SkipsTo stop (some 0) op (code '#' :: (line ++ code '\n' :: r))
  | comment {col : Column} {op line r} (inside : ∀ ch ∈ line, ch ≠ code '\n')
      (next : SkipsTo stop (col.advance (line.length + 2)) op r) :
      SkipsTo stop col op (code ';' :: (line ++ code '\n' :: r))
  | other {col : Column} {op ch r} (kind : classOf ch = .other)
      (next : SkipsTo stop col.next op r) : SkipsTo stop col op (ch :: r)
  | blank {col : Column} {r} (next : SkipsTo stop col.next 0 r) :
      SkipsTo stop col 0 (code ' ' :: r)
  | sign {col : Column} {ch r} (isSign : IsSign ch) (next : SkipsTo stop col.next ch r) :
      SkipsTo stop col 0 (ch :: r)

/-- A text up to the first character with a property. -/
theorem split_at (p : Chr → Bool) (r : List Chr) :
    (∀ ch ∈ r, p ch = false) ∨
      ∃ before ch after, r = before ++ ch :: after ∧ (∀ c ∈ before, p c = false) ∧
        p ch = true := by
  induction r with
  | nil => exact .inl (by simp)
  | cons c r ih =>
      cases first : p c with
      | true => exact .inr ⟨[], c, r, rfl, by simp, first⟩
      | false =>
          rcases ih with none | ⟨before, ch, after, rfl, none, found⟩
          · exact .inl (by simpa [first] using none)
          · exact .inr ⟨c :: before, ch, after, rfl, by simpa [first] using none, found⟩

/-- A text up to its first line end. -/
theorem split_line (r : List Chr) :
    (∀ ch ∈ r, ch ≠ code '\n') ∨
      ∃ line after, r = line ++ code '\n' :: after ∧ ∀ ch ∈ line, ch ≠ code '\n' := by
  rcases split_at (fun ch => decide (ch = code '\n')) r with
    none | ⟨line, ch, after, rfl, none, found⟩
  · exact .inl (by simpa using none)
  · refine .inr ⟨line, after, ?_, by simpa using none⟩
    rw [of_decide_eq_true found]

namespace Dev

variable {dev : Dev} {col : Column} {r done : List Chr}

/-- `copy_atom` up to the character that ends the atom. -/
theorem Copying.copyAtom {cs : List Chr} {e : Chr} (inside : ∀ c ∈ cs, endsAtom c = false)
    (ends : endsAtom e = true) (copying : dev.Copying col (cs ++ e :: r) done) {fuel : Nat}
    (enough : cs.length < fuel) :
    ∃ n dev', copyAtomLoop fuel done.length dev = .ok (n, dev') ∧
      dev'.Copying (col.advance cs.length) (e :: r) (done ++ cs.map tolower) := by
  induction cs generalizing dev col done fuel with
  | nil =>
      obtain ⟨fuel, rfl⟩ : ∃ n, fuel = n + 1 := ⟨fuel - 1, by omega⟩
      obtain ⟨dev₁, getcEq, past, copying₁⟩ := copying.getc
      obtain ⟨dev₂, ungetcEq, at₂, bufferEq⟩ := past.ungetc
      have legal := past.chars e (by simp)
      refine ⟨done.length, dev₂, ?_, at₂, ?_⟩
      · simp only [copyAtomLoop, getcEq, bind, Except.bind, legal.toChr, if_neg legal.ne_zero,
          ends, if_true, ungetcEq, pure, Except.pure]
      · simpa [bufferEq] using copying₁.filled
  | cons c cs ih =>
      simp only [List.length_cons] at enough
      obtain ⟨fuel, rfl⟩ : ∃ n, fuel = n + 1 := ⟨fuel - 1, by omega⟩
      obtain ⟨dev₁, getcEq, past, copying₁⟩ := copying.getc
      have legal := past.chars c (by simp)
      obtain ⟨dev₂, putEq, copying₂⟩ := copying₁.put (tolower c)
      have eofEq : dev₂.aklIoEof = .ok false := copying₂.at_.eof_append
      obtain ⟨n, dev', loopEq, copying'⟩ :=
        ih (fun c mem => inside c (List.mem_cons_of_mem _ mem)) copying₂
          (show cs.length < fuel by omega)
      refine ⟨n, dev', ?_, ?_⟩
      · rw [List.length_append, List.length_singleton] at loopEq
        simp only [copyAtomLoop, getcEq, bind, Except.bind, legal.toChr, if_neg legal.ne_zero,
          inside c (by simp), putEq, eofEq, Bool.false_eq_true, if_false, loopEq]
      · simpa [Column.advance_succ] using copying'

/-- `copy_number` up to the character that ends the number, or to the end of the
text. -/
theorem Copying.copyNumberLoop {ds : List Chr} (inside : ∀ c ∈ ds, isValidInNumber c = true)
    (ends : ∀ c ∈ r.head?, isValidInNumber c = false)
    (copying : dev.Copying col (ds ++ r) done)
    (more : ds ++ r ≠ [] ∨ dev.aklIoEof = .ok false) {fuel : Nat} (enough : ds.length < fuel) :
    ∃ n dev', Dev.copyNumberLoop fuel done.length dev = .ok (n, dev') ∧
      dev'.Copying (col.advance ds.length) r (done ++ ds) := by
  induction ds generalizing dev col done fuel with
  | nil =>
      obtain ⟨fuel, rfl⟩ : ∃ n, fuel = n + 1 := ⟨fuel - 1, by omega⟩
      rw [List.nil_append] at copying more
      cases r with
      | nil =>
          rcases copying.at_.end with eofEq | ⟨-, dev₁, getcEq, -, dev₂, ungetcEq, at₂, bufferEq⟩
          · rcases more with nonempty | eofEq'
            · exact absurd rfl nonempty
            · cases eofEq.symm.trans eofEq'
          · refine ⟨done.length, dev₂, ?_, at₂, ?_⟩
            · have notZero : eof ≠ 0 := by decide
              have invalid : isValidInNumber (toChr eof) = false := by decide
              simp only [Dev.copyNumberLoop, getcEq, bind, Except.bind, if_neg notZero, invalid,
                Bool.false_eq_true, if_false, ungetcEq, pure, Except.pure]
            · simpa [bufferEq] using copying.filled
      | cons e r =>
          obtain ⟨dev₁, getcEq, past, copying₁⟩ := copying.getc
          obtain ⟨dev₂, ungetcEq, at₂, bufferEq⟩ := past.ungetc
          have legal := past.chars e (by simp)
          refine ⟨done.length, dev₂, ?_, at₂, ?_⟩
          · simp only [Dev.copyNumberLoop, getcEq, bind, Except.bind, if_neg legal.ne_zero,
              legal.toChr, ends e rfl, Bool.false_eq_true, if_false, ungetcEq, pure, Except.pure]
          · simpa [bufferEq] using copying₁.filled
  | cons d ds ih =>
      simp only [List.length_cons] at enough
      obtain ⟨fuel, rfl⟩ : ∃ n, fuel = n + 1 := ⟨fuel - 1, by omega⟩
      obtain ⟨dev₁, getcEq, past, copying₁⟩ := copying.getc
      have legal := past.chars d (by simp)
      obtain ⟨dev₂, putEq, copying₂⟩ := copying₁.put d
      have stepEq : Dev.copyNumberLoop (fuel + 1) done.length dev =
          (dev₂.aklIoEof >>= fun b =>
            if b then .ok (done.length + 1, dev₂)
            else Dev.copyNumberLoop fuel (done.length + 1) dev₂) := by
        simp only [Dev.copyNumberLoop, getcEq, bind, Except.bind, if_neg legal.ne_zero,
          legal.toChr, inside d (by simp), if_true, putEq, pure, Except.pure]
      -- the end of a string is seen here, that of a file in the next round
      have continued (eofEq : dev₂.aklIoEof = .ok false)
          (more₂ : ds ++ r ≠ [] ∨ dev₂.aklIoEof = .ok false) :
          ∃ n dev', Dev.copyNumberLoop (fuel + 1) done.length dev = .ok (n, dev') ∧
            dev'.Copying (col.advance (ds.length + 1)) r (done ++ d :: ds) := by
        obtain ⟨n, dev', loopEq, copying'⟩ :=
          ih (fun c mem => inside c (List.mem_cons_of_mem _ mem)) copying₂ more₂
            (show ds.length < fuel by omega)
        refine ⟨n, dev', ?_, ?_⟩
        · rw [List.length_append, List.length_singleton] at loopEq
          rw [stepEq, eofEq]
          exact loopEq
        · simpa [Column.advance_succ] using copying'
      cases restEq : ds ++ r with
      | nil =>
          obtain ⟨rfl, rfl⟩ := List.append_eq_nil_iff.mp restEq
          rcases copying₂.at_.end with eofEq | ⟨eofEq, -⟩
          · refine ⟨done.length + 1, dev₂, by rw [stepEq, eofEq]; rfl, ?_⟩
            simpa [Column.advance_succ] using copying₂
          · exact continued eofEq (.inr eofEq)
      | cons e r' =>
          have eofEq : dev₂.aklIoEof = .ok false := by
            have at₂ : dev₂.At col.next (e :: r') := restEq ▸ copying₂.at_
            exact at₂.eof_cons
          exact continued eofEq (.inr eofEq)

/-- `copy_string` up to the closing quote. -/
theorem Copying.copyString {raw text : List Chr} (body : StringBody raw text)
    (copying : dev.Copying col (raw ++ code '"' :: r) done) {fuel : Nat}
    (enough : raw.length < fuel) :
    ∃ n dev', copyStringLoop fuel done.length dev = .ok (n, dev') ∧
      dev'.Copying (col.advance (raw.length + 1)) r (done ++ text) := by
  have quoteNotEscape : code '"' ≠ code '\\' := by decide
  have escapeNotZero : code '\\' ≠ 0 := by decide
  induction body generalizing dev col done fuel with
  | nil =>
      obtain ⟨fuel, rfl⟩ : ∃ n, fuel = n + 1 := ⟨fuel - 1, by omega⟩
      obtain ⟨dev₁, getcEq, past, copying₁⟩ := copying.getc
      have legal := past.chars _ List.mem_cons_self
      refine ⟨done.length, dev₁, ?_, by simpa [Column.advance_succ] using copying₁⟩
      simp only [copyStringLoop, getcEq, bind, Except.bind, legal.toChr, if_neg legal.ne_zero,
        if_neg quoteNotEscape, ne_eq, not_true, if_false, pure, Except.pure]
  | @plain ch raw text notEscape notQuote others ih =>
      simp only [List.length_cons] at enough
      obtain ⟨fuel, rfl⟩ : ∃ n, fuel = n + 1 := ⟨fuel - 1, by omega⟩
      obtain ⟨dev₁, getcEq, past, copying₁⟩ := copying.getc
      have legal := past.chars ch (by simp)
      obtain ⟨dev₂, putEq, copying₂⟩ := copying₁.put ch
      have eofEq : dev₂.aklIoEof = .ok false := copying₂.at_.eof_append
      obtain ⟨n, dev', loopEq, copying'⟩ := ih copying₂ (show raw.length < fuel by omega)
      refine ⟨n, dev', ?_, by simpa [Column.advance_succ] using copying'⟩
      rw [List.length_append, List.length_singleton] at loopEq
      simp only [copyStringLoop, getcEq, bind, Except.bind, legal.toChr, if_neg legal.ne_zero,
        if_neg notEscape, ne_eq, notQuote, not_false_eq_true, if_true, putEq, eofEq,
        Bool.false_eq_true, if_false, loopEq]
  | @quote raw text others ih =>
      simp only [List.length_cons] at enough
      obtain ⟨fuel, rfl⟩ : ∃ n, fuel = n + 1 := ⟨fuel - 1, by omega⟩
      obtain ⟨dev₁, getcEq, past, copying₁⟩ := copying.getc
      obtain ⟨dev₂, getcEq₂, past₂, copying₂⟩ := copying₁.getc
      have legal := past.chars _ List.mem_cons_self
      have legal₂ := past₂.chars _ List.mem_cons_self
      obtain ⟨dev₃, putEq, copying₃⟩ := copying₂.put (code '"')
      have eofEq : dev₃.aklIoEof = .ok false := copying₃.at_.eof_append
      obtain ⟨n, dev', loopEq, copying'⟩ := ih copying₃ (show raw.length < fuel by omega)
      refine ⟨n, dev', ?_, by simpa [Column.advance_succ] using copying'⟩
      rw [List.length_append, List.length_singleton] at loopEq
      simp only [copyStringLoop, getcEq, bind, Except.bind, legal.toChr, if_neg legal.ne_zero,
        if_true, getcEq₂, legal₂.toChr, putEq, eofEq, Bool.false_eq_true, if_false, loopEq]
  | @escape ch raw text notQuote others ih =>
      simp only [List.length_cons] at enough
      obtain ⟨fuel, rfl⟩ : ∃ n, fuel = n + 1 := ⟨fuel - 1, by omega⟩
      obtain ⟨dev₁, getcEq, past, copying₁⟩ := copying.getc
      obtain ⟨dev₂, getcEq₂, past₂, copying₂⟩ := copying₁.getc
      have legal := past.chars _ List.mem_cons_self
      have legal₂ := past₂.chars ch (by simp)
      obtain ⟨dev₃, putEq, copying₃⟩ := copying₂.put (code '\\')
      obtain ⟨dev₄, putEq₂, copying₄⟩ := copying₃.put ch
      have eofEq : dev₄.aklIoEof = .ok false := copying₄.at_.eof_append
      obtain ⟨n, dev', loopEq, copying'⟩ := ih copying₄ (show raw.length < fuel by omega)
      refine ⟨n, dev', ?_, by simpa [Column.advance_succ] using copying'⟩
      simp only [List.length_append, List.length_singleton] at loopEq putEq₂
      simp only [copyStringLoop, getcEq, bind, Except.bind, legal.toChr, if_neg legal.ne_zero,
        if_true, getcEq₂, legal₂.toChr, if_neg notQuote, putEq, putEq₂, eofEq,
        Bool.false_eq_true, if_false, loopEq]

/-- The rest of a comment line. -/
theorem At.skipComment {line : List Chr} (inside : ∀ ch ∈ line, ch ≠ code '\n')
    (at_ : dev.At col (line ++ code '\n' :: r)) {fuel : Nat} (enough : line.length < fuel) :
    ∃ dev', Dev.skipComment fuel dev = .ok (false, dev') ∧
      dev'.At (col.advance (line.length + 1)) r ∧ dev'.iodBuffer = dev.iodBuffer := by
  induction line generalizing dev col fuel with
  | nil =>
      obtain ⟨fuel, rfl⟩ : ∃ n, fuel = n + 1 := ⟨fuel - 1, by omega⟩
      obtain ⟨dev₁, getcEq, past, bufferEq⟩ := at_.getc
      have legal := past.chars _ List.mem_cons_self
      refine ⟨dev₁, ?_, past.at, bufferEq⟩
      simp only [Dev.skipComment, getcEq, bind, Except.bind, legal.toChr, if_true, pure,
        Except.pure]
  | cons ch line ih =>
      simp only [List.length_cons] at enough
      obtain ⟨fuel, rfl⟩ : ∃ n, fuel = n + 1 := ⟨fuel - 1, by omega⟩
      obtain ⟨dev₁, getcEq, past, bufferEq⟩ := at_.getc
      have legal := past.chars ch (by simp)
      have eofEq : dev₁.aklIoEof = .ok false := past.at.eof_append
      obtain ⟨dev', loopEq, at', bufferEq'⟩ :=
        ih (fun c mem => inside c (List.mem_cons_of_mem _ mem))
        past.at (show line.length < fuel by omega)
      refine ⟨dev', ?_, at', bufferEq'.trans bufferEq⟩
      simp only [Dev.skipComment, getcEq, bind, Except.bind, legal.toChr,
        if_neg (inside ch (by simp)), eofEq, Bool.false_eq_true, if_false, loopEq]

/-- A comment that runs up to the end of the text. -/
theorem At.skipComment_end {line : List Chr} (inside : ∀ ch ∈ line, ch ≠ code '\n')
    (nonempty : line ≠ []) (at_ : dev.At col line) {fuel : Nat} (enough : line.length < fuel) :
    ∃ dev', Dev.skipComment fuel dev = .ok (true, dev') := by
  induction line generalizing dev col fuel with
  | nil => exact absurd rfl nonempty
  | cons ch line ih =>
      simp only [List.length_cons] at enough
      obtain ⟨fuel, rfl⟩ : ∃ n, fuel = n + 1 := ⟨fuel - 1, by omega⟩
      obtain ⟨dev₁, getcEq, past, -⟩ := at_.getc
      have legal := past.chars ch (by simp)
      have stepEq : Dev.skipComment (fuel + 1) dev =
          (dev₁.aklIoEof >>= fun b =>
            if b then .ok (true, dev₁) else Dev.skipComment fuel dev₁) := by
        simp only [Dev.skipComment, getcEq, bind, Except.bind, legal.toChr,
          if_neg (inside ch (by simp)), pure, Except.pure]
      cases line with
      | nil =>
          rcases past.at.end with eofEq | ⟨eofEq, dev₂, getcEq₂, eofEq₂, -⟩
          · exact ⟨dev₁, by rw [stepEq, eofEq]; rfl⟩
          · obtain ⟨fuel, rfl⟩ : ∃ n, fuel = n + 1 := ⟨fuel - 1, by simp at enough; omega⟩
            refine ⟨dev₂, ?_⟩
            have notNewline : toChr eof ≠ code '\n' := by decide
            rw [stepEq, eofEq]
            simp only [bind, Except.bind, Bool.false_eq_true, if_false, Dev.skipComment, getcEq₂,
              if_neg notNewline, eofEq₂, if_true, pure, Except.pure]
      | cons ch' line =>
          have eofEq : dev₁.aklIoEof = .ok false := past.at.eof_cons
          obtain ⟨dev', loopEq⟩ := ih (fun c mem => inside c (List.mem_cons_of_mem _ mem))
            (by simp) past.at (show (ch' :: line).length < fuel by omega)
          exact ⟨dev', by rw [stepEq, eofEq]; exact loopEq⟩

/-- The rest of a shebang line. -/
theorem At.skipShebang {line : List Chr} (inside : ∀ ch ∈ line, ch ≠ code '\n')
    (at_ : dev.At col (line ++ code '\n' :: r)) {fuel : Nat} (enough : line.length < fuel) :
    ∃ dev', Dev.skipShebang fuel dev = .ok (code '\n', dev') ∧
      dev'.At (col.advance (line.length + 1)) r ∧ dev'.iodBuffer = dev.iodBuffer := by
  induction line generalizing dev col fuel with
  | nil =>
      obtain ⟨fuel, rfl⟩ : ∃ n, fuel = n + 1 := ⟨fuel - 1, by omega⟩
      obtain ⟨dev₁, getcEq, past, bufferEq⟩ := at_.getc
      have legal := past.chars _ List.mem_cons_self
      refine ⟨dev₁, ?_, past.at, bufferEq⟩
      simp only [Dev.skipShebang, getcEq, bind, Except.bind, legal.toChr, or_true, if_true, pure,
        Except.pure]
  | cons ch line ih =>
      simp only [List.length_cons] at enough
      obtain ⟨fuel, rfl⟩ : ∃ n, fuel = n + 1 := ⟨fuel - 1, by omega⟩
      obtain ⟨dev₁, getcEq, past, bufferEq⟩ := at_.getc
      have legal := past.chars ch (by simp)
      obtain ⟨dev', loopEq, at', bufferEq'⟩ :=
        ih (fun c mem => inside c (List.mem_cons_of_mem _ mem))
        past.at (show line.length < fuel by omega)
      refine ⟨dev', ?_, at', bufferEq'.trans bufferEq⟩
      simp only [Dev.skipShebang, getcEq, bind, Except.bind, legal.toChr, legal.ne_zero, false_or,
        if_neg (inside ch (by simp)), loopEq]

end Dev

end AkLisp
