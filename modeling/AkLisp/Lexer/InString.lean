import AkLisp.Lexer.Bounds
import AkLisp.Lexer.Buffer

/-!
# The tokens of a string

In a string an atom may run up to the end, and a sign may stand directly in front
of an atom: pushing back goes back by one, whatever the character is.
`StringLexes` has a rule for each of these next to those of `Lexes`, and a device
that reads a string delivers the tokens accordingly.
-/

namespace AkLisp

open Outcome

/-- With `col` characters of the line read, the string goes on with the token. -/
inductive StringLexes : Column → List Chr → Token → Option (List Chr) → Column → List Chr →
    Prop where
  | common {col r tok w col' r'} (lexes : Lexes col 0 r tok w col' r') :
      StringLexes col r tok w col' r'
  | blank {col : Column} {r tok w col' r'} (next : StringLexes col.next r tok w col' r') :
      StringLexes col (code ' ' :: r) tok w col' r'
  | atom {col : Column} {ch cs r} (kind : classOf ch = .atom)
      (plain : ch = code '#' → ∃ k, col = some k ∧ k + 1 ≠ 1)
      (inside : ∀ c ∈ cs, endsAtom c = false) (ends : ∀ e ∈ r.head?, endsAtom e = true) :
      StringLexes col (ch :: cs ++ r) (atomToken ((ch :: cs).map tolower))
        (some ((ch :: cs).map tolower)) (col.advance (cs.length + 1)) r
  | signedAtom {col : Column} {op ch cs r} (isSign : IsSign op) (kind : classOf ch = .atom)
      (plain : ch = code '#' → ∃ k, col.next = some k ∧ k + 1 ≠ 1)
      (inside : ∀ c ∈ cs, endsAtom c = false) (ends : ∀ e ∈ r.head?, endsAtom e = true) :
      StringLexes col (op :: ch :: cs ++ r) (atomToken ((op :: ch :: cs).map tolower))
        (some ((op :: ch :: cs).map tolower)) (col.advance (cs.length + 2)) r

namespace Dev

/-- The device reads this string. -/
def OnString (dev : Dev) (str : List Chr) : Prop := ∃ pos, dev.iodSource = .string str pos

variable {dev dev₁ dev₂ : Dev} {str r done : List Chr} {col : Column} {c ch op : Chr}

theorem kept_onString (str : List Chr) : Source.Kept fun s => ∃ pos, s = .string str pos where
  getc := by
    rintro s ch s' ⟨pos, rfl⟩ getcEq
    rcases Source.charAt_cases str pos with ⟨c, charEq⟩ | charEq
    · simp only [Source.getc, charEq, bind, Except.bind, pure, Except.pure, Except.ok.injEq,
        Prod.mk.injEq] at getcEq
      exact ⟨_, getcEq.2.symm⟩
    · simp [Source.getc, charEq, bind, Except.bind] at getcEq
  ungetc := by
    rintro s x ch s' ⟨pos, rfl⟩ ungetcEq
    cases pos with
    | zero => simp [Source.ungetc] at ungetcEq
    | succ pos =>
        rcases Source.charAt_cases str pos with ⟨c, charEq⟩ | charEq
        · simp only [Source.ungetc, charEq, bind, Except.bind, pure, Except.pure, Except.ok.injEq,
            Prod.mk.injEq] at ungetcEq
          exact ⟨_, ungetcEq.2.symm⟩
        · simp [Source.ungetc, charEq, bind, Except.bind] at ungetcEq

theorem OnString.getc (on : dev.OnString str) (getcEq : dev.aklIoGetc = .ok (c, dev₁)) :
    dev₁.OnString str := by
  cases sourceEq : dev.iodSource.getc with
  | error f => simp [aklIoGetc, sourceEq, bind, Except.bind] at getcEq
  | ok p =>
      simp only [aklIoGetc, sourceEq, bind, Except.bind, pure, Except.pure, Except.ok.injEq,
        Prod.mk.injEq] at getcEq
      rw [← getcEq.2]
      exact (kept_onString str).getc on sourceEq

theorem OnString.putBuffer (on : dev.OnString str) {pos : Nat}
    (putEq : dev.putBuffer pos c = .ok dev₁) : dev₁.OnString str := by
  unfold Dev.putBuffer at putEq
  split at putEq
  · cases putEq
  · next block _ =>
      dsimp only at putEq
      generalize (if block.length ≤ pos + 1 then _ else block) = grown at putEq
      split at putEq
      · cases putEq
        exact on
      · cases putEq

/-- Pushing back any character undoes the reading of one. -/
theorem OnString.ungetc (on : dev.OnString str) (getcEq : dev.aklIoGetc = .ok (c, dev₁))
    (x : Chr) : ∃ c', dev₁.aklIoUngetc x = .ok (c', dev) := by
  obtain ⟨pos, source⟩ := on
  rcases Source.charAt_cases str pos with ⟨c', charEq⟩ | charEq
  · simp only [aklIoGetc, source, Source.getc, charEq, bind, Except.bind, pure, Except.pure,
      Except.ok.injEq, Prod.mk.injEq] at getcEq
    obtain ⟨-, rfl⟩ := getcEq
    refine ⟨c', ?_⟩
    simp only [aklIoUngetc, Source.ungetc, charEq, bind, Except.bind, pure, Except.pure,
      UInt32.add_sub_cancel, ← source]
  · simp [aklIoGetc, source, Source.getc, charEq, bind, Except.bind] at getcEq

theorem At.eof_end (at_ : dev.At col []) (on : dev.OnString str) : dev.aklIoEof = .ok true := by
  obtain ⟨pos, source⟩ := on
  have placed := at_.source
  rw [source] at placed
  obtain ⟨before, rfl, rfl⟩ := placed
  rw [List.append_nil] at source
  rw [aklIoEof, source, Source.eof?, charAt_length]
  rfl

/-- `copy_atom` up to the end of the string. -/
theorem Copying.copyAtom_end {cs : List Chr} (inside : ∀ c ∈ cs, endsAtom c = false)
    (nonempty : cs ≠ []) (copying : dev.Copying col cs done) (on : dev.OnString str) {fuel : Nat}
    (enough : cs.length < fuel) :
    ∃ n dev', copyAtomLoop fuel done.length dev = .ok (n, dev') ∧
      dev'.Copying (col.advance cs.length) [] (done ++ cs.map tolower) := by
  induction cs generalizing dev col done fuel with
  | nil => exact absurd rfl nonempty
  | cons c cs ih =>
      simp only [List.length_cons] at enough
      obtain ⟨fuel, rfl⟩ : ∃ n, fuel = n + 1 := ⟨fuel - 1, by omega⟩
      obtain ⟨dev₁, getcEq, past, copying₁⟩ := copying.getc
      have legal := past.chars c (by simp)
      obtain ⟨dev₂, putEq, copying₂⟩ := copying₁.put (tolower c)
      have on₂ := (on.getc getcEq).putBuffer putEq
      have stepEq : copyAtomLoop (fuel + 1) done.length dev =
          (dev₂.aklIoEof >>= fun b =>
            if b then .ok (done.length + 1, dev₂)
            else copyAtomLoop fuel (done.length + 1) dev₂) := by
        simp only [copyAtomLoop, getcEq, bind, Except.bind, legal.toChr, if_neg legal.ne_zero,
          inside c (by simp), Bool.false_eq_true, if_false, putEq, pure, Except.pure]
      cases cs with
      | nil =>
          refine ⟨done.length + 1, dev₂, ?_, by simpa [Column.advance_succ] using copying₂⟩
          rw [stepEq, copying₂.at_.eof_end on₂]
          rfl
      | cons c' cs =>
          obtain ⟨n, dev', loopEq, copying'⟩ :=
            ih (fun c mem => inside c (List.mem_cons_of_mem _ mem)) (by simp) copying₂ on₂
              (show (c' :: cs).length < fuel by omega)
          refine ⟨n, dev', ?_, by simpa [Column.advance_succ] using copying'⟩
          rw [List.length_append, List.length_singleton] at loopEq
          rw [stepEq, copying₂.at_.eof_cons]
          exact loopEq

/-- `copy_atom` up to a character that ends the atom or to the end of the string. -/
theorem At.copyAtom {cs : List Chr} (inside : ∀ c ∈ cs, endsAtom c = false) (nonempty : cs ≠ [])
    (ends : ∀ e ∈ r.head?, endsAtom e = true) (at_ : dev.At col (cs ++ r))
    (on : dev.OnString str) :
    ∃ n dev', dev.copyAtom = .ok (n, dev') ∧
      dev'.Copying (col.advance cs.length) r (cs.map tolower) := by
  have rounds := at_.rounds
  rw [List.length_append] at rounds
  have enough : cs.length < dev.rounds := by omega
  cases r with
  | nil =>
      rw [List.append_nil] at at_
      exact at_.copying.copyAtom_end inside nonempty on enough
  | cons e r => exact at_.copying.copyAtom inside (ends e rfl) enough

/-- The branch of an atom without a sign. -/
theorem lexAtom_plain {n : Nat} (back : ∃ x, dev.aklIoUngetc ch = .ok (x, dev₁))
    (copyEq : dev₁.copyAtom = .ok (n, dev₂)) :
    dev.lexAtom 0 ch = .ok (atomToken dev₂.bufferText, dev₂) := by
  obtain ⟨x, ungetcEq⟩ := back
  have noSign : ¬((0 : Chr) = code '+' ∨ (0 : Chr) = code '-') := by decide
  simp only [lexAtom, if_neg noSign, bind, Except.bind, ungetcEq, copyEq, pure, Except.pure,
    atomToken]
  split
  · rfl
  · split <;> rfl

/-- The branch of an atom with a sign in front of it. -/
theorem lexAtom_signed {dev' : Dev} {n : Nat} (sign : IsSign op)
    (back : ∃ x, dev.aklIoUngetc op = .ok (x, dev'))
    (back' : ∃ x, dev'.aklIoUngetc ch = .ok (x, dev₁))
    (copyEq : dev₁.copyAtom = .ok (n, dev₂)) :
    dev.lexAtom op ch = .ok (atomToken dev₂.bufferText, dev₂) := by
  obtain ⟨x, ungetcEq⟩ := back
  obtain ⟨y, ungetcEq'⟩ := back'
  have isSign : op = code '+' ∨ op = code '-' := sign
  simp only [lexAtom, if_pos isSign, bind, Except.bind, ungetcEq, ungetcEq', copyEq, pure,
    Except.pure, atomToken]
  split
  · rfl
  · split <;> rfl

/-- What `copy_atom` leaves behind an atom. -/
theorem Copying.atom {name : List Chr} (copying : dev.Copying col r (name.map tolower))
    (nonempty : name ≠ []) (legal : ∀ c ∈ name, IsStringChar c) (start : Option (List Chr)) :
    dev.bufferText = name.map tolower ∧ dev.Delivered start (some (name.map tolower)) col r := by
  have noNul : ∀ c ∈ name.map tolower, c ≠ 0 := by
    intro c mem
    obtain ⟨a, inside, rfl⟩ := List.mem_map.mp mem
    exact tolower_ne_zero (legal a inside)
  exact ⟨(copying.bufferText (by simpa using nonempty) noNul).1,
    copying.delivered (by simpa using nonempty) noNul start⟩

end Dev

open Dev in
/-- The loop of `akl_lex` on a string delivers the token. -/
theorem StringLexes.sound {col col' : Column} {r r' : List Chr} {tok : Token}
    {w : Option (List Chr)} (lexes : StringLexes col r tok w col' r') {dev : Dev} {str : List Chr}
    (at_ : dev.At col r) (on : dev.OnString str) {fuel : Nat} (enough : r.length < fuel) :
    ∃ dev', lexLoop fuel 0 dev = .ok (tok, dev') ∧
      (tok ≠ .tEOF → dev'.Delivered dev.iodBuffer w col' r') := by
  obtain ⟨fuel, rfl⟩ : ∃ n, fuel = n + 1 := ⟨fuel - 1, by omega⟩
  induction lexes generalizing dev fuel with
  | common lexes => exact lexes.sound at_ enough
  | blank next ih =>
      simp only [List.length_cons] at enough
      obtain ⟨dev₁, getcEq, past, bufferEq⟩ := at_.getc
      obtain ⟨fuel, rfl⟩ : ∃ n, fuel = n + 1 := ⟨fuel - 1, by omega⟩
      rw [lexLoop_round _ _ getcEq (past.chars _ List.mem_cons_self).toChr
        (past.chars _ List.mem_cons_self).ne_zero
        (show classOf (code ' ') = .delimiter by decide) (by simp [code]), ← bufferEq]
      have notClose : code ' ' ≠ code ')' := by decide
      simp only [ne_eq, not_true, if_false, if_neg notClose]
      have on₁ : dev₁.OnString str := on.getc getcEq
      exact ih (past.at.withColumn (dev₁.iodCharCount + 1)) on₁ fuel (by omega)
  | @atom col ch cs r' kind plain inside ends =>
      obtain ⟨dev₁, getcEq, past, -⟩ := Dev.At.getc (r := cs ++ r') at_
      have legal := past.chars ch List.mem_cons_self
      have notShebang : ¬(dev₁.iodCharCount = 1 ∧ ch = code '#') := by
        rintro ⟨first, hash⟩
        obtain ⟨k, known, later⟩ := plain hash
        exact later ((past.column k known).symm.trans first)
      have notDelimiter : endsAtom ch = false := CharClass.is_of_eq kind
      obtain ⟨n, dev', copyEq, copying⟩ :=
        Dev.At.copyAtom (by simpa [notDelimiter] using inside) (List.cons_ne_nil ch cs) ends at_ on
      obtain ⟨textEq, delivered⟩ := copying.atom (List.cons_ne_nil ch cs)
        (fun c mem => at_.chars c (List.mem_append_left _ mem)) dev.iodBuffer
      refine ⟨dev', ?_, fun _ => delivered⟩
      rw [lexLoop_round _ _ getcEq legal.toChr legal.ne_zero kind notShebang]
      simp only [lexAtom_plain (on.ungetc getcEq ch) copyEq, textEq]
  | @signedAtom col op ch cs r' isSign kind plain inside ends =>
      obtain ⟨fuel, rfl⟩ : ∃ n, fuel = n + 1 := by
        simp only [List.cons_append, List.length_cons] at enough
        exact ⟨fuel - 1, by omega⟩
      obtain ⟨dev₁, getcEq, past, -⟩ := Dev.At.getc (r := ch :: cs ++ r') at_
      obtain ⟨dev₂, getcEq₂, past₂, -⟩ := Dev.At.getc (r := cs ++ r') past.at
      have legal := past.chars op List.mem_cons_self
      have legal₂ := past₂.chars ch List.mem_cons_self
      have notShebang : ¬(dev₂.iodCharCount = 1 ∧ ch = code '#') := by
        rintro ⟨first, hash⟩
        obtain ⟨k, known, later⟩ := plain hash
        exact later ((past₂.column k known).symm.trans first)
      have notDelimiter : endsAtom ch = false := CharClass.is_of_eq kind
      have signInside : endsAtom op = false := by rcases isSign with rfl | rfl <;> decide
      obtain ⟨n, dev', copyEq, copying⟩ :=
        Dev.At.copyAtom (by simpa [notDelimiter, signInside] using inside)
          (List.cons_ne_nil op (ch :: cs)) ends at_ on
      obtain ⟨textEq, delivered⟩ := copying.atom (List.cons_ne_nil op (ch :: cs))
        (fun c mem => at_.chars c (List.mem_append_left _ mem)) dev.iodBuffer
      refine ⟨dev', ?_, fun _ => delivered⟩
      rw [lexLoop_round _ _ getcEq legal.toChr legal.ne_zero isSign.classOf
        (by simp [isSign.not_hash])]
      simp only [ne_eq, not_true, if_false]
      rw [lexLoop_round _ _ getcEq₂ legal₂.toChr legal₂.ne_zero kind notShebang]
      have on₁ := on.getc getcEq
      simp only [lexAtom_signed isSign (on₁.ungetc getcEq₂ op) (on.ungetc getcEq ch) copyEq, textEq]

/-- A token whose text is fetched has put it into the buffer. -/
theorem StringLexes.written {col col' : Column} {r r' : List Chr} {tok : Token}
    {w : Option (List Chr)} (lexes : StringLexes col r tok w col' r')
    (hasText : tok.hasText = true) : ∃ text, w = some text := by
  induction lexes with
  | common lexes => exact lexes.written hasText
  | blank _ ih => exact ih hasText
  | atom => exact ⟨_, rfl⟩
  | signedAtom => exact ⟨_, rfl⟩

/-- A token takes a character. -/
theorem StringLexes.length_lt {col col' : Column} {r r' : List Chr} {tok : Token}
    {w : Option (List Chr)} (lexes : StringLexes col r tok w col' r') (notEof : tok ≠ .tEOF) :
    r'.length < r.length := by
  induction lexes with
  | common lexes => exact lexes.length_lt notEof
  | blank _ ih => exact Nat.lt_succ_of_lt (ih notEof)
  | atom =>
      simp only [List.cons_append, List.length_cons, List.length_append]
      omega
  | signedAtom =>
      simp only [List.cons_append, List.length_cons, List.length_append]
      omega

/-- The string goes on with these tokens. -/
inductive StringTokenizes : Column → List Chr → List (Token × Option (List Chr)) → Column →
    List Chr → Prop where
  | done {col r} : StringTokenizes col r [] col r
  | token {col r tok w col₁ r₁ toks col' r'} (lexes : StringLexes col r tok w col₁ r₁)
      (notEof : tok ≠ .tEOF) (others : StringTokenizes col₁ r₁ toks col' r') :
      StringTokenizes col r ((tok, w) :: toks) col' r'

namespace StringTokenizes

variable {col col₁ col' : Column} {r r₁ r' : List Chr}
    {toks others : List (Token × Option (List Chr))}

/-- A blank in front of a token is skipped. -/
theorem blank (tokenizes : StringTokenizes col.next r toks col' r') (nonempty : toks ≠ []) :
    StringTokenizes col (code ' ' :: r) toks col' r' := by
  cases tokenizes with
  | done => exact absurd rfl nonempty
  | token lexes notEof others => exact .token (.blank lexes) notEof others

/-- There are not more tokens than characters. -/
theorem length_le (tokenizes : StringTokenizes col r toks col' r') :
    toks.length + r'.length ≤ r.length := by
  induction tokenizes with
  | done => simp
  | token lexes notEof others ih =>
      have := lexes.length_lt notEof
      rw [List.length_cons]
      omega

end StringTokenizes

namespace Dev

/-- The device is about to read the rest of its string. -/
structure Reads (dev : Dev) (col : Column) (r : List Chr) : Prop where
  at_ : dev.At col r
  on : ∃ str, dev.OnString str

variable {dev : Dev} {col col' : Column} {r r' : List Chr} {tok : Token} {w : Option (List Chr)}

/-- `akl_lex` on a device with a string, initialised or not. -/
theorem Reads.aklLex (reads : dev.started.Reads col r)
    (lexes : StringLexes col r tok w col' r') (notEof : tok ≠ .tEOF) :
    ∃ dev', dev.aklLex = .ok (tok, dev') ∧ dev'.Delivered dev.started.iodBuffer w col' r' ∧
      dev'.Reads col' r' := by
  obtain ⟨at_, str, on⟩ := reads
  obtain ⟨dev', loopEq, delivered⟩ :=
    lexes.sound at_ on (show r.length < dev.started.rounds by rw [at_.rounds]; omega)
  have lexEq : dev.aklLex = .ok (tok, dev') := by
    simpa only [Dev.aklLex, at_.backlog, ne_eq, not_true, if_false] using loopEq
  have keeps : Keeps _ (Dev.lexLoop dev.started.rounds 0 dev.started) :=
    Usable.lexLoop ⟨dev.started_hasBuffer, on⟩ (kept_onString str) _ 0
  exact ⟨dev', lexEq, delivered notEof, (delivered notEof).at_, str, (keeps.ok loopEq).source⟩

end Dev

/-- A device is a source that delivers the tokens of its string. -/
def stringDelivery : Delivery Dev where
  Ready ls dev := ∃ col r toks col' r', dev.started.Reads col r ∧
    StringTokenizes col r toks col' r' ∧ toks.map deliveredLexeme = ls
  Lexed l ls dev := ∃ col r toks col' r', dev.Reads col r ∧ StringTokenizes col r toks col' r' ∧
    toks.map deliveredLexeme = ls ∧
    (l.tok.hasText = true →
      dev.bufferText = l.text ∧ ∃ block, dev.iodBuffer = some block ∧ 0 ∈ block)
  lex := by
    rintro l ls dev ⟨col, r, toks, col', r', reads, tokenizes, toksEq⟩
    cases tokenizes with
    | done => cases toksEq
    | @token _ _ tok w col₁ r₁ toks _ _ lexes notEof others =>
        cases toksEq
        obtain ⟨dev', lexEq, ⟨-, text, -⟩, reads'⟩ := reads.aklLex lexes notEof
        refine ⟨dev', lexEq, col₁, r₁, toks, col', r', reads', others, rfl, ?_⟩
        intro hasText
        obtain ⟨text', rfl⟩ := lexes.written hasText
        have hasText' : tok.hasText = true := hasText
        simpa only [deliveredLexeme, hasText', if_true, Option.getD_some] using text text' rfl
  forget := by
    rintro l ls dev ⟨col, r, toks, col', r', reads, tokenizes, toksEq, -⟩
    exact ⟨col, r, toks, col', r', reads.at_.started.symm ▸ reads, tokenizes, toksEq⟩
  text := by
    rintro l ls dev ⟨col, r, toks, col', r', ⟨at_, str, on⟩, tokenizes, toksEq, text⟩ hasText
    obtain ⟨dev', takeEq, at', sourceEq⟩ := at_.takeText (text hasText)
    have reads' : dev'.Reads col r := ⟨at', str, by rwa [Dev.OnString, sourceEq]⟩
    exact ⟨dev', takeEq, col, r, toks, col', r', at'.started.symm ▸ reads', tokenizes, toksEq⟩
  putback := by
    rintro l ls dev ⟨col, r, toks, col', r', reads, tokenizes, toksEq, text⟩ notEof
    exact ⟨dev, reads.at_.aklLex_putback notEof, col, r, toks, col', r', reads, tokenizes, toksEq,
      text⟩

end AkLisp
