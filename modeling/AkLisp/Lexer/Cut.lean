import AkLisp.Lexer.Bounds
import AkLisp.Lexer.InString
import AkLisp.Lexer.Interchange

/-!
# The tokens of a plain string

In a string without comments, `#` and double quotes the next token depends on the
rest of the string, on the pending sign with the character in front of the rest, and
on what the buffer holds.  `cut` says which token it is, what the buffer holds then,
and what is left of the string, in every case: a sign in front of an atom and an atom
at the end of the string are no exceptions.
-/

namespace AkLisp

open Outcome

/-- A string without comments, `#` and double quotes. -/
def Plain (r : List Chr) : Prop :=
  ∀ ch ∈ r, IsStringChar ch ∧ ch ≠ code ';' ∧ ch ≠ code '#' ∧ ch ≠ code '"'

/-- The characters up to the end of an atom. -/
def atomName (r : List Chr) : List Chr := r.takeWhile fun ch => !endsAtom ch

/-- What stands behind them. -/
def atomRest (r : List Chr) : List Chr := r.dropWhile fun ch => !endsAtom ch

/-- What the buffer holds behind an atom: if `copy_atom` reads no character, it is
left alone. -/
def atomText (buffer name : List Chr) : List Chr :=
  if name = [] then buffer else name.map tolower

/-- The next token of a plain string, with what the buffer holds behind it and the
rest of the string.  The sign `op` is pending and `last` is the last character read.
There is none at the end and at a byte that is taken for the end. -/
def cut (buffer : List Chr) : Chr → Chr → List Chr → Option (Token × List Chr × List Chr)
  | _, _, [] => none
  | op, last, ch :: r =>
      match classOf ch with
      | .endOfFile => none
      | .newline => cut buffer op ch r
      | .sign => if op = 0 then cut buffer ch ch r else some (.tATOM, [op, op], r)
      | .digit =>
          some (.tNUMBER, signText op ++ ch :: r.takeWhile isValidInNumber,
            r.dropWhile isValidInNumber)
      | .delimiter =>
          if op = 0 then
            if ch = code ')' then some (.tRBRACE, buffer, r) else cut buffer op ch r
          else some (.tATOM, [op], if ch = code ')' then ch :: r else r)
      | .opening =>
          if r.head? = some (code ')') then some (.tNIL, buffer, r.tail)
          else some (.tLBRACE, buffer, r)
      | .quote => some (.tQUOTE, buffer, r)
      | .atom =>
          let start := if op = 0 then ch :: r else last :: ch :: r
          let text := atomText buffer (atomName start)
          some (atomToken text, text, atomRest start)
      | .other => cut buffer op ch r
      | .doubleQuote => none
      | .semicolon => none

/-- One round of `cut`. -/
theorem cut_cons (buffer : List Chr) (op last : Chr) {ch : Chr} (r : List Chr) {c : CharClass}
    (kind : classOf ch = c) :
    cut buffer op last (ch :: r) =
      match c with
      | .endOfFile => none
      | .newline => cut buffer op ch r
      | .sign => if op = 0 then cut buffer ch ch r else some (.tATOM, [op, op], r)
      | .digit =>
          some (.tNUMBER, signText op ++ ch :: r.takeWhile isValidInNumber,
            r.dropWhile isValidInNumber)
      | .delimiter =>
          if op = 0 then
            if ch = code ')' then some (.tRBRACE, buffer, r) else cut buffer op ch r
          else some (.tATOM, [op], if ch = code ')' then ch :: r else r)
      | .opening =>
          if r.head? = some (code ')') then some (.tNIL, buffer, r.tail)
          else some (.tLBRACE, buffer, r)
      | .quote => some (.tQUOTE, buffer, r)
      | .atom =>
          let start := if op = 0 then ch :: r else last :: ch :: r
          let text := atomText buffer (atomName start)
          some (atomToken text, text, atomRest start)
      | .other => cut buffer op ch r
      | .doubleQuote => none
      | .semicolon => none := by
  rw [cut]
  simp only [kind]
  cases c <;> rfl

theorem atomToken_ne_eof (text : List Chr) : atomToken text ≠ .tEOF := by
  unfold atomToken
  split
  · exact Token.noConfusion
  · split
    · exact Token.noConfusion
    · exact Token.noConfusion

namespace Dev

variable {dev dev' : Dev} {before r str buffer : List Chr} {op last ch : Chr}

theorem Within.at (within : dev.Within before r) : dev.At none r where
  source := by
    rw [within.source]
    exact ⟨before, rfl, rfl⟩
  chars := fun ch mem => within.chars ch (List.mem_append_right _ mem)
  column := by simp
  room := within.room
  backlog := within.backlog

theorem Within.onString (within : dev.Within before r) : dev.OnString (before ++ r) :=
  ⟨before.length, within.source⟩

theorem At.within {col : Column} (at_ : dev.At col r) (on : dev.OnString str)
    (legal : ∀ ch ∈ str, IsStringChar ch) : ∃ before, str = before ++ r ∧ dev.Within before r := by
  obtain ⟨pos, source⟩ := on
  have placed := at_.source
  rw [source] at placed
  obtain ⟨before, rfl, rfl⟩ := placed
  exact ⟨before, rfl, source, legal, at_.room, at_.backlog⟩

/-- What a call delivers where `cut` finds a token or none. -/
def Delivers (str : List Chr) : Option (Token × List Chr × List Chr) →
    Except Fault (Token × Dev) → Prop
  | none, x => ∃ dev', x = .ok (.tEOF, dev')
  | some (tok, text, r), x => tok ≠ .tEOF ∧ ∃ dev', x = .ok (tok, dev') ∧
      (∃ before, str = before ++ r ∧ dev'.Within before r) ∧ dev'.bufferText = text

theorem Within.delivers (within : dev.Within before r) {tok : Token} (notEof : tok ≠ .tEOF)
    {text : List Chr} (textEq : dev.bufferText = text) :
    Delivers (before ++ r) (some (tok, text, r)) (.ok (tok, dev)) :=
  ⟨notEof, dev, rfl, ⟨before, rfl, within⟩, textEq⟩

theorem bufferText_congr (bufferEq : dev'.iodBuffer = dev.iodBuffer) :
    dev'.bufferText = dev.bufferText := by
  rw [bufferText, bufferText, bufferEq]

/-- The branch of a digit. -/
theorem Within.cut_digit (within : dev.Within (before ++ [ch]) r) (digit : isdigit ch = true)
    (signed : op = 0 ∨ IsSign op) :
    Delivers (before ++ ch :: r)
      (some (.tNUMBER, signText op ++ ch :: r.takeWhile isValidInNumber,
        r.dropWhile isValidInNumber)) (dev.lexNumber op ch) := by
  obtain ⟨dev₁, ungetcEq, within₁, -⟩ := within.ungetc ch
  have valid : isValidInNumber ch = true := by rw [isValidInNumber, if_pos digit]
  have digitsEq : ch :: r =
      (ch :: r.takeWhile isValidInNumber) ++ r.dropWhile isValidInNumber := by
    rw [List.cons_append, List.takeWhile_append_dropWhile]
  have at₁ := within₁.at
  rw [digitsEq] at at₁
  obtain ⟨n, dev₂, copyEq, copying⟩ := at₁.copyNumber _ (by
    intro c mem
    rcases List.mem_cons.mp mem with rfl | mem
    · exact valid
    · exact List.all_eq_true.mp List.all_takeWhile c mem) (by simp) (by
    intro c mem
    have := List.head?_dropWhile_not isValidInNumber r
    rw [Option.mem_def.mp mem] at this
    simpa using this) op
  have usable : dev₁.Usable fun s => ∃ pos, s = .string (before ++ ch :: r) pos :=
    ⟨by obtain ⟨block, buffer, -⟩ := within₁.room; simp [HasBuffer, buffer], within₁.onString⟩
  have on₂ := ((usable.copyNumber (kept_onString _) op).ok copyEq).source
  refine ⟨Token.noConfusion, dev₂, ?_, copying.at_.within on₂ within₁.chars, ?_⟩
  · simp only [lexNumber, ungetcEq, copyEq, bind, Except.bind, pure, Except.pure]
  · refine (copying.bufferText (by simp) ?_).1
    intro c mem
    rcases List.mem_append.mp mem with sign | mem
    · rcases signed with rfl | isSign
      · simp [signText] at sign
      · simp only [signText, if_neg isSign.ne_zero, List.mem_singleton] at sign
        exact sign ▸ isSign.ne_zero
    · refine (within₁.chars c ?_).ne_zero
      rw [digitsEq]
      exact List.mem_append_right _ (List.mem_append_left _ mem)

/-- What `copy_atom` does at any place in front of the end. -/
theorem Within.cut_name (within : dev.Within before r) (nonempty : r ≠ []) :
    ∃ n dev', dev.copyAtom = .ok (n, dev') ∧
      (∃ before', before ++ r = before' ++ atomRest r ∧ dev'.Within before' (atomRest r)) ∧
      dev'.bufferText = atomText dev.bufferText (atomName r) := by
  have splitEq : r = atomName r ++ atomRest r := List.takeWhile_append_dropWhile.symm
  have insideName : ∀ c ∈ atomName r, endsAtom c = false := by
    intro c mem
    simpa using List.all_eq_true.mp List.all_takeWhile c mem
  have ends : ∀ c ∈ (atomRest r).head?, endsAtom c = true := by
    intro c mem
    have := List.head?_dropWhile_not (fun ch => !endsAtom ch) r
    rw [show r.dropWhile (fun ch => !endsAtom ch) = atomRest r from rfl,
      Option.mem_def.mp mem] at this
    simpa using this
  by_cases empty : atomName r = []
  · -- the first character ends the atom and is pushed back
    have restEq : atomRest r = r := by
      rw [empty, List.nil_append] at splitEq
      exact splitEq.symm
    obtain ⟨c, r, rfl⟩ := List.exists_cons_of_ne_nil nonempty
    have endsFirst : endsAtom c = true := ends c (by rw [restEq]; rfl)
    have legal := within.chars c (by simp)
    obtain ⟨dev₁, getcEq, within₁, -, bufferEq⟩ := within.getc
    obtain ⟨dev₂, ungetcEq, within₂, bufferEq₂⟩ := within₁.ungetc c
    refine ⟨0, dev₂, ?_, ⟨before, by rw [restEq], by rw [restEq]; exact within₂⟩, ?_⟩
    · rw [Dev.copyAtom, within.rounds]
      simp only [copyAtomLoop, getcEq, bind, Except.bind, legal.toChr, if_neg legal.ne_zero,
        endsFirst, if_true, ungetcEq, pure, Except.pure]
    · rw [atomText, if_pos empty, bufferText_congr (bufferEq₂.trans bufferEq)]
  · have at_ := within.at
    rw [splitEq] at at_
    have on : dev.OnString (before ++ r) := within.onString
    obtain ⟨n, dev', copyEq, copying⟩ := at_.copyAtom insideName empty ends on
    have usable : dev.Usable fun s => ∃ pos, s = .string (before ++ r) pos :=
      ⟨by obtain ⟨block, buffer, -⟩ := within.room; simp [HasBuffer, buffer], on⟩
    have on' := ((usable.copyAtomLoop (kept_onString _) _ 0).ok copyEq).source
    refine ⟨n, dev', copyEq, copying.at_.within on' within.chars, ?_⟩
    rw [atomText, if_neg empty]
    refine (copying.atom empty (fun c mem => within.chars c ?_) none).1
    rw [splitEq]
    exact List.mem_append_right _ (List.mem_append_left _ mem)

/-- The branch of an atom. -/
theorem Within.cut_atom (within : dev.Within (before ++ [ch]) r)
    (signed : op = 0 ∨ IsSign op ∧ ∃ front, before = front ++ [last]) {start : List Chr}
    (startEq : start = if op = 0 then ch :: r else last :: ch :: r) :
    Delivers (before ++ ch :: r)
      (some (atomToken (atomText dev.bufferText (atomName start)),
        atomText dev.bufferText (atomName start), atomRest start)) (dev.lexAtom op ch) := by
  rcases signed with rfl | ⟨isSign, front, rfl⟩
  · rw [if_pos rfl] at startEq
    subst startEq
    obtain ⟨dev₁, ungetcEq, within₁, bufferEq₁⟩ := within.ungetc ch
    obtain ⟨n, dev₂, copyEq, placed, textEq⟩ := within₁.cut_name (List.cons_ne_nil ch r)
    rw [bufferText_congr bufferEq₁] at textEq
    refine ⟨atomToken_ne_eof _, dev₂, ?_, placed, textEq⟩
    rw [lexAtom_plain ⟨_, ungetcEq⟩ copyEq, textEq]
  · rw [if_neg isSign.ne_zero] at startEq
    subst startEq
    obtain ⟨dev₁, ungetcEq, within₁, bufferEq₁⟩ := within.ungetc op
    obtain ⟨dev₂, ungetcEq₂, within₂, bufferEq₂⟩ := within₁.ungetc ch
    obtain ⟨n, dev₃, copyEq, placed, textEq⟩ := within₂.cut_name (List.cons_ne_nil last (ch :: r))
    rw [bufferText_congr (bufferEq₂.trans bufferEq₁)] at textEq
    refine ⟨atomToken_ne_eof _, dev₃, ?_, ?_, textEq⟩
    · rw [lexAtom_signed isSign ⟨_, ungetcEq⟩ ⟨_, ungetcEq₂⟩ copyEq, textEq]
    · simpa using placed

/-- The branch of an opening parenthesis. -/
theorem Within.cut_opening (within : dev.Within before r) :
    Delivers (before ++ r)
      (if r.head? = some (code ')') then some (.tNIL, dev.bufferText, r.tail)
        else some (.tLBRACE, dev.bufferText, r)) dev.lexOpen := by
  have moved : Within { dev with iodColumn := dev.iodCharCount + 1 } before r :=
    within.withColumn _
  cases r with
  | nil =>
      obtain ⟨dev₁, getcEq, spent, bufferEq⟩ := moved.getc_nil
      obtain ⟨dev₂, ungetcEq, within₂, bufferEq₂⟩ := spent.ungetc (toChr 0)
      have notClose : toChr 0 ≠ code ')' := by decide
      have openEq : dev.lexOpen = .ok (.tLBRACE, dev₂) := by
        simp only [Dev.lexOpen, getcEq, bind, Except.bind, if_neg notClose, ungetcEq, pure,
          Except.pure]
      have textEq : dev₂.bufferText = dev.bufferText :=
        bufferText_congr (bufferEq₂.trans bufferEq)
      rw [openEq, List.head?_nil, if_neg (by simp)]
      exact within₂.delivers Token.noConfusion textEq
  | cons c r =>
      obtain ⟨dev₁, getcEq, within₁, -, bufferEq⟩ := moved.getc
      have legal := within.chars c (by simp)
      by_cases close : c = code ')'
      · have openEq : dev.lexOpen = .ok (.tNIL, dev₁) := by
          simp only [Dev.lexOpen, getcEq, bind, Except.bind, legal.toChr, if_pos close, pure,
            Except.pure]
        have textEq : dev₁.bufferText = dev.bufferText := bufferText_congr bufferEq
        have delivers : Delivers (before ++ [c] ++ r) (some (.tNIL, dev.bufferText, r))
            (.ok (.tNIL, dev₁)) := within₁.delivers Token.noConfusion textEq
        rw [openEq, List.head?_cons, if_pos (congrArg some close), List.tail_cons]
        simpa using delivers
      · obtain ⟨dev₂, ungetcEq, within₂, bufferEq₂⟩ := within₁.ungetc (toChr c)
        have openEq : dev.lexOpen = .ok (.tLBRACE, dev₂) := by
          rw [legal.toChr] at ungetcEq
          simp only [Dev.lexOpen, getcEq, bind, Except.bind, legal.toChr,
            if_neg close, ungetcEq, pure,
            Except.pure]
        have textEq : dev₂.bufferText = dev.bufferText :=
          bufferText_congr (bufferEq₂.trans bufferEq)
        rw [openEq, List.head?_cons, if_neg (fun equal => close (Option.some.inj equal))]
        exact within₂.delivers Token.noConfusion textEq

/-- The loop of `akl_lex` delivers what `cut` finds. -/
theorem Within.cut (plain : Plain r) (within : dev.Within before r)
    (signed : op = 0 ∨ IsSign op ∧ ∃ front, before = front ++ [last]) {fuel : Nat}
    (enough : r.length < fuel) :
    Delivers (before ++ r) (AkLisp.cut dev.bufferText op last r) (Dev.lexLoop fuel op dev) := by
  induction r generalizing dev before op last fuel with
  | nil =>
      obtain ⟨fuel, rfl⟩ : ∃ n, fuel = n + 1 := ⟨fuel - 1, by omega⟩
      obtain ⟨dev₁, getcEq, -⟩ := within.getc_nil
      exact ⟨dev₁, by rw [Dev.lexLoop, getcEq]; rfl⟩
  | cons ch r ih =>
      simp only [List.length_cons] at enough
      obtain ⟨fuel, rfl⟩ : ∃ n, fuel = n + 1 := ⟨fuel - 1, by omega⟩
      obtain ⟨legal, notComment, notHash, notQuote⟩ := plain ch List.mem_cons_self
      have plain₁ : Plain r := fun c mem => plain c (List.mem_cons_of_mem _ mem)
      obtain ⟨dev₁, getcEq, within₁, -, bufferEq₁⟩ := within.getc
      have textEq₁ : dev₁.bufferText = dev.bufferText := bufferText_congr bufferEq₁
      have wholeEq : before ++ ch :: r = before ++ [ch] ++ r := by simp
      have round {c : CharClass} (kind : classOf ch = c) :=
        lexLoop_round fuel op getcEq legal.toChr legal.ne_zero kind fun both => notHash both.2
      -- the recursive call behind a character that is skipped
      have skipped {dev₂ : Dev} (within₂ : dev₂.Within (before ++ [ch]) r)
          (textEq₂ : dev₂.bufferText = dev.bufferText)
          (op' : Chr) (signed' : op' = 0 ∨ IsSign op') :
          Delivers (before ++ ch :: r) (AkLisp.cut dev.bufferText op' ch r)
            (Dev.lexLoop fuel op' dev₂) := by
        rw [wholeEq, ← textEq₂]
        exact ih plain₁ within₂ (signed'.imp id fun isSign => ⟨isSign, before, rfl⟩) (by omega)
      have signed₁ : op = 0 ∨ IsSign op := signed.imp id And.left
      cases kind : classOf ch with
      | endOfFile =>
          rw [round kind, cut_cons _ _ _ _ kind]
          exact ⟨dev₁, rfl⟩
      | newline =>
          rw [round kind, cut_cons _ _ _ _ kind]
          exact skipped within₁.newline textEq₁ op signed₁
      | sign =>
          have isSign : IsSign ch := CharClass.is_of_eq kind
          rw [round kind, cut_cons _ _ _ _ kind]
          rcases signed₁ with rfl | pending
          · simp only [ne_eq, not_true, if_false, if_true]
            exact skipped within₁ textEq₁ ch (.inr isSign)
          · obtain ⟨block, buffer, large⟩ := within₁.room
            obtain ⟨block', copyEq, filled⟩ := signAtom_filled dev₁ buffer large pending
              (Nat.le_refl 2)
            have textEq := (filled.takeWhile (by simp) (by simp [pending.ne_zero])).1
            simp only [ne_eq, pending.ne_zero, not_false_eq_true, if_true, if_false, copyEq, bind,
              Except.bind]
            rw [wholeEq]
            exact (within₁.withBuffer filled).delivers Token.noConfusion textEq
      | digit =>
          rw [round kind, cut_cons _ _ _ _ kind]
          exact within₁.cut_digit (CharClass.is_of_eq kind) signed₁
      | delimiter =>
          have within₁' := within₁.withColumn (dev₁.iodCharCount + 1)
          rw [round kind, cut_cons _ _ _ _ kind]
          rcases signed₁ with rfl | pending
          · simp only [ne_eq, not_true, if_false, if_true]
            by_cases close : ch = code ')'
            · simp only [if_pos close]
              rw [wholeEq]
              exact within₁'.delivers Token.noConfusion textEq₁
            · simp only [if_neg close]
              exact skipped within₁' textEq₁ 0 (.inl rfl)
          · obtain ⟨block, buffer, large⟩ := within₁'.room
            obtain ⟨block', copyEq, filled⟩ := signAtom_filled _ buffer large pending
              (show 1 ≤ 2 by omega)
            have textEq := (filled.takeWhile (by simp) (by simp [pending.ne_zero])).1
            have within₂ := within₁'.withBuffer filled
            simp only [ne_eq, pending.ne_zero, not_false_eq_true, if_true, if_false, copyEq, bind,
              Except.bind]
            by_cases close : ch = code ')'
            · obtain ⟨dev₃, ungetcEq, within₃, bufferEq₃⟩ := within₂.ungetc ch
              simp only [if_pos close]
              rw [ungetcEq]
              exact within₃.delivers Token.noConfusion ((bufferText_congr bufferEq₃).trans textEq)
            · simp only [if_neg close]
              rw [wholeEq]
              exact within₂.delivers Token.noConfusion textEq
      | doubleQuote => exact absurd (CharClass.is_of_eq kind) notQuote
      | opening =>
          rw [round kind, cut_cons _ _ _ _ kind, wholeEq, ← textEq₁]
          exact within₁.cut_opening
      | quote =>
          rw [round kind, cut_cons _ _ _ _ kind, wholeEq]
          exact within₁.delivers Token.noConfusion textEq₁
      | semicolon => exact absurd (CharClass.is_of_eq kind) notComment
      | atom =>
          rw [round kind, cut_cons _ _ _ _ kind, ← textEq₁]
          exact within₁.cut_atom signed rfl
      | other =>
          rw [round kind, cut_cons _ _ _ _ kind]
          exact skipped within₁ textEq₁ op signed₁

end Dev

end AkLisp
