import AkLisp.Lexer.Modes

/-!
# What the tokens spell

The tokens of a lower-case string spell the string without its blanks, as long as no
pending sign is dropped: in front of a parenthesis, of a quote and of the other sign
the lexer forgets which sign it has read.  No token spells more than it takes, so the
spellings make up for nothing that is lost elsewhere.
-/

namespace AkLisp

/-- A printable lower-case character or a blank, but no `;`, `#` or double quote. -/
def IsLower (ch : Chr) : Prop :=
  code ' ' ≤ ch ∧ ch < 127 ∧ isupper ch = false ∧ ch ≠ code ';' ∧ ch ≠ code '#' ∧ ch ≠ code '"'

/-- The characters other than blanks. -/
def nonBlank (r : List Chr) : List Chr := r.filter (· ≠ code ' ')

/-- The spelling of a token: the text of an atom or a number, a parenthesis, or what
has been taken for the token.  If `whole` is false, a sign that was pending in front of
the token does not belong to it. -/
def spelling (whole : Bool) (tok : Token) (text taken : List Chr) : List Chr :=
  match tok with
  | .tATOM => text
  | .tNUMBER => text
  | .tLBRACE => [code '(']
  | .tRBRACE => [code ')']
  | _ =>
      if whole then nonBlank taken
      else (nonBlank taken).dropWhile fun ch => decide (ch = code '+' ∨ ch = code '-')

/-- What the tokens up to the first `tEOF` spell. -/
inductive Dev.Spells (whole : Bool) (str : List Chr) : Dev → List Chr → Prop where
  | ended {dev dev'} (lexEq : dev.aklLex = .ok (.tEOF, dev')) : Dev.Spells whole str dev []
  | token {dev tok dev' pos pos' spelled} (lexEq : dev.aklLex = .ok (tok, dev'))
      (notEof : tok ≠ .tEOF) (source : dev.iodSource = .string str pos)
      (source' : dev'.iodSource = .string str pos') (others : Dev.Spells whole str dev' spelled) :
      Dev.Spells whole str dev
        (spelling whole tok dev'.bufferText ((str.drop pos).take (pos' - pos)) ++ spelled)

/-- The tokens of the string spell it without its blanks. -/
def LosesNothing (whole : Bool) (fresh : Nat → Chr) (column : UInt32) (backlog : Token)
    (str : List Chr) : Prop :=
  Dev.Spells whole str (aklNewStringDevice fresh str column backlog) (nonBlank str)

/-- Here a pending sign is lost: in front of the other sign, of an opening parenthesis
and of a quote.  If a sign in front belongs to the spelling, it is not lost in front of
the two parentheses of `NIL` and of a quote. -/
def Loses (whole : Bool) (s : Scanning) (ch : Chr) (after : List Chr) : Prop :=
  match s.mode with
  | .signed op _ =>
      match classOf ch with
      | .sign => ch ≠ op
      | .opening => whole = false ∨ after.head? ≠ some (code ')')
      | .quote => whole = false
      | _ => False
  | _ => False

instance (whole : Bool) (s : Scanning) (ch : Chr) (after : List Chr) :
    Decidable (Loses whole s ch after) := by
  unfold Loses
  split
  · split <;> infer_instance
  · infer_instance

/-- Somewhere in the string a sign is lost. -/
abbrev LosesIn (whole : Bool) (mode : Mode) (buffer r : List Chr) : Prop :=
  lexer.Meets (Loses whole) ⟨mode, buffer⟩ r

/-- The string ends with a blank, if it is not empty. -/
def EndsBlank (r : List Chr) : Prop := ∀ ch ∈ r.getLast?, ch = code ' '

variable {whole : Bool} {buffer text name r first second : List Chr} {op last ch : Chr}

theorem IsLower.isStringChar (lower : IsLower ch) : IsStringChar ch := by
  unfold IsLower at lower
  unfold IsStringChar
  simp only [code] at lower
  grind

theorem IsLower.plain (lower : ∀ ch ∈ r, IsLower ch) : Plain r := fun ch mem =>
  ⟨(lower ch mem).isStringChar, (lower ch mem).2.2.2⟩

theorem IsLower.tolower (lower : IsLower ch) : tolower ch = ch := by
  simp [AkLisp.tolower, lower.2.2.1]

/-- The branches such a character cannot take. -/
theorem IsLower.classOf_ne (lower : IsLower ch) :
    classOf ch ≠ .endOfFile ∧ classOf ch ≠ .newline ∧ classOf ch ≠ .doubleQuote ∧
      classOf ch ≠ .semicolon ∧ classOf ch ≠ .other := by
  obtain ⟨notControl, ascii, notUpper, notComment, notHash, notQuote⟩ := lower
  simp only [code] at notControl
  refine ⟨?_, ?_, ?_, ?_, ?_⟩
  · intro kind
    have isEof : ch = eof := CharClass.is_of_eq kind
    rw [eof] at isEof
    grind
  · intro kind
    have isNewline : ch = code '\n' := CharClass.is_of_eq kind
    simp only [code] at isNewline
    grind
  · exact fun kind => notQuote (CharClass.is_of_eq kind)
  · exact fun kind => notComment (CharClass.is_of_eq kind)
  · -- a character that is neither a blank nor a digit nor a letter is a punctuation character
    fun_cases classOf ch with
    | case11 _ _ _ notDigit notDelimiter _ _ _ _ notAtom =>
        rw [not_or] at notAtom
        have notBlank : ch ≠ code ' ' := fun blank => notDelimiter (.inl blank)
        have punct : ispunct ch = true := by
          have later : code ' ' < ch := by
            simp only [code] at notBlank ⊢
            grind
          simp [ispunct, later, ascii, notAtom.1, notDigit]
        exact absurd punct notAtom.2
    | _ => exact CharClass.noConfusion

theorem nonBlank_append (first second : List Chr) :
    nonBlank (first ++ second) = nonBlank first ++ nonBlank second :=
  List.filter_append first second

theorem nonBlank_eq (inside : ∀ ch ∈ r, ch ≠ code ' ') : nonBlank r = r := by
  unfold nonBlank
  rw [List.filter_eq_self]
  simpa using inside

theorem EndsBlank.of_append (ends : EndsBlank (first ++ second)) : EndsBlank second := by
  intro ch mem
  apply ends
  rw [List.getLast?_append, Option.mem_def.mp mem]
  rfl

theorem EndsBlank.of_cons (ends : EndsBlank (ch :: r)) : EndsBlank r :=
  have split : EndsBlank ([ch] ++ r) := ends
  split.of_append

/-! ## The places where a sign is lost -/

theorem losesIn_cons (mode : Mode) : LosesIn whole mode buffer (ch :: r) ↔
    Loses whole ⟨mode, buffer⟩ ch r ∨
      lexer.Meets (Loses whole) (lexer.step ⟨mode, buffer⟩ ch).2 r :=
  Transducer.meets_cons r

theorem not_losesIn_nil (mode : Mode) : ¬LosesIn whole mode buffer [] :=
  Transducer.not_meets_nil

/-- Nothing is lost without a pending sign. -/
theorem losesIn_main_cons : LosesIn whole .main buffer (ch :: r) ↔
    lexer.Meets (Loses whole) (mainStep buffer ch).2 r := by
  rw [losesIn_cons]
  exact or_iff_right id

theorem losesIn_main_step {mode : Mode} {buffer' : List Chr}
    (stepEq : (mainStep buffer ch).2 = ⟨mode, buffer'⟩) :
    LosesIn whole .main buffer (ch :: r) ↔ LosesIn whole mode buffer' r := by
  rw [losesIn_main_cons, stepEq]

theorem losesIn_signed_step {mode : Mode} {buffer' : List Chr}
    (kept : ¬Loses whole ⟨.signed op last, buffer⟩ ch r)
    (stepEq : (signedStep buffer op last ch).2 = ⟨mode, buffer'⟩) :
    LosesIn whole (.signed op last) buffer (ch :: r) ↔ LosesIn whole mode buffer' r := by
  have nextEq : (lexer.step ⟨.signed op last, buffer⟩ ch).2 = ⟨mode, buffer'⟩ := stepEq
  rw [losesIn_cons, or_iff_right kept, nextEq]

theorem losesIn_number (text buffer r : List Chr) : LosesIn whole (.number text) buffer r ↔
    LosesIn whole .main (text ++ r.takeWhile isValidInNumber) (r.dropWhile isValidInNumber) := by
  induction r generalizing text with
  | nil => exact iff_of_false (not_losesIn_nil _) (not_losesIn_nil _)
  | cons ch r ih =>
      rw [losesIn_cons]
      refine (or_iff_right id).trans ?_
      cases valid : isValidInNumber ch with
      | true =>
          have stepEq : lexer.step ⟨.number text, buffer⟩ ch =
              ([], ⟨.number (text ++ [ch]), buffer⟩) := if_pos valid
          rw [stepEq, List.takeWhile_cons_of_pos valid, List.dropWhile_cons_of_pos valid]
          refine (ih (text ++ [ch])).trans ?_
          rw [List.append_assoc, List.singleton_append]
      | false =>
          have stepEq : lexer.step ⟨.number text, buffer⟩ ch = endToken .tNUMBER text ch :=
            if_neg (by simp [valid])
          rw [stepEq, List.takeWhile_cons_of_neg (by simp [valid]),
            List.dropWhile_cons_of_neg (by simp [valid]), List.append_nil, losesIn_main_cons]
          rfl

theorem losesIn_atom (name buffer r : List Chr) : LosesIn whole (.atom name) buffer r ↔
    LosesIn whole .main (atomShown (name ++ atomName r)).2 (atomRest r) := by
  induction r generalizing name with
  | nil => exact iff_of_false (not_losesIn_nil _) (not_losesIn_nil _)
  | cons ch r ih =>
      rw [losesIn_cons]
      refine (or_iff_right id).trans ?_
      cases ends : endsAtom ch with
      | true =>
          have stepEq : lexer.step ⟨.atom name, buffer⟩ ch =
              endToken (atomShown name).1 (atomShown name).2 ch := if_pos ends
          have nameEq : atomName (ch :: r) = [] := by simp [atomName, ends]
          have restEq : atomRest (ch :: r) = ch :: r := by simp [atomRest, ends]
          rw [stepEq, nameEq, restEq, List.append_nil, losesIn_main_cons]
          rfl
      | false =>
          have stepEq : lexer.step ⟨.atom name, buffer⟩ ch =
              ([], ⟨.atom (name ++ [ch]), buffer⟩) := if_neg (by simp [ends])
          have nameEq : atomName (ch :: r) = ch :: atomName r := by simp [atomName, ends]
          have restEq : atomRest (ch :: r) = atomRest r := by simp [atomRest, ends]
          rw [stepEq, nameEq, restEq]
          refine (ih (name ++ [ch])).trans ?_
          rw [List.append_assoc, List.singleton_append]

theorem losesIn_opened (buffer r : List Chr) : LosesIn whole .opened buffer r ↔
    LosesIn whole .main buffer (if r.head? = some (code ')') then r.tail else r) := by
  cases r with
  | nil => exact iff_of_false (not_losesIn_nil _) (not_losesIn_nil _)
  | cons ch r =>
      rw [losesIn_cons]
      refine (or_iff_right id).trans ?_
      by_cases close : ch = code ')'
      · have stepEq : lexer.step ⟨.opened, buffer⟩ ch = ([(.tNIL, buffer)], ⟨.main, buffer⟩) :=
          if_pos close
        rw [stepEq, List.head?_cons, if_pos (congrArg some close), List.tail_cons]
      · have stepEq : lexer.step ⟨.opened, buffer⟩ ch = endToken .tLBRACE buffer ch :=
          if_neg close
        rw [stepEq, List.head?_cons, if_neg fun equal => close (Option.some.inj equal),
          losesIn_main_cons]
        rfl

/-! ## One call -/

/-- A token spells what has been taken, and nothing is lost in it, or it spells
something else that is no longer, and a sign is lost. -/
def Fair (spelled taken : List Chr) (loses loses' : Prop) : Prop :=
  (spelled = nonBlank taken ∧ (loses ↔ loses')) ∨
    (spelled.length ≤ (nonBlank taken).length ∧ spelled ≠ nonBlank taken ∧ loses)

theorem Fair.of_eq {spelled taken : List Chr} {loses loses' : Prop}
    (equal : spelled = nonBlank taken) (same : loses ↔ loses') : Fair spelled taken loses loses' :=
  .inl ⟨equal, same⟩

theorem isValidInNumber_ne_blank (valid : isValidInNumber ch = true) : ch ≠ code ' ' := by
  rintro rfl
  exact absurd valid (by decide)

theorem endsAtom_ne_blank (inside : endsAtom ch = false) : ch ≠ code ' ' := by
  rintro rfl
  exact absurd inside (by decide)

theorem nonBlank_takeWhile_number (r : List Chr) :
    nonBlank (r.takeWhile isValidInNumber) = r.takeWhile isValidInNumber :=
  nonBlank_eq fun ch mem =>
    isValidInNumber_ne_blank (List.all_eq_true.mp List.all_takeWhile ch mem)

theorem nonBlank_atomName (r : List Chr) : nonBlank (atomName r) = atomName r :=
  nonBlank_eq fun ch mem => by
    have stays := List.all_eq_true.mp List.all_takeWhile ch mem
    exact endsAtom_ne_blank (by simpa using stays)

theorem nonBlank_cons (notBlank : ch ≠ code ' ') : nonBlank (ch :: r) = ch :: nonBlank r :=
  List.filter_cons_of_pos (by simpa using notBlank)

/-- A name of lower-case characters is the text of its atom. -/
theorem atomShown_lower (lower : ∀ ch ∈ name, IsLower ch) : (atomShown name).2 = name := by
  rw [atomShown, List.map_congr_left fun ch mem => (lower ch mem).tolower, List.map_id']

theorem atomName_lower (lower : ∀ ch ∈ r, IsLower ch) : ∀ ch ∈ atomName r, IsLower ch :=
  fun ch mem => lower ch ((List.takeWhile_sublist _).subset mem)

/-- The spelling of an atom, of `NIL` or of `T` that does not begin with a sign. -/
theorem spelling_atom (first : ∀ ch ∈ name.head?, ¬(ch = code '+' ∨ ch = code '-'))
    (same : nonBlank name = name) :
    spelling whole (atomToken name) name name = name := by
  have dropped : name.dropWhile (fun ch => decide (ch = code '+' ∨ ch = code '-')) = name := by
    cases name with
    | nil => rfl
    | cons ch name => rw [List.dropWhile_cons_of_neg (by simpa using first ch rfl)]
  unfold atomToken
  split
  · simp only [spelling, same, dropped, ite_self]
  · split
    · simp only [spelling, same, dropped, ite_self]
    · rfl

theorem IsSign.ne_blank (isSign : IsSign ch) : ch ≠ code ' ' := by
  rcases isSign with rfl | rfl
  · decide
  · decide

theorem IsSign.no_letter (isSign : IsSign ch) : tolower ch ∉ nameLetters := by
  rcases isSign with rfl | rfl
  · decide
  · decide

theorem signText_sign (isSign : IsSign op) : signText op = [op] :=
  if_neg isSign.ne_zero

/-- The token behind a pending sign spells what it takes, the sign included, unless the
sign is lost. -/
theorem cut_signed_spells {tok : Token} {r' : List Chr} (isSign : IsSign op)
    (lower : ∀ ch ∈ r, IsLower ch) (lowerSign : IsLower op)
    (cutEq : cut buffer op op r = some (tok, text, r')) :
    ∃ taken, op :: r = taken ++ r' ∧
      Fair (spelling whole tok text taken) taken (LosesIn whole (.signed op op) buffer r)
        (LosesIn whole .main text r') := by
  cases r with
  | nil => cases cutEq
  | cons ch r =>
      have lower₁ : ∀ c ∈ r, IsLower c := fun c mem => lower c (List.mem_cons_of_mem _ mem)
      obtain ⟨notEof, notNewline, notQuote, notComment, notOther⟩ :=
        (lower ch List.mem_cons_self).classOf_ne
      have signBlank := isSign.ne_blank
      have kept {c : CharClass} (kind : classOf ch = c) (notSign : c ≠ .sign)
          (notOpening : c ≠ .opening) (notQuote : c ≠ .quote) :
          ¬Loses whole ⟨.signed op op, buffer⟩ ch r := by
        cases c with
        | sign => exact absurd rfl notSign
        | opening => exact absurd rfl notOpening
        | quote => exact absurd rfl notQuote
        | _ => simp [Loses, kind]
      rw [cut.eq_def] at cutEq
      cases kind : classOf ch with
      | endOfFile => exact absurd kind notEof
      | newline => exact absurd kind notNewline
      | doubleQuote => exact absurd kind notQuote
      | semicolon => exact absurd kind notComment
      | other => exact absurd kind notOther
      | sign =>
          simp only [kind, if_neg isSign.ne_zero, Option.some.injEq, Prod.mk.injEq] at cutEq
          obtain ⟨rfl, rfl, rfl⟩ := cutEq
          have isSign' : IsSign ch := CharClass.is_of_eq kind
          have takenEq : nonBlank [op, ch] = [op, ch] := by
            rw [nonBlank_cons signBlank, nonBlank_cons isSign'.ne_blank]
            rfl
          refine ⟨[op, ch], rfl, ?_⟩
          by_cases same : ch = op
          · subst same
            exact .of_eq takenEq.symm (losesIn_signed_step (by simp [Loses, kind])
              (by simp only [signedStep, kind]))
          · refine .inr ⟨by rw [takenEq]; rfl, ?_, (losesIn_cons _).mpr (.inl ?_)⟩
            · rw [takenEq]
              intro equal
              simp only [spelling, List.cons.injEq, true_and, and_true] at equal
              exact same equal.symm
            · simpa only [Loses, kind] using same
      | digit =>
          simp only [kind, Option.some.injEq, Prod.mk.injEq] at cutEq
          obtain ⟨rfl, rfl, rfl⟩ := cutEq
          have digit : isdigit ch = true := CharClass.is_of_eq kind
          have valid : isValidInNumber ch = true := by rw [isValidInNumber, if_pos digit]
          have wholeEq : op :: ch :: r = signText op ++ ch :: r.takeWhile isValidInNumber ++
              r.dropWhile isValidInNumber := by
            simp [signText_sign isSign]
          refine ⟨_, wholeEq, .of_eq ?_ ?_⟩
          · rw [signText_sign isSign, List.singleton_append, nonBlank_cons signBlank,
              nonBlank_cons (isValidInNumber_ne_blank valid), nonBlank_takeWhile_number]
            rfl
          · have stepEq : (signedStep buffer op op ch).2 = ⟨.number [op, ch], buffer⟩ := by
              simp only [signedStep, kind]
            rw [losesIn_signed_step (kept kind CharClass.noConfusion CharClass.noConfusion
              CharClass.noConfusion) stepEq, losesIn_number, signText_sign isSign]
            rfl
      | delimiter =>
          simp only [kind, if_neg isSign.ne_zero, Option.some.injEq, Prod.mk.injEq] at cutEq
          obtain ⟨rfl, rfl, rfl⟩ := cutEq
          have stepEq : (signedStep buffer op op ch).2 = ⟨.main, [op]⟩ := by
            simp only [signedStep, kind]
          have moved := losesIn_signed_step (kept kind CharClass.noConfusion
            CharClass.noConfusion CharClass.noConfusion) stepEq
          have signOnly : nonBlank [op] = [op] := nonBlank_cons signBlank
          rcases CharClass.is_of_eq kind with rfl | rfl
          · refine ⟨[op, code ' '], rfl, .of_eq ?_ moved⟩
            rw [nonBlank_cons signBlank]
            rfl
          · have stays : LosesIn whole .main [op] (code ')' :: r) ↔ LosesIn whole .main [op] r :=
              losesIn_main_step rfl
            exact ⟨[op], rfl, .of_eq signOnly.symm (moved.trans stays.symm)⟩
      | opening =>
          have isOpening : ch = code '(' := CharClass.is_of_eq kind
          subst isOpening
          have stepEq : (signedStep buffer op op (code '(')).2 = ⟨.opened, buffer⟩ := rfl
          by_cases close : r.head? = some (code ')')
          · obtain ⟨r, rfl⟩ : ∃ rest, r = code ')' :: rest := by
              cases r with
              | nil => cases close
              | cons c r => exact ⟨r, by rw [Option.some.inj close]⟩
            simp only [kind, if_pos close, Option.some.injEq, Prod.mk.injEq] at cutEq
            obtain ⟨rfl, rfl, rfl⟩ := cutEq
            have takenEq : nonBlank [op, code '(', code ')'] = [op, code '(', code ')'] := by
              rw [nonBlank_cons signBlank]
              rfl
            refine ⟨[op, code '(', code ')'], rfl, ?_⟩
            cases whole with
            | true =>
                refine .of_eq rfl ?_
                rw [losesIn_signed_step (by simp [Loses, kind]) stepEq, losesIn_opened,
                  if_pos close]
            | false =>
                have spelledEq : spelling false .tNIL buffer [op, code '(', code ')'] =
                    [code '(', code ')'] := by
                  simp only [spelling, takenEq]
                  rw [List.dropWhile_cons_of_pos (by simpa [IsSign] using isSign)]
                  rfl
                refine .inr ⟨?_, ?_, (losesIn_cons _).mpr (.inl ?_)⟩
                · rw [spelledEq, takenEq]
                  exact Nat.le_succ 2
                · rw [spelledEq, takenEq]
                  simp
                · simp [Loses, kind]
          · simp only [kind, if_neg close, Option.some.injEq, Prod.mk.injEq] at cutEq
            obtain ⟨rfl, rfl, rfl⟩ := cutEq
            have takenEq : nonBlank [op, code '('] = [op, code '('] := by
              rw [nonBlank_cons signBlank]
              rfl
            refine ⟨[op, code '('], rfl, .inr ⟨?_, ?_, (losesIn_cons _).mpr (.inl ?_)⟩⟩
            · rw [takenEq]
              exact Nat.le_succ 1
            · rw [takenEq]
              simp [spelling]
            · simpa only [Loses, kind] using .inr close
      | quote =>
          simp only [kind, Option.some.injEq, Prod.mk.injEq] at cutEq
          obtain ⟨rfl, rfl, rfl⟩ := cutEq
          have quoteBlank : ch ≠ code ' ' := by
            rintro rfl
            exact absurd kind (by decide)
          refine ⟨[op, ch], rfl, ?_⟩
          cases whole with
          | true =>
              refine .of_eq rfl (losesIn_signed_step (by simp [Loses, kind]) ?_)
              simp only [signedStep, kind]
          | false =>
              have takenEq : nonBlank [op, ch] = [op, ch] := by
                rw [nonBlank_cons signBlank, nonBlank_cons quoteBlank]
                rfl
              have notSign : ¬(ch = code '+' ∨ ch = code '-') := by
                rintro (rfl | rfl)
                · exact absurd kind (by decide)
                · exact absurd kind (by decide)
              have spelledEq : spelling false .tQUOTE buffer [op, ch] = [ch] := by
                simp only [spelling, takenEq, Bool.false_eq_true, if_false]
                rw [List.dropWhile_cons_of_pos (by simpa [IsSign] using isSign),
                  List.dropWhile_cons_of_neg (by simpa using notSign)]
              refine .inr ⟨?_, ?_, (losesIn_cons _).mpr (.inl ?_)⟩
              · rw [spelledEq, takenEq]
                exact Nat.le_succ 1
              · rw [spelledEq, takenEq]
                simp
              · simp [Loses, kind]
      | atom =>
          have inside : endsAtom ch = false := CharClass.is_of_eq kind
          have signInside : endsAtom op = false := by
            rcases isSign with rfl | rfl <;> decide
          have nameEq : atomName (op :: ch :: r) = op :: ch :: atomName r := by
            simp [atomName, inside, signInside]
          have restEq : atomRest (op :: ch :: r) = atomRest r := by
            simp [atomRest, inside, signInside]
          have lowerName : ∀ c ∈ op :: ch :: atomName r, IsLower c := by
            intro c mem
            rcases List.mem_cons.mp mem with rfl | mem
            · exact lowerSign
            · rcases List.mem_cons.mp mem with rfl | mem
              · exact lower c List.mem_cons_self
              · exact atomName_lower lower₁ c mem
          have shown : (atomShown (op :: ch :: atomName r)).2 = op :: ch :: atomName r :=
            atomShown_lower lowerName
          have textEq : (op :: ch :: atomName r).map tolower = op :: ch :: atomName r := shown
          have isAtom : atomToken (op :: ch :: atomName r) = .tATOM :=
            atomToken_of_mem List.mem_cons_self isSign.no_letter
          simp only [kind, if_neg isSign.ne_zero, nameEq, restEq, atomText, reduceCtorEq, if_false,
            textEq, isAtom, Option.some.injEq, Prod.mk.injEq] at cutEq
          obtain ⟨rfl, rfl, rfl⟩ := cutEq
          have splitEq : r = atomName r ++ atomRest r := List.takeWhile_append_dropWhile.symm
          refine ⟨op :: ch :: atomName r, ?_, .of_eq ?_ ?_⟩
          · rw [List.cons_append, List.cons_append, ← splitEq]
          · rw [nonBlank_cons signBlank, nonBlank_cons (endsAtom_ne_blank inside),
              nonBlank_atomName]
            rfl
          · have stepEq : (signedStep buffer op op ch).2 = ⟨.atom [op, ch], buffer⟩ := by
              simp [signedStep, kind, signInside]
            rw [losesIn_signed_step (kept kind CharClass.noConfusion CharClass.noConfusion
              CharClass.noConfusion) stepEq, losesIn_atom, List.cons_append, List.cons_append,
              List.nil_append, shown]

/-- A token spells what it takes, unless a sign is lost. -/
theorem cut_spells (whole : Bool) {tok : Token} {r' : List Chr} (lower : ∀ ch ∈ r, IsLower ch)
    (cutEq : cut buffer 0 last r = some (tok, text, r')) :
    ∃ taken, r = taken ++ r' ∧
      Fair (spelling whole tok text taken) taken (LosesIn whole .main buffer r)
        (LosesIn whole .main text r') := by
  induction r generalizing last with
  | nil => cases cutEq
  | cons ch r ih =>
      have lower₁ : ∀ c ∈ r, IsLower c := fun c mem => lower c (List.mem_cons_of_mem _ mem)
      have lowerFirst : IsLower ch := lower ch List.mem_cons_self
      obtain ⟨notEof, notNewline, notQuote, notComment, notOther⟩ := lowerFirst.classOf_ne
      rw [cut.eq_def] at cutEq
      cases kind : classOf ch with
      | endOfFile => exact absurd kind notEof
      | newline => exact absurd kind notNewline
      | doubleQuote => exact absurd kind notQuote
      | semicolon => exact absurd kind notComment
      | other => exact absurd kind notOther
      | sign =>
          simp only [kind, if_true] at cutEq
          obtain ⟨taken, wholeEq, fair⟩ :=
            cut_signed_spells (CharClass.is_of_eq kind) lower₁ lowerFirst cutEq
          have stepEq : (mainStep buffer ch).2 = ⟨.signed ch ch, buffer⟩ := by
            simp only [mainStep, kind]
          rw [losesIn_main_step stepEq]
          exact ⟨taken, wholeEq, fair⟩
      | digit =>
          simp only [kind, Option.some.injEq, Prod.mk.injEq] at cutEq
          obtain ⟨rfl, rfl, rfl⟩ := cutEq
          have digit : isdigit ch = true := CharClass.is_of_eq kind
          have valid : isValidInNumber ch = true := by rw [isValidInNumber, if_pos digit]
          have wholeEq : ch :: r = signText 0 ++ ch :: r.takeWhile isValidInNumber ++
              r.dropWhile isValidInNumber := by
            simp [signText]
          refine ⟨_, wholeEq, .of_eq ?_ ?_⟩
          · rw [signText, if_pos rfl, List.nil_append,
              nonBlank_cons (isValidInNumber_ne_blank valid), nonBlank_takeWhile_number]
            rfl
          · have stepEq : (mainStep buffer ch).2 = ⟨.number [ch], buffer⟩ := by
              simp only [mainStep, kind]
            rw [losesIn_main_step stepEq, losesIn_number]
            rfl
      | delimiter =>
          rcases CharClass.is_of_eq kind with rfl | rfl
          · obtain ⟨taken, wholeEq, fair⟩ := ih lower₁ cutEq
            have stays : LosesIn whole .main buffer (code ' ' :: r) ↔
              LosesIn whole .main buffer r :=
              losesIn_main_step rfl
            rw [stays]
            exact ⟨code ' ' :: taken, congrArg _ wholeEq, fair⟩
          · cases cutEq
            exact ⟨[code ')'], rfl, .of_eq rfl (losesIn_main_step rfl)⟩
      | opening =>
          have isOpening : ch = code '(' := CharClass.is_of_eq kind
          subst isOpening
          have stepEq : (mainStep buffer (code '(')).2 = ⟨.opened, buffer⟩ := rfl
          rw [losesIn_main_step stepEq, losesIn_opened]
          by_cases close : r.head? = some (code ')')
          · obtain ⟨r, rfl⟩ : ∃ rest, r = code ')' :: rest := by
              cases r with
              | nil => cases close
              | cons c r => exact ⟨r, by rw [Option.some.inj close]⟩
            simp only [kind, if_pos close, Option.some.injEq, Prod.mk.injEq] at cutEq
            obtain ⟨rfl, rfl, rfl⟩ := cutEq
            rw [if_pos close]
            refine ⟨[code '(', code ')'], rfl, .of_eq ?_ .rfl⟩
            cases whole
            · rfl
            · rfl
          · simp only [kind, if_neg close, Option.some.injEq, Prod.mk.injEq] at cutEq
            obtain ⟨rfl, rfl, rfl⟩ := cutEq
            rw [if_neg close]
            exact ⟨[code '('], rfl, .of_eq rfl .rfl⟩
      | quote =>
          simp only [kind, Option.some.injEq, Prod.mk.injEq] at cutEq
          obtain ⟨rfl, rfl, rfl⟩ := cutEq
          have stepEq : (mainStep buffer ch).2 = ⟨.main, buffer⟩ := by
            simp only [mainStep, kind]
          refine ⟨[ch], rfl, .of_eq ?_ (losesIn_main_step stepEq)⟩
          cases whole
          · rcases CharClass.is_of_eq kind with rfl | rfl <;> rfl
          · rfl
      | atom =>
          have inside : endsAtom ch = false := CharClass.is_of_eq kind
          have nameEq : atomName (ch :: r) = ch :: atomName r := by simp [atomName, inside]
          have restEq : atomRest (ch :: r) = atomRest r := by simp [atomRest, inside]
          have lowerName : ∀ c ∈ ch :: atomName r, IsLower c := by
            intro c mem
            rcases List.mem_cons.mp mem with rfl | mem
            · exact lowerFirst
            · exact atomName_lower lower₁ c mem
          have shown : (ch :: atomName r).map tolower = ch :: atomName r :=
            atomShown_lower lowerName
          simp only [kind, if_true, nameEq, restEq, atomText, reduceCtorEq, if_false, shown,
            Option.some.injEq, Prod.mk.injEq] at cutEq
          obtain ⟨rfl, rfl, rfl⟩ := cutEq
          have splitEq : r = atomName r ++ atomRest r := List.takeWhile_append_dropWhile.symm
          have same : nonBlank (ch :: atomName r) = ch :: atomName r := by
            rw [nonBlank_cons (endsAtom_ne_blank inside), nonBlank_atomName]
          have stepEq : (mainStep buffer ch).2 = ⟨.atom [ch], buffer⟩ := by
            simp only [mainStep, kind]
          refine ⟨ch :: atomName r, ?_, .of_eq ?_ ?_⟩
          · rw [List.cons_append, ← splitEq]
          · rw [same]
            refine spelling_atom ?_ same
            simp only [List.head?_cons, Option.mem_def, Option.some.injEq, forall_eq']
            rintro (rfl | rfl)
            · exact absurd kind (by decide)
            · exact absurd kind (by decide)
          · rw [losesIn_main_step stepEq, losesIn_atom, List.singleton_append, atomShown, shown]

/-- The loop finds no token only in blanks. -/
theorem cut_none (whole : Bool) (signed : op = 0 ∨ IsSign op) (lower : ∀ ch ∈ r, IsLower ch)
    (ends : EndsBlank (signText op ++ r)) (cutEq : cut buffer op last r = none) :
    op = 0 ∧ nonBlank r = [] ∧ ¬LosesIn whole .main buffer r := by
  induction r generalizing op last with
  | nil =>
      rcases signed with rfl | isSign
      · exact ⟨rfl, rfl, not_losesIn_nil _⟩
      · rw [signText_sign isSign] at ends
        exact absurd (ends op rfl) isSign.ne_blank
  | cons ch r ih =>
      have lower₁ : ∀ c ∈ r, IsLower c := fun c mem => lower c (List.mem_cons_of_mem _ mem)
      obtain ⟨notEof, notNewline, notQuote, notComment, notOther⟩ :=
        (lower ch List.mem_cons_self).classOf_ne
      rw [cut.eq_def] at cutEq
      cases kind : classOf ch with
      | endOfFile => exact absurd kind notEof
      | newline => exact absurd kind notNewline
      | doubleQuote => exact absurd kind notQuote
      | semicolon => exact absurd kind notComment
      | other => exact absurd kind notOther
      | sign =>
          have isSign : IsSign ch := CharClass.is_of_eq kind
          simp only [kind] at cutEq
          rcases signed with rfl | pending
          · have behind : EndsBlank (signText ch ++ r) := by
              rw [signText_sign isSign]
              exact ends
            exact absurd (ih (.inr isSign) lower₁ behind cutEq).1 isSign.ne_zero
          · rw [if_neg pending.ne_zero] at cutEq
            cases cutEq
      | delimiter =>
          simp only [kind] at cutEq
          rcases signed with rfl | pending
          · rcases CharClass.is_of_eq kind with rfl | rfl
            · have stays : LosesIn whole .main buffer (code ' ' :: r) ↔
                  LosesIn whole .main buffer r := losesIn_main_step rfl
              obtain ⟨-, onlyBlanks, keeps⟩ := ih (.inl rfl) lower₁ ends.of_cons cutEq
              exact ⟨rfl, onlyBlanks, fun loses => keeps (stays.mp loses)⟩
            · cases cutEq
          · rw [if_neg pending.ne_zero] at cutEq
            cases cutEq
      | opening =>
          simp only [kind] at cutEq
          split at cutEq
          · cases cutEq
          · cases cutEq
      | _ => simp [kind] at cutEq

/-! ## All calls -/

/-- What two tokens spell one after the other, and what is lost in them. -/
theorem Fair.append {spelled spelled' taken rest : List Chr} {loses loses' : Prop}
    (fair : Fair spelled taken loses loses')
    (short : spelled'.length ≤ (nonBlank rest).length)
    (others : spelled' = nonBlank rest ↔ ¬loses') :
    (spelled ++ spelled').length ≤ (nonBlank (taken ++ rest)).length ∧
      (spelled ++ spelled' = nonBlank (taken ++ rest) ↔ ¬loses) := by
  rw [nonBlank_append, List.length_append, List.length_append]
  rcases fair with ⟨rfl, same⟩ | ⟨shorter, differ, loses⟩
  · refine ⟨Nat.add_le_add_left short _, ?_⟩
    rw [List.append_cancel_left_eq, others, same]
  · refine ⟨Nat.add_le_add shorter short, iff_of_false ?_ (not_not_intro loses)⟩
    -- none of the two spellings is too long, so both have the right length
    intro equal
    have lengths := congrArg List.length equal
    simp only [List.length_append] at lengths
    exact differ (List.append_inj_left equal (by omega))

namespace Dev

variable {dev : Dev} {before str : List Chr}

/-- What the tokens of a string spell: it is not too long, and it is the whole string
without its blanks exactly when no sign is lost. -/
theorem Within.spells (whole : Bool) (lower : ∀ ch ∈ r, IsLower ch) (ends : EndsBlank r)
    (within : dev.started.Within before r) :
    ∃ spelled, dev.Spells whole (before ++ r) spelled ∧
      spelled.length ≤ (nonBlank r).length ∧
      (spelled = nonBlank r ↔ ¬LosesIn whole .main dev.started.bufferText r) := by
  induction lengthEq : r.length using Nat.strong_induction_on generalizing r before dev with
  | _ n ih =>
    rcases within.aklLex_cut (IsLower.plain lower) with ⟨cutEq, dev', lexEq⟩ |
      ⟨tok, text, r', taken, dev', cutEq, notEof, lexEq, rfl, nonempty, rfl, within'⟩
    · have nothing : EndsBlank (signText 0 ++ r) := ends
      obtain ⟨-, onlyBlanks, keeps⟩ := cut_none whole (.inl rfl) lower nothing cutEq
      refine ⟨[], .ended lexEq, Nat.zero_le _, ?_⟩
      rw [onlyBlanks]
      exact iff_of_true rfl keeps
    · obtain ⟨taken', takenEq, fair⟩ := cut_spells whole lower cutEq
      obtain rfl : taken = taken' := List.append_cancel_right takenEq
      have positive := List.length_pos_iff.mpr nonempty
      rw [List.length_append] at lengthEq
      have lower' : ∀ ch ∈ r', IsLower ch := fun ch mem => lower ch (List.mem_append_right _ mem)
      have started' := within'.started
      obtain ⟨spelled, spells, short, others⟩ :=
        ih r'.length (by omega) lower' ends.of_append (started'.symm ▸ within') rfl
      rw [started'] at others
      rw [List.append_assoc] at spells
      have source : dev.iodSource = .string (before ++ (taken ++ r')) before.length := by
        rw [← within.source, started_source]
      have source' : dev'.iodSource =
          .string (before ++ (taken ++ r')) (before ++ taken).length := by
        rw [within'.source, List.append_assoc]
      have takes : ((before ++ (taken ++ r')).drop before.length).take
          ((before ++ taken).length - before.length) = taken := by simp
      have spelt := Spells.token lexEq notEof source source' spells
      rw [takes] at spelt
      exact ⟨_, spelt, fair.append short others⟩

theorem Spells.unique {spelled spelled' : List Chr} (spells : dev.Spells whole str spelled)
    (spells' : dev.Spells whole str spelled') : spelled = spelled' := by
  induction spells generalizing spelled' with
  | ended lexEq =>
      cases spells' with
      | ended => rfl
      | token lexEq' notEof =>
          cases lexEq.symm.trans lexEq'
          exact absurd rfl notEof
  | token lexEq notEof source source' _ ih =>
      cases spells' with
      | ended lexEq' =>
          cases lexEq.symm.trans lexEq'
          exact absurd rfl notEof
      | token lexEq' _ source₁ source₁' others' =>
          cases lexEq.symm.trans lexEq'
          cases source.symm.trans source₁
          cases source'.symm.trans source₁'
          rw [ih others']

end Dev

/-- What the tokens of a string spell that ends with a blank. -/
theorem newStringDevice_spells (whole : Bool) (fresh : Nat → Chr) (column : UInt32)
    (backlog : Token) {str : List Chr} (lower : ∀ ch ∈ str, IsLower ch) (ends : EndsBlank str) :
    LosesNothing whole fresh column backlog str ↔
      ¬lexer.Meets (Loses whole) (startState fresh) str := by
  have within := newStringDevice_within fresh column backlog fun ch mem =>
    (lower ch mem).isStringChar
  obtain ⟨spelled, spells, -, wholeIff⟩ := within.spells whole lower ends
  constructor
  · intro nothing
    exact wholeIff.mp (spells.unique nothing)
  · intro keeps
    obtain rfl : spelled = nonBlank str := wholeIff.mpr keeps
    exact spells

/-- The tokens of a lower-case string in front of a blank spell it without its blanks
exactly when no sign is lost. -/
theorem tokens_spell_source_iff (whole : Bool) (fresh : Nat → Chr) (column : UInt32)
    (backlog : Token) {body : List Chr} (lower : ∀ ch ∈ body, IsLower ch) :
    LosesNothing whole fresh column backlog (body ++ [code ' ']) ↔
      ¬lexer.Meets (Loses whole) (startState fresh) (body ++ [code ' ']) := by
  apply newStringDevice_spells
  · intro ch mem
    rcases List.mem_append.mp mem with mem | mem
    · exact lower ch mem
    · rw [List.mem_singleton.mp mem]
      unfold IsLower
      decide
  · intro ch mem
    simpa using mem.symm

/-- A list of numbers with a sign. -/
theorem tokens_spell_source_iff_numbers :
    LosesNothing false (fun _ => 0) 0 .tEOF
      ([code '(', code '+', code ' ', code '1', code ')'] ++ [code ' ']) := by
  refine (tokens_spell_source_iff false (fun _ => 0) 0 .tEOF ?_).mpr ?_
  · unfold IsLower
    decide
  · decide +kernel

/-- The sign in front of a parenthesis is lost. -/
theorem sign_dropped :
    ¬LosesNothing true (fun _ => 0) 0 .tEOF [code '+', code '(', code ' '] ∧
      ¬LosesNothing false (fun _ => 0) 0 .tEOF [code '+', code '(', code ' '] := by
  have lower : ∀ ch ∈ [code '+', code '(', code ' '], IsLower ch := by
    unfold IsLower
    decide
  have ends : EndsBlank [code '+', code '(', code ' '] := by simp [EndsBlank]
  constructor
  · rw [newStringDevice_spells true (fun _ => 0) 0 .tEOF lower ends]
    decide +kernel
  · rw [newStringDevice_spells false (fun _ => 0) 0 .tEOF lower ends]
    decide +kernel

end AkLisp
