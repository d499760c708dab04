import AkLisp.Lexer.Cut
import AkLisp.Lexer.Progress
import AkLisp.Transducer.Run

/-!
# The lexer character by character

On a plain string `akl_lex`, called again and again, is a transducer: between two
characters it is in the main loop, with or without a pending sign, within a number or
an atom, or behind an opening parenthesis.  Its state also holds the text that is in
the buffer.
-/

namespace AkLisp

/-- Where the lexer is between two characters.  With a pending sign the last
character is known, for it may be pushed back. -/
inductive Mode where
  | main
  | signed (op last : Chr)
  | number (text : List Chr)
  | atom (name : List Chr)
  | opened
  | stopped
  deriving DecidableEq, Repr

/-- The state of the transducer. -/
structure Scanning where
  mode : Mode
  buffer : List Chr
  deriving DecidableEq, Repr

/-- A token with what the buffer holds behind it. -/
abbrev Shown := Token × List Chr

/-- A character in the main loop. -/
def mainStep (buffer : List Chr) (ch : Chr) : List Shown × Scanning :=
  match classOf ch with
  | .endOfFile => ([], ⟨.stopped, buffer⟩)
  | .newline => ([], ⟨.main, buffer⟩)
  | .sign => ([], ⟨.signed ch ch, buffer⟩)
  | .digit => ([], ⟨.number [ch], buffer⟩)
  | .delimiter => (if ch = code ')' then [(.tRBRACE, buffer)] else [], ⟨.main, buffer⟩)
  | .doubleQuote => ([], ⟨.stopped, buffer⟩)
  | .opening => ([], ⟨.opened, buffer⟩)
  | .quote => ([(.tQUOTE, buffer)], ⟨.main, buffer⟩)
  | .semicolon => ([], ⟨.stopped, buffer⟩)
  | .atom => ([], ⟨.atom [ch], buffer⟩)
  | .other => ([], ⟨.main, buffer⟩)

/-- A character in the main loop with a pending sign.  Where the last character ends
an atom, an atom behind it is read as an empty one first. -/
def signedStep (buffer : List Chr) (op last ch : Chr) : List Shown × Scanning :=
  match classOf ch with
  | .endOfFile => ([], ⟨.stopped, buffer⟩)
  | .newline => ([], ⟨.signed op ch, buffer⟩)
  | .sign => ([(.tATOM, [op, op])], ⟨.main, [op, op]⟩)
  | .digit => ([], ⟨.number [op, ch], buffer⟩)
  | .delimiter =>
      ((.tATOM, [op]) :: if ch = code ')' then [(.tRBRACE, [op])] else [], ⟨.main, [op]⟩)
  | .doubleQuote => ([], ⟨.stopped, buffer⟩)
  | .opening => ([], ⟨.opened, buffer⟩)
  | .quote => ([(.tQUOTE, buffer)], ⟨.main, buffer⟩)
  | .semicolon => ([], ⟨.stopped, buffer⟩)
  | .atom =>
      if endsAtom last then ([(atomToken buffer, buffer)], ⟨.atom [ch], buffer⟩)
      else ([], ⟨.atom [last, ch], buffer⟩)
  | .other => ([], ⟨.signed op ch, buffer⟩)

/-- A token that ends in front of a character. -/
def endToken (tok : Token) (buffer : List Chr) (ch : Chr) : List Shown × Scanning :=
  ((tok, buffer) :: (mainStep buffer ch).1, (mainStep buffer ch).2)

/-- The atom with the name. -/
def atomShown (name : List Chr) : Shown := (atomToken (name.map tolower), name.map tolower)

/-- `akl_lex`, called again and again, as a transducer. -/
def lexer : Transducer Chr Scanning Shown where
  step s ch :=
    match s.mode with
    | .main => mainStep s.buffer ch
    | .signed op last => signedStep s.buffer op last ch
    | .number text =>
        if isValidInNumber ch then ([], ⟨.number (text ++ [ch]), s.buffer⟩)
        else endToken .tNUMBER text ch
    | .atom name =>
        if endsAtom ch then endToken (atomShown name).1 (atomShown name).2 ch
        else ([], ⟨.atom (name ++ [ch]), s.buffer⟩)
    | .opened =>
        if ch = code ')' then ([(.tNIL, s.buffer)], ⟨.main, s.buffer⟩)
        else endToken .tLBRACE s.buffer ch
    | .stopped => ([], s)
  flush s :=
    match s.mode with
    | .main => []
    | .signed _ _ => []
    | .number text => [(.tNUMBER, text)]
    | .atom name => [atomShown name]
    | .opened => [(.tLBRACE, s.buffer)]
    | .stopped => []

/-- What the buffer holds at first. -/
def freshText (fresh : Nat → Chr) : List Chr :=
  ((List.range defBufferSize).map fresh).takeWhile (· ≠ 0)

/-- The lexer in front of a string. -/
def startState (fresh : Nat → Chr) : Scanning := ⟨.main, freshText fresh⟩

/-- The tokens of the string from a state on. -/
def tokensFrom (mode : Mode) (buffer r : List Chr) : List Shown :=
  lexer.output ⟨mode, buffer⟩ r

theorem output_eq (mode : Mode) (buffer r : List Chr) :
    lexer.output ⟨mode, buffer⟩ r = tokensFrom mode buffer r :=
  rfl

/-- The letters of the names of `NIL` and `T`. -/
def nameLetters : List Chr := ("NILT".toList.map code).map tolower

/-- A text with another character is not one of these names. -/
theorem atomToken_of_mem {text : List Chr} {ch : Chr} (mem : ch ∈ text)
    (other : tolower ch ∉ nameLetters) : atomToken text = .tATOM := by
  have outside (word : List Chr) (among : ∀ c ∈ word.map tolower, c ∈ nameLetters) :
      strcasecmpEq text word = false := by
    unfold strcasecmpEq
    rw [decide_eq_false_iff_not]
    intro equal
    exact other (among _ (equal ▸ List.mem_map_of_mem mem))
  have notNil : strcasecmpEq text ("NIL".toList.map code) = false := outside _ (by decide)
  have notTrue : strcasecmpEq text ("T".toList.map code) = false := outside _ (by decide)
  rw [atomToken, notNil, notTrue]
  rfl

section Output

variable {buffer text name r : List Chr} {op last ch : Chr} {c : CharClass}

@[simp]
theorem tokens_stopped (r : List Chr) : tokensFrom .stopped buffer r = [] := by
  induction r with
  | nil => rfl
  | cons ch r ih => exact ih

theorem tokens_main_cons : tokensFrom .main buffer (ch :: r) =
    (mainStep buffer ch).1 ++ lexer.output (mainStep buffer ch).2 r :=
  rfl

theorem tokens_signed_cons : tokensFrom (.signed op last) buffer (ch :: r) =
    (signedStep buffer op last ch).1 ++ lexer.output (signedStep buffer op last ch).2 r :=
  rfl

theorem endToken_output (tok : Token) (text : List Chr) :
    (endToken tok text ch).1 ++ lexer.output (endToken tok text ch).2 r =
      (tok, text) :: tokensFrom .main text (ch :: r) :=
  rfl

theorem tokens_number_valid (valid : isValidInNumber ch = true) :
    tokensFrom (.number text) buffer (ch :: r) = tokensFrom (.number (text ++ [ch])) buffer r := by
  have stepEq : lexer.step ⟨.number text, buffer⟩ ch = ([], ⟨.number (text ++ [ch]), buffer⟩) :=
    if_pos valid
  rw [tokensFrom, Transducer.output_cons, stepEq, List.nil_append, output_eq]

theorem tokens_number_ends (ends : isValidInNumber ch = false) :
    tokensFrom (.number text) buffer (ch :: r) =
      (.tNUMBER, text) :: tokensFrom .main text (ch :: r) := by
  have stepEq : lexer.step ⟨.number text, buffer⟩ ch = endToken .tNUMBER text ch :=
    if_neg (by simp [ends])
  rw [tokensFrom, Transducer.output_cons, stepEq, endToken_output]

theorem tokens_atom_inside (inside : endsAtom ch = false) :
    tokensFrom (.atom name) buffer (ch :: r) = tokensFrom (.atom (name ++ [ch])) buffer r := by
  have stepEq : lexer.step ⟨.atom name, buffer⟩ ch = ([], ⟨.atom (name ++ [ch]), buffer⟩) :=
    if_neg (by simp [inside])
  rw [tokensFrom, Transducer.output_cons, stepEq, List.nil_append, output_eq]

theorem tokens_atom_ends (ends : endsAtom ch = true) :
    tokensFrom (.atom name) buffer (ch :: r) =
      atomShown name :: tokensFrom .main (atomShown name).2 (ch :: r) := by
  have stepEq : lexer.step ⟨.atom name, buffer⟩ ch =
      endToken (atomShown name).1 (atomShown name).2 ch := if_pos ends
  rw [tokensFrom, Transducer.output_cons, stepEq, endToken_output]

/-- A number takes all characters that are valid in one. -/
theorem tokens_number (text buffer r : List Chr) : tokensFrom (.number text) buffer r =
    (.tNUMBER, text ++ r.takeWhile isValidInNumber) ::
      tokensFrom .main (text ++ r.takeWhile isValidInNumber) (r.dropWhile isValidInNumber) := by
  induction r generalizing text with
  | nil => simp [tokensFrom, lexer]
  | cons ch r ih =>
      cases valid : isValidInNumber ch with
      | true =>
          rw [tokens_number_valid valid, ih]
          simp [valid]
      | false =>
          rw [tokens_number_ends valid]
          simp [valid]

/-- An atom takes all characters that do not end one. -/
theorem tokens_atom (name buffer r : List Chr) : tokensFrom (.atom name) buffer r =
    atomShown (name ++ atomName r) ::
      tokensFrom .main (atomShown (name ++ atomName r)).2 (atomRest r) := by
  induction r generalizing name with
  | nil => simp [tokensFrom, lexer, atomName, atomRest]
  | cons ch r ih =>
      cases ends : endsAtom ch with
      | true =>
          rw [tokens_atom_ends ends]
          simp [atomName, atomRest, ends]
      | false =>
          rw [tokens_atom_inside ends, ih]
          simp [atomName, atomRest, ends]

/-- Behind an opening parenthesis. -/
theorem tokens_opened (buffer r : List Chr) : tokensFrom .opened buffer r =
    if r.head? = some (code ')') then (.tNIL, buffer) :: tokensFrom .main buffer r.tail
    else (.tLBRACE, buffer) :: tokensFrom .main buffer r := by
  cases r with
  | nil => simp [tokensFrom, lexer]
  | cons ch r =>
      by_cases close : ch = code ')'
      · have stepEq : lexer.step ⟨.opened, buffer⟩ ch = ([(.tNIL, buffer)], ⟨.main, buffer⟩) :=
          if_pos close
        rw [List.head?_cons, if_pos (congrArg some close), tokensFrom, Transducer.output_cons,
          stepEq]
        rfl
      · have stepEq : lexer.step ⟨.opened, buffer⟩ ch = endToken .tLBRACE buffer ch :=
          if_neg close
        rw [List.head?_cons, if_neg fun equal => close (Option.some.inj equal), tokensFrom,
          Transducer.output_cons, stepEq, endToken_output]

end Output

/-- The tokens that begin with the one `cut` finds. -/
def tokensOf : Option (Token × List Chr × List Chr) → List Shown
  | none => []
  | some (tok, text, r) => (tok, text) :: tokensFrom .main text r

/-- The character in front of the rest when a sign is pending. -/
def BehindSign (last : Chr) : Prop := IsSign last ∨ last = code '\n' ∨ classOf last = .other

/-- The mode of the main loop with the sign `op`, if it is not zero. -/
def loopMode (op last : Chr) : Mode := if op = 0 then .main else .signed op last

theorem BehindSign.cases {last : Chr} (behind : BehindSign last) :
    last = code '\n' ∨ endsAtom last = false := by
  rcases behind with (rfl | rfl) | newline | other
  · exact .inr (by decide)
  · exact .inr (by decide)
  · exact .inl newline
  · right
    cases ends : endsAtom last with
    | false => rfl
    | true =>
        rcases of_decide_eq_true ends with rfl | rfl | rfl | rfl
        · exact absurd other (by decide)
        · exact absurd other (by decide)
        · exact absurd other (by decide)
        · exact absurd other (by decide)

/-- The transducer goes through the main loop as `cut` does. -/
theorem tokens_cut {buffer r : List Chr} {op last : Chr}
    (signed : op = 0 ∨ IsSign op ∧ BehindSign last) :
    tokensFrom (loopMode op last) buffer r = tokensOf (cut buffer op last r) := by
  induction r generalizing op last with
  | nil =>
      rcases signed with rfl | ⟨isSign, -⟩
      · rfl
      · simp only [loopMode, if_neg isSign.ne_zero]
        rfl
  | cons ch r ih =>
      rcases signed with rfl | ⟨isSign, behind⟩
      · have modeEq : ∀ last, loopMode 0 last = .main := fun _ => if_pos rfl
        have skipped : tokensFrom .main buffer r = tokensOf (cut buffer 0 ch r) := by
          rw [← ih (.inl rfl), modeEq]
        rw [modeEq, tokens_main_cons]
        cases kind : classOf ch with
        | endOfFile =>
            rw [cut_cons _ _ _ _ kind]
            simp only [mainStep, kind]
            exact tokens_stopped r
        | newline =>
            rw [cut_cons _ _ _ _ kind]
            simp only [mainStep, kind]
            exact skipped
        | sign =>
            have isSign : IsSign ch := CharClass.is_of_eq kind
            have modeEq' : loopMode ch ch = .signed ch ch := if_neg isSign.ne_zero
            rw [cut_cons _ _ _ _ kind]
            simp only [mainStep, kind, if_true]
            rw [← ih (.inr ⟨isSign, .inl isSign⟩), modeEq']
            rfl
        | digit =>
            rw [cut_cons _ _ _ _ kind]
            simp only [mainStep, kind]
            exact tokens_number _ buffer r
        | delimiter =>
            rw [cut_cons _ _ _ _ kind]
            simp only [mainStep, kind, if_true]
            by_cases close : ch = code ')'
            · rw [if_pos close, if_pos close]
              rfl
            · rw [if_neg close, if_neg close]
              exact skipped
        | doubleQuote =>
            rw [cut_cons _ _ _ _ kind]
            simp only [mainStep, kind]
            exact tokens_stopped r
        | opening =>
            rw [cut_cons _ _ _ _ kind]
            simp only [mainStep, kind]
            refine (tokens_opened buffer r).trans ?_
            split
            · rfl
            · rfl
        | quote =>
            rw [cut_cons _ _ _ _ kind]
            simp only [mainStep, kind]
            rfl
        | semicolon =>
            rw [cut_cons _ _ _ _ kind]
            simp only [mainStep, kind]
            exact tokens_stopped r
        | atom =>
            have inside : endsAtom ch = false := CharClass.is_of_eq kind
            rw [cut_cons _ _ _ _ kind]
            simp only [mainStep, kind, if_true]
            have nameEq : atomName (ch :: r) = ch :: atomName r := by simp [atomName, inside]
            have restEq : atomRest (ch :: r) = atomRest r := by simp [atomRest, inside]
            rw [nameEq, restEq]
            exact tokens_atom _ buffer r
        | other =>
            rw [cut_cons _ _ _ _ kind]
            simp only [mainStep, kind]
            exact skipped
      · have modeEq : ∀ last, loopMode op last = .signed op last := fun _ => if_neg isSign.ne_zero
        have skipped (behind₁ : BehindSign ch) :
            tokensFrom (.signed op ch) buffer r = tokensOf (cut buffer op ch r) := by
          rw [← ih (.inr ⟨isSign, behind₁⟩), modeEq]
        have textEq : signText op = [op] := if_neg isSign.ne_zero
        rw [modeEq, tokens_signed_cons]
        cases kind : classOf ch with
        | endOfFile =>
            rw [cut_cons _ _ _ _ kind]
            simp only [signedStep, kind]
            exact tokens_stopped r
        | newline =>
            rw [cut_cons _ _ _ _ kind]
            simp only [signedStep, kind]
            exact skipped (.inr (.inl (CharClass.is_of_eq kind)))
        | sign =>
            rw [cut_cons _ _ _ _ kind]
            simp only [signedStep, kind, if_neg isSign.ne_zero]
            rfl
        | digit =>
            rw [cut_cons _ _ _ _ kind, textEq]
            simp only [signedStep, kind]
            exact tokens_number _ buffer r
        | delimiter =>
            rw [cut_cons _ _ _ _ kind]
            simp only [signedStep, kind, if_neg isSign.ne_zero]
            by_cases close : ch = code ')'
            · subst close
              rfl
            · rw [if_neg close, if_neg close]
              rfl
        | doubleQuote =>
            rw [cut_cons _ _ _ _ kind]
            simp only [signedStep, kind]
            exact tokens_stopped r
        | opening =>
            rw [cut_cons _ _ _ _ kind]
            simp only [signedStep, kind]
            refine (tokens_opened buffer r).trans ?_
            split
            · rfl
            · rfl
        | quote =>
            rw [cut_cons _ _ _ _ kind]
            simp only [signedStep, kind]
            rfl
        | semicolon =>
            rw [cut_cons _ _ _ _ kind]
            simp only [signedStep, kind]
            exact tokens_stopped r
        | atom =>
            have inside : endsAtom ch = false := CharClass.is_of_eq kind
            have nameEq : atomName (ch :: r) = ch :: atomName r := by simp [atomName, inside]
            have restEq : atomRest (ch :: r) = atomRest r := by simp [atomRest, inside]
            rw [cut_cons _ _ _ _ kind]
            simp only [signedStep, kind, if_neg isSign.ne_zero]
            rcases behind.cases with rfl | stays
            · -- the line end is read again, and the atom behind it starts a token
              have ends : endsAtom (code '\n') = true := by decide
              have emptyName : atomName (code '\n' :: ch :: r) = [] := by simp [atomName, ends]
              have sameRest : atomRest (code '\n' :: ch :: r) = code '\n' :: ch :: r := by
                simp [atomRest, ends]
              have lineStep : mainStep buffer (code '\n') = ([], ⟨.main, buffer⟩) := by rfl
              have atomStep : mainStep buffer ch = ([], ⟨.atom [ch], buffer⟩) := by
                simp only [mainStep, kind]
              rw [emptyName, sameRest, if_pos ends, atomText, if_pos rfl, tokensOf,
                tokens_main_cons, lineStep, List.nil_append]
              show _ = _ :: tokensFrom .main buffer (ch :: r)
              rw [tokens_main_cons, atomStep]
              rfl
            · have nameEq' : atomName (last :: ch :: r) = last :: ch :: atomName r := by
                simp [atomName, inside, stays]
              have restEq' : atomRest (last :: ch :: r) = atomRest r := by
                simp [atomRest, inside, stays]
              rw [nameEq', restEq', if_neg (by simp [stays])]
              exact tokens_atom _ buffer r
        | other =>
            rw [cut_cons _ _ _ _ kind]
            simp only [signedStep, kind]
            exact skipped (.inr (.inr kind))

namespace Dev

variable {dev : Dev} {before r : List Chr}

/-- A token other than `tEOF` takes some of the string. -/
theorem Within.lexLoop_takes (within : dev.Within before r) {fuel : Nat} {tok : Token}
    {dev' : Dev} (lexEq : Dev.lexLoop fuel 0 dev = .ok (tok, dev')) (notEof : tok ≠ .tEOF)
    {before' r' : List Chr} (wholeEq : before ++ r = before' ++ r')
    (within' : dev'.Within before' r') :
    ∃ taken, taken ≠ [] ∧ before' = before ++ taken ∧ r = taken ++ r' := by
  have moved := ensures_lexLoop within.source (Nat.le_refl before.length) (.inl rfl) fuel
  obtain ⟨pos, source, later⟩ := moved.ok lexEq notEof
  have posEq := source.symm.trans within'.source
  simp only [Source.string.injEq] at posEq
  rcases List.append_eq_append_iff.mp wholeEq with ⟨taken, rfl, rfl⟩ | ⟨back, rfl, -⟩
  · refine ⟨taken, ?_, rfl, rfl⟩
    rintro rfl
    simp only [List.append_nil] at posEq
    omega
  · simp only [List.length_append] at later
    omega

/-- What a call of `akl_lex` on a plain string does: it returns `tEOF`, or it takes
some of the string for the token that `cut` finds. -/
theorem Within.aklLex_cut (plain : Plain r) (within : dev.started.Within before r) :
    (AkLisp.cut dev.started.bufferText 0 0 r = none ∧ ∃ dev', dev.aklLex = .ok (.tEOF, dev')) ∨
      ∃ tok text r' taken dev', AkLisp.cut dev.started.bufferText 0 0 r = some (tok, text, r') ∧
        tok ≠ .tEOF ∧ dev.aklLex = .ok (tok, dev') ∧ dev'.bufferText = text ∧
        taken ≠ [] ∧ r = taken ++ r' ∧ dev'.Within (before ++ taken) r' := by
  have delivers : Delivers (before ++ r) (AkLisp.cut dev.started.bufferText 0 0 r)
      (Dev.lexLoop dev.started.rounds 0 dev.started) :=
    within.cut plain (.inl rfl) (by rw [within.rounds]; omega)
  rw [aklLex_within within]
  cases cutEq : AkLisp.cut dev.started.bufferText 0 0 r with
  | none =>
      rw [cutEq] at delivers
      exact .inl ⟨rfl, delivers⟩
  | some found =>
      obtain ⟨tok, text, r'⟩ := found
      rw [cutEq] at delivers
      obtain ⟨notEof, dev', lexEq, ⟨before', wholeEq, within'⟩, textEq⟩ := delivers
      obtain ⟨taken, nonempty, rfl, rfl⟩ := within.lexLoop_takes lexEq notEof wholeEq within'
      exact .inr ⟨tok, text, r', taken, dev', rfl, notEof, lexEq, textEq, nonempty, rfl, within'⟩

theorem Plain.of_append {first second : List Chr} (plain : Plain (first ++ second)) :
    Plain second :=
  fun ch mem => plain ch (List.mem_append_right _ mem)

/-- The calls of `akl_lex` on a plain string return the output of the transducer. -/
theorem Within.tokens (plain : Plain r) (within : dev.started.Within before r) :
    dev.Tokens (tokensFrom .main dev.started.bufferText r) := by
  induction lengthEq : r.length using Nat.strong_induction_on generalizing r before dev with
  | _ n ih =>
    have cutTokens : tokensFrom .main dev.started.bufferText r =
        tokensOf (AkLisp.cut dev.started.bufferText 0 0 r) := tokens_cut (.inl rfl)
    rw [cutTokens]
    rcases within.aklLex_cut plain with ⟨cutEq, dev', lexEq⟩ |
      ⟨tok, text, r', taken, dev', cutEq, notEof, lexEq, rfl, nonempty, rfl, within'⟩
    · rw [cutEq]
      exact .ended lexEq
    · rw [cutEq]
      have positive := List.length_pos_iff.mpr nonempty
      rw [List.length_append] at lengthEq
      have started' := within'.started
      have others := ih r'.length (by omega) (Plain.of_append plain) (started'.symm ▸ within') rfl
      rw [started'] at others
      exact .token lexEq notEof others

theorem Tokens.unique {toks toks' : List Shown} (tokens : dev.Tokens toks)
    (tokens' : dev.Tokens toks') : toks = toks' := by
  induction tokens generalizing toks' with
  | ended lexEq =>
      cases tokens' with
      | ended => rfl
      | token lexEq' notEof =>
          cases lexEq.symm.trans lexEq'
          exact absurd rfl notEof
  | token lexEq notEof _ ih =>
      cases tokens' with
      | ended lexEq' =>
          cases lexEq.symm.trans lexEq'
          exact absurd rfl notEof
      | token lexEq' _ others' =>
          cases lexEq.symm.trans lexEq'
          rw [ih others']

end Dev

theorem newStringDevice_within (fresh : Nat → Chr) (column : UInt32) (backlog : Token)
    {str : List Chr} (legal : ∀ ch ∈ str, IsStringChar ch) :
    (aklNewStringDevice fresh str column backlog).started.Within [] str :=
  ⟨rfl, legal, ⟨_, rfl, by simp⟩, rfl⟩

end AkLisp
