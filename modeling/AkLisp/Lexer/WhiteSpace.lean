import AkLisp.Lexer.Modes

/-!
# White space

A blank and a line end stand between any two tokens, a tab and a carriage return
belong to an atom they stand behind.  With a sign pending a blank makes the sign an
atom, and the others are skipped.  From the state of the lexer in front of a white
space character on, the tokens say when it may be replaced by another one.
-/

namespace AkLisp

/-- A white space character. -/
def IsWhite (ch : Chr) : Prop :=
  ch = code ' ' ∨ ch = code '\n' ∨ ch = code '\t' ∨ ch = code '\r'

/-- The tokens with the texts of those that have one. -/
def withTexts (toks : List Shown) : List (Token × Option (List Chr)) :=
  toks.map fun p => (p.1, if p.1.hasText then some p.2 else none)

/-- The lexer returns the same tokens for both strings, with the same texts. -/
def SameTokens (fresh : Nat → Chr) (column : UInt32) (backlog : Token) (str str' : List Chr) :
    Prop :=
  ∃ toks toks', (aklNewStringDevice fresh str column backlog).Tokens toks ∧
    (aklNewStringDevice fresh str' column backlog).Tokens toks' ∧ withTexts toks = withTexts toks'

/-- Behind a skipped character the pending sign becomes an atom, as it does at a
blank: the next character that is not skipped is a blank or a closing parenthesis, or
an atom directly behind a line end while the buffer holds that sign already. -/
def Flushes (buffer : List Chr) (op : Chr) : Chr → List Chr → Prop
  | _, [] => False
  | last, ch :: r =>
      match classOf ch with
      | .newline => Flushes buffer op ch r
      | .other => Flushes buffer op ch r
      | .delimiter => True
      | .atom => endsAtom last = true ∧ buffer = [op]
      | _ => False

/-- In this state the white space characters may be exchanged in front of the rest. -/
def Interchanges (s : Scanning) (white white' : Chr) (r : List Chr) : Prop :=
  match s.mode with
  | .main => True
  | .number _ => True
  | .opened => True
  | .stopped => True
  | .atom _ => endsAtom white = true ∧ endsAtom white' = true
  | .signed op _ =>
      if white = code ' ' then Flushes s.buffer op white' r
      else if white' = code ' ' then Flushes s.buffer op white r
      else ∀ ch ∈ r.head?, classOf ch ≠ .atom

variable {buffer name text r : List Chr} {op last ch white white' : Chr}

theorem withTexts_cons (p : Shown) (toks : List Shown) :
    withTexts (p :: toks) = (p.1, if p.1.hasText then some p.2 else none) :: withTexts toks :=
  rfl

theorem withTexts_append (first second : List Shown) :
    withTexts (first ++ second) = withTexts first ++ withTexts second :=
  List.map_append

/-- In the main loop white space is skipped. -/
theorem tokens_main_white (isWhite : IsWhite white) :
    tokensFrom .main buffer (white :: r) = tokensFrom .main buffer r := by
  have stepEq : mainStep buffer white = ([], ⟨.main, buffer⟩) := by
    rcases isWhite with rfl | rfl | rfl | rfl <;> rfl
  rw [tokens_main_cons, stepEq, List.nil_append, output_eq]

/-- White space ends a number. -/
theorem tokens_number_white (isWhite : IsWhite white) :
    tokensFrom (.number text) buffer (white :: r) =
      (.tNUMBER, text) :: tokensFrom .main text r := by
  have ends : isValidInNumber white = false := by
    rcases isWhite with rfl | rfl | rfl | rfl <;> decide
  rw [tokens_number_ends ends, tokens_main_white isWhite]

/-- White space stands behind an opening parenthesis. -/
theorem tokens_opened_white (isWhite : IsWhite white) :
    tokensFrom .opened buffer (white :: r) =
      (.tLBRACE, buffer) :: tokensFrom .main buffer r := by
  have notClose : ¬some white = some (code ')') := by
    rcases isWhite with rfl | rfl | rfl | rfl <;> decide
  rw [tokens_opened, List.head?_cons, if_neg notClose, tokens_main_white isWhite]

theorem atomToken_sign (isSign : IsSign op) : atomToken [op] = .tATOM := by
  rcases isSign with rfl | rfl <;> decide

theorem hasText_atom (toks : List Shown) :
    withTexts ((.tATOM, text) :: toks) = (.tATOM, some text) :: withTexts toks :=
  rfl

/-- Two atoms are shown alike only if they are the same token, and if it is `tATOM`,
have the same text. -/
theorem shown_atom_inj {toks toks' : List Shown} {tok : Token} {text' : List Chr}
    (equal : withTexts ((.tATOM, text) :: toks) = withTexts ((tok, text') :: toks')) :
    tok = .tATOM ∧ text = text' ∧ withTexts toks = withTexts toks' := by
  rw [hasText_atom, withTexts_cons, List.cons.injEq, Prod.mk.injEq] at equal
  obtain ⟨⟨rfl, textEq⟩, others⟩ := equal
  exact ⟨rfl, Option.some.inj textEq, others⟩

/-! ## Within an atom -/

theorem tokens_atom_white_ends (ends : endsAtom white = true) (isWhite : IsWhite white) :
    tokensFrom (.atom name) buffer (white :: r) =
      atomShown name :: tokensFrom .main (atomShown name).2 r := by
  rw [tokens_atom_ends ends, tokens_main_white isWhite]

theorem IsWhite.stays (isWhite : IsWhite white) (inside : endsAtom white = false) :
    white = code '\t' ∨ white = code '\r' := by
  rcases isWhite with rfl | rfl | tab | cr
  · exact absurd inside (by decide)
  · exact absurd inside (by decide)
  · exact .inl tab
  · exact .inr cr

theorem white_no_letter (other : ch = code '\t' ∨ ch = code '\r') : tolower ch ∉ nameLetters := by
  rcases other with rfl | rfl <;> decide

theorem tolower_white (other : ch = code '\t' ∨ ch = code '\r') : tolower ch = ch := by
  rcases other with rfl | rfl <;> decide

/-- A tab or a carriage return becomes part of the atom. -/
theorem tokens_atom_white_stays (name : List Chr) (isWhite : IsWhite white)
    (inside : endsAtom white = false) :
    ∃ others toks, tokensFrom (.atom name) buffer (white :: r) =
      (.tATOM, name.map tolower ++ white :: others) :: toks := by
  have other := isWhite.stays inside
  have nameEq : atomName (white :: r) = white :: atomName r := by simp [atomName, inside]
  have textEq : (name ++ white :: atomName r).map tolower =
      name.map tolower ++ white :: (atomName r).map tolower := by
    rw [List.map_append, List.map_cons, tolower_white other]
  have tokensEq := tokens_atom name buffer (white :: r)
  rw [nameEq, atomShown, textEq, atomToken_of_mem (by simp) (white_no_letter other)] at tokensEq
  exact ⟨_, _, tokensEq⟩

/-- Within an atom only characters that end it may be exchanged. -/
theorem exchange_atom (isWhite : IsWhite white) (isWhite' : IsWhite white')
    (differ : white ≠ white') :
    withTexts (tokensFrom (.atom name) buffer (white :: r)) =
        withTexts (tokensFrom (.atom name) buffer (white' :: r)) ↔
      endsAtom white = true ∧ endsAtom white' = true := by
  -- one ends the atom and the other one does not
  have apart {white white' : Chr} (isWhite : IsWhite white) (isWhite' : IsWhite white')
      (ends : endsAtom white = true) (stays : endsAtom white' = false) :
      withTexts (tokensFrom (.atom name) buffer (white' :: r)) ≠
        withTexts (tokensFrom (.atom name) buffer (white :: r)) := by
    intro equal
    obtain ⟨others, toks, tokensEq⟩ := tokens_atom_white_stays name isWhite' stays
    rw [tokensEq, tokens_atom_white_ends ends isWhite, atomShown] at equal
    have lengths := congrArg List.length (shown_atom_inj equal).2.1
    simp only [List.length_append, List.length_cons] at lengths
    omega
  cases ends : endsAtom white with
  | true =>
      cases ends' : endsAtom white' with
      | true =>
          rw [tokens_atom_white_ends ends isWhite, tokens_atom_white_ends ends' isWhite']
          simp
      | false =>
          have := (apart isWhite isWhite' ends ends').symm
          simpa using this
  | false =>
      cases ends' : endsAtom white' with
      | true =>
          have := apart isWhite' isWhite ends' ends
          simpa using this
      | false =>
          simp only [Bool.false_eq_true, and_self, iff_false]
          intro equal
          obtain ⟨others, toks, tokensEq⟩ := tokens_atom_white_stays name isWhite ends
          obtain ⟨others', toks', tokensEq'⟩ := tokens_atom_white_stays name isWhite' ends'
          rw [tokensEq, tokensEq'] at equal
          have texts := (shown_atom_inj equal).2.1
          rw [List.append_cancel_left_eq, List.cons.injEq] at texts
          exact differ texts.1

/-! ## With a sign pending -/

/-- Two steps emit equally many tokens and end in the same mode. -/
def StepAlike (first second : List Shown × Scanning) : Prop :=
  first.1.length = second.1.length ∧ first.2.mode = second.2.mode

theorem mainStep_alike (buffer buffer' : List Chr) (ch : Chr) :
    StepAlike (mainStep buffer ch) (mainStep buffer' ch) := by
  unfold mainStep
  cases classOf ch with
  | delimiter =>
      refine ⟨?_, rfl⟩
      dsimp only
      split
      · rfl
      · rfl
  | _ => exact ⟨rfl, rfl⟩

theorem endToken_alike (tok : Token) (buffer buffer' : List Chr) (ch : Chr) :
    StepAlike (endToken tok buffer ch) (endToken tok buffer' ch) :=
  ⟨congrArg (· + 1) (mainStep_alike buffer buffer' ch).1, (mainStep_alike buffer buffer' ch).2⟩

/-- What the buffer holds does not matter for the next mode. -/
theorem step_alike (mode : Mode) (buffer buffer' : List Chr) (ch : Chr) :
    StepAlike (lexer.step ⟨mode, buffer⟩ ch) (lexer.step ⟨mode, buffer'⟩ ch) := by
  cases mode with
  | main => exact mainStep_alike buffer buffer' ch
  | signed op last =>
      simp only [lexer, signedStep]
      cases classOf ch with
      | atom =>
          dsimp only
          split
          · exact ⟨rfl, rfl⟩
          · exact ⟨rfl, rfl⟩
      | _ => exact ⟨rfl, rfl⟩
  | number text =>
      simp only [lexer]
      split
      · exact ⟨rfl, rfl⟩
      · exact ⟨rfl, rfl⟩
  | atom name =>
      simp only [lexer]
      split
      · exact ⟨rfl, rfl⟩
      · exact ⟨rfl, rfl⟩
  | opened =>
      simp only [lexer]
      split
      · exact ⟨rfl, rfl⟩
      · exact endToken_alike _ _ _ ch
  | stopped => exact ⟨rfl, rfl⟩

/-- The number of tokens does not depend on what the buffer holds. -/
theorem tokens_length (mode : Mode) (buffer buffer' r : List Chr) :
    (tokensFrom mode buffer r).length = (tokensFrom mode buffer' r).length := by
  induction r generalizing mode buffer buffer' with
  | nil => cases mode <;> rfl
  | cons ch r ih =>
      have alike := step_alike mode buffer buffer' ch
      rw [tokensFrom, tokensFrom, Transducer.output_cons, Transducer.output_cons,
        List.length_append, List.length_append, alike.1]
      generalize lexer.step ⟨mode, buffer⟩ ch = first at alike ⊢
      generalize lexer.step ⟨mode, buffer'⟩ ch = second at alike ⊢
      obtain ⟨emitted, mode₁, buffer₁⟩ := first
      obtain ⟨emitted', mode₂, buffer₂⟩ := second
      obtain rfl : mode₁ = mode₂ := alike.2
      exact congrArg _ (ih mode₁ buffer₁ buffer₂)

theorem tokens_signed_blank :
    tokensFrom (.signed op last) buffer (code ' ' :: r) =
      (.tATOM, [op]) :: tokensFrom .main [op] r :=
  rfl

theorem tokens_signed_white (isWhite : IsWhite white) (notBlank : white ≠ code ' ') :
    tokensFrom (.signed op last) buffer (white :: r) = tokensFrom (.signed op white) buffer r := by
  have stepEq : signedStep buffer op last white = ([], ⟨.signed op white, buffer⟩) := by
    rcases isWhite with blank | rfl | rfl | rfl
    · exact absurd blank notBlank
    · rfl
    · rfl
    · rfl
  rw [tokens_signed_cons, stepEq, List.nil_append, output_eq]

/-- An atom with two characters of its name is not shown as the sign alone. -/
theorem sign_ne_atom {c d : Chr} {toks : List Shown} (rest : List Chr) :
    withTexts ((.tATOM, [op]) :: toks) ≠
      withTexts (tokensFrom (.atom [c, d]) buffer rest) := by
  intro equal
  rw [tokens_atom, atomShown] at equal
  have lengths := congrArg List.length (shown_atom_inj equal).2.1
  simp at lengths

/-- Instead of a blank another white space character stands behind the sign. -/
theorem exchange_blank (isSign : IsSign op) :
    withTexts ((.tATOM, [op]) :: tokensFrom .main [op] r) =
        withTexts (tokensFrom (.signed op last) buffer r) ↔
      Flushes buffer op last r := by
  induction r generalizing last with
  | nil =>
      simp only [Flushes, iff_false]
      exact List.cons_ne_nil _ _
  | cons ch r ih =>
      rw [tokens_signed_cons, tokens_main_cons]
      -- the first tokens differ
      have apart {tok : Token} {text' : List Chr} {toks toks' : List Shown}
          (other : tok = .tATOM → text' ≠ [op]) :
          withTexts ((.tATOM, [op]) :: toks) ≠ withTexts ((tok, text') :: toks') := by
        intro equal
        obtain ⟨isAtom, textEq, -⟩ := shown_atom_inj equal
        exact other isAtom textEq.symm
      cases kind : classOf ch with
      | endOfFile =>
          simp only [mainStep, signedStep, Flushes, kind, iff_false, output_eq, List.nil_append,
            tokens_stopped]
          exact List.cons_ne_nil _ _
      | newline =>
          simp only [mainStep, signedStep, Flushes, kind, output_eq, List.nil_append]
          exact ih
      | sign =>
          simp only [mainStep, signedStep, Flushes, kind, iff_false]
          exact apart (by simp)
      | digit =>
          simp only [mainStep, signedStep, Flushes, kind, iff_false, output_eq, List.nil_append]
          rw [tokens_number [op, ch] buffer r]
          exact apart Token.noConfusion
      | delimiter =>
          simp only [mainStep, signedStep, Flushes, kind, iff_true]
          rfl
      | doubleQuote =>
          simp only [mainStep, signedStep, Flushes, kind, iff_false, output_eq, List.nil_append,
            tokens_stopped]
          exact List.cons_ne_nil _ _
      | opening =>
          simp only [mainStep, signedStep, Flushes, kind, iff_false, output_eq, List.nil_append]
          rw [tokens_opened buffer r]
          split
          · exact apart Token.noConfusion
          · exact apart Token.noConfusion
      | quote =>
          simp only [mainStep, signedStep, Flushes, kind, iff_false]
          exact apart Token.noConfusion
      | semicolon =>
          simp only [mainStep, signedStep, Flushes, kind, iff_false, output_eq, List.nil_append,
            tokens_stopped]
          exact List.cons_ne_nil _ _
      | atom =>
          simp only [mainStep, signedStep, Flushes, kind, List.nil_append]
          cases ends : endsAtom last with
          | false =>
              simp only [Bool.false_eq_true, if_false, false_and, iff_false, List.nil_append]
              exact sign_ne_atom r
          | true =>
              -- the atom itself is the same, whatever the buffer holds in front of it
              simp only [if_true, true_and, output_eq, List.singleton_append]
              have same : tokensFrom (.atom [ch]) [op] r = tokensFrom (.atom [ch]) buffer r := by
                rw [tokens_atom, tokens_atom]
              rw [same]
              constructor
              · intro equal
                exact (shown_atom_inj equal).2.1.symm
              · rintro rfl
                rw [atomToken_sign isSign]
      | other =>
          simp only [mainStep, signedStep, Flushes, kind, output_eq, List.nil_append]
          exact ih

/-- The character in front matters for an atom only. -/
theorem signedStep_last (last last' : Chr) (kind : classOf ch ≠ .atom) :
    signedStep buffer op last ch = signedStep buffer op last' ch := by
  unfold signedStep
  cases kindEq : classOf ch with
  | atom => exact absurd kindEq kind
  | _ => rfl

theorem IsWhite.ends_iff (isWhite : IsWhite white) (notBlank : white ≠ code ' ') :
    endsAtom white = true ↔ white = code '\n' := by
  rcases isWhite with blank | rfl | rfl | rfl
  · exact absurd blank notBlank
  · decide
  · decide
  · decide

/-- An atom behind a sign and white space that belongs to the atom. -/
theorem tokens_signed_stays (inside : endsAtom white = false) (kind : classOf ch = .atom) :
    tokensFrom (.signed op white) buffer (ch :: r) = tokensFrom (.atom [white, ch]) buffer r := by
  have stepEq : signedStep buffer op white ch = ([], ⟨.atom [white, ch], buffer⟩) := by
    simp [signedStep, kind, inside]
  rw [tokens_signed_cons, stepEq, List.nil_append, output_eq]

/-- An atom behind a sign and a line end. -/
theorem tokens_signed_ends (ends : endsAtom white = true) (kind : classOf ch = .atom) :
    tokensFrom (.signed op white) buffer (ch :: r) =
      (atomToken buffer, buffer) :: tokensFrom (.atom [ch]) buffer r := by
  have stepEq : signedStep buffer op white ch =
      ([(atomToken buffer, buffer)], ⟨.atom [ch], buffer⟩) := by
    simp [signedStep, kind, ends]
  rw [tokens_signed_cons, stepEq, List.singleton_append, output_eq]

theorem withTexts_length (toks : List Shown) : (withTexts toks).length = toks.length :=
  List.length_map _

/-- Two white space characters that leave the sign pending may be exchanged unless
an atom begins behind them. -/
theorem exchange_skipped (isWhite : IsWhite white) (isWhite' : IsWhite white')
    (differ : white ≠ white') (notBlank : white ≠ code ' ') (notBlank' : white' ≠ code ' ') :
    withTexts (tokensFrom (.signed op white) buffer r) =
        withTexts (tokensFrom (.signed op white') buffer r) ↔
      ∀ ch ∈ r.head?, classOf ch ≠ .atom := by
  cases r with
  | nil =>
      constructor
      · simp
      · intro _
        rfl
  | cons ch r =>
      simp only [List.head?_cons, Option.mem_def, Option.some.injEq, forall_eq']
      by_cases kind : classOf ch = .atom
      · simp only [kind, ne_eq, not_true, iff_false]
        -- a line end costs a token more, and the others are the first character of the atom
        have apart {white white' : Chr} (ends : endsAtom white = true)
            (inside : endsAtom white' = false) :
            withTexts (tokensFrom (.signed op white) buffer (ch :: r)) ≠
              withTexts (tokensFrom (.signed op white') buffer (ch :: r)) := by
          intro equal
          have lengths := congrArg List.length equal
          have same := tokens_length .main (atomShown ([white', ch] ++ atomName r)).2
            (atomShown ([ch] ++ atomName r)).2 (atomRest r)
          rw [tokens_signed_ends ends kind, tokens_signed_stays inside kind, withTexts_length,
            withTexts_length, List.length_cons, tokens_atom, tokens_atom, List.length_cons,
            List.length_cons, same] at lengths
          omega
        cases ends : endsAtom white with
        | true =>
            cases ends' : endsAtom white' with
            | true =>
                refine absurd ?_ differ
                rw [(isWhite.ends_iff notBlank).mp ends, (isWhite'.ends_iff notBlank').mp ends']
            | false => exact apart ends ends'
        | false =>
            cases ends' : endsAtom white' with
            | true => exact (apart ends' ends).symm
            | false =>
                intro equal
                have other := isWhite.stays ends
                have other' := isWhite'.stays ends'
                rw [tokens_signed_stays ends kind, tokens_signed_stays ends' kind, tokens_atom,
                  tokens_atom, atomShown, atomShown] at equal
                have mem : white ∈ ([white, ch] ++ atomName r).map tolower := by
                  simp [tolower_white other]
                rw [atomToken_of_mem mem (white_no_letter other)] at equal
                have texts := (shown_atom_inj equal).2.1
                simp only [List.cons_append, List.map_cons, List.cons.injEq, tolower_white other,
                  tolower_white other'] at texts
                exact differ texts.1
      · simp only [ne_eq, kind, not_false_eq_true, iff_true]
        rw [tokens_signed_cons, tokens_signed_cons, signedStep_last white white' kind]

/-! ## Every state -/

/-- A pending sign is a sign. -/
def Scanning.Signed (s : Scanning) : Prop :=
  ∀ op last, s.mode = .signed op last → IsSign op

theorem mainStep_signed (buffer : List Chr) (ch : Chr) : (mainStep buffer ch).2.Signed := by
  intro op last modeEq
  cases kind : classOf ch with
  | sign =>
      simp only [mainStep, kind, Mode.signed.injEq] at modeEq
      exact modeEq.1 ▸ CharClass.is_of_eq kind
  | _ => simp [mainStep, kind] at modeEq

theorem Scanning.Signed.step {s : Scanning} (signed : s.Signed) (ch : Chr) :
    (lexer.step s ch).2.Signed := by
  obtain ⟨mode, buffer⟩ := s
  cases mode with
  | main => exact mainStep_signed buffer ch
  | signed op last =>
      intro op' last' modeEq
      have isSign : IsSign op := signed op last rfl
      cases kind : classOf ch with
      | newline =>
          simp only [lexer, signedStep, kind, Mode.signed.injEq] at modeEq
          exact modeEq.1 ▸ isSign
      | other =>
          simp only [lexer, signedStep, kind, Mode.signed.injEq] at modeEq
          exact modeEq.1 ▸ isSign
      | atom =>
          simp only [lexer, signedStep, kind] at modeEq
          split at modeEq
          · cases modeEq
          · cases modeEq
      | _ => simp [lexer, signedStep, kind] at modeEq
  | number text =>
      simp only [lexer]
      split
      · intro op last modeEq
        cases modeEq
      · exact mainStep_signed text ch
  | atom name =>
      simp only [lexer]
      split
      · exact mainStep_signed _ ch
      · intro op last modeEq
        cases modeEq
  | opened =>
      simp only [lexer]
      split
      · intro op last modeEq
        cases modeEq
      · exact mainStep_signed buffer ch
  | stopped => exact signed

theorem Scanning.Signed.state {s : Scanning} (signed : s.Signed) (r : List Chr) :
    (lexer.state s r).Signed := by
  induction r generalizing s with
  | nil => exact signed
  | cons ch r ih => exact ih (signed.step ch)

/-- From any state the tokens tell when white space characters may be exchanged. -/
theorem exchange_iff {s : Scanning} (signed : s.Signed) (isWhite : IsWhite white)
    (isWhite' : IsWhite white') (differ : white ≠ white') :
    withTexts (lexer.output s (white :: r)) = withTexts (lexer.output s (white' :: r)) ↔
      Interchanges s white white' r := by
  obtain ⟨mode, buffer⟩ := s
  simp only [output_eq]
  cases mode with
  | main =>
      rw [tokens_main_white isWhite, tokens_main_white isWhite']
      exact iff_of_true rfl trivial
  | signed op last =>
      have isSign : IsSign op := signed op last rfl
      simp only [Interchanges]
      by_cases blank : white = code ' '
      · subst blank
        rw [if_pos rfl, tokens_signed_blank, tokens_signed_white isWhite' differ.symm]
        exact exchange_blank isSign
      · rw [if_neg blank]
        by_cases blank' : white' = code ' '
        · subst blank'
          rw [if_pos rfl, tokens_signed_blank, tokens_signed_white isWhite blank, eq_comm]
          exact exchange_blank isSign
        · rw [if_neg blank', tokens_signed_white isWhite blank, tokens_signed_white isWhite' blank']
          exact exchange_skipped isWhite isWhite' differ blank blank'
  | number text =>
      rw [tokens_number_white isWhite, tokens_number_white isWhite']
      exact iff_of_true rfl trivial
  | atom name => exact exchange_atom isWhite isWhite' differ
  | opened =>
      rw [tokens_opened_white isWhite, tokens_opened_white isWhite']
      exact iff_of_true rfl trivial
  | stopped =>
      rw [tokens_stopped, tokens_stopped]
      exact iff_of_true rfl trivial

/-! ## Strings -/

theorem IsWhite.plain (isWhite : IsWhite ch) :
    IsStringChar ch ∧ ch ≠ code ';' ∧ ch ≠ code '#' ∧ ch ≠ code '"' := by
  unfold IsStringChar
  rcases isWhite with rfl | rfl | rfl | rfl <;> decide

theorem newStringDevice_tokens (fresh : Nat → Chr) (column : UInt32) (backlog : Token)
    {str : List Chr} (plain : Plain str) :
    (aklNewStringDevice fresh str column backlog).Tokens (lexer.output (startState fresh) str) :=
  (newStringDevice_within fresh column backlog fun ch mem => (plain ch mem).1).tokens plain

theorem sameTokens_iff (fresh : Nat → Chr) (column : UInt32) (backlog : Token)
    {str str' : List Chr} (plain : Plain str) (plain' : Plain str') :
    SameTokens fresh column backlog str str' ↔
      withTexts (lexer.output (startState fresh) str) =
        withTexts (lexer.output (startState fresh) str') := by
  have tokens := newStringDevice_tokens fresh column backlog plain
  have tokens' := newStringDevice_tokens fresh column backlog plain'
  constructor
  · rintro ⟨toks, toks', found, found', equal⟩
    rwa [found.unique tokens, found'.unique tokens'] at equal
  · exact fun equal => ⟨_, _, tokens, tokens', equal⟩

/-- A white space character may be replaced by another one exactly when it stands
between tokens, or ends an atom as the other one does, or stands behind a sign that
becomes the same atom or stays pending in both cases. -/
theorem white_space_interchangeable_iff (fresh : Nat → Chr) (column : UInt32) (backlog : Token)
    {before after : List Chr} (plain : Plain (before ++ after)) (isWhite : IsWhite white)
    (isWhite' : IsWhite white') (differ : white ≠ white') :
    SameTokens fresh column backlog (before ++ white :: after) (before ++ white' :: after) ↔
      Interchanges (lexer.state (startState fresh) before) white white' after := by
  have inserted {ch : Chr} (isWhite : IsWhite ch) : Plain (before ++ ch :: after) := by
    intro c mem
    rcases List.mem_append.mp mem with mem | mem
    · exact plain c (List.mem_append_left _ mem)
    · rcases List.mem_cons.mp mem with rfl | mem
      · exact isWhite.plain
      · exact plain c (List.mem_append_right _ mem)
  have signed : (startState fresh).Signed := by
    intro op last modeEq
    cases modeEq
  rw [sameTokens_iff fresh column backlog (inserted isWhite) (inserted isWhite'),
    Transducer.output_append, Transducer.output_append, withTexts_append, withTexts_append,
    List.append_cancel_left_eq]
  exact exchange_iff (signed.state before) isWhite isWhite' differ

/-- Between two numbers. -/
theorem white_space_interchangeable_numbers :
    SameTokens (fun _ => 0) 0 .tEOF
      [code '1', code ' ', code '2'] [code '1', code '\t', code '2'] :=
  have plain : Plain ([code '1'] ++ [code '2']) := by simp [Plain, IsStringChar, code]
  (white_space_interchangeable_iff (fun _ => 0) 0 .tEOF plain (.inl rfl)
    (.inr (.inr (.inl rfl))) (by decide)).mpr trivial

/-- A tab does not end an atom. -/
theorem tab_in_atom :
    ¬SameTokens (fun _ => 0) 0 .tEOF [code 'a', code ' ', code 'b']
      [code 'a', code '\t', code 'b'] := by
  rw [sameTokens_iff _ _ _ (by simp [Plain, IsStringChar, code])
    (by simp [Plain, IsStringChar, code])]
  decide

end AkLisp
