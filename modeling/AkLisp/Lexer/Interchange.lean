import AkLisp.Lexer.Sound

/-!
# Files and strings as sources of one text

A file and a string with the same text yield the same tokens as long as no call
of `akl_lex` comes to a place of the text where the two kinds of devices differ.
The device of a file starts with any count of characters, that of a string with
0, so each of them has a column of its own.
-/

namespace AkLisp

/-- The calls of `akl_lex` up to the first `tEOF`, each with its token and the C
string in the buffer behind it. -/
inductive Dev.Tokens : Dev → List (Token × List Chr) → Prop where
  | ended {dev dev'} (lexEq : dev.aklLex = .ok (.tEOF, dev')) : Dev.Tokens dev []
  | token {dev tok dev' toks} (lexEq : dev.aklLex = .ok (tok, dev')) (notEof : tok ≠ .tEOF)
      (others : Dev.Tokens dev' toks) : Dev.Tokens dev ((tok, dev'.bufferText) :: toks)

/-- The device of a file has counted `k` characters of the line, that of a string
`k'`, and both take the same token off the text. -/
structure LexesBoth (k k' : UInt32) (op : Chr) (r : List Chr) (tok : Token)
    (w : Option (List Chr)) (l l' : UInt32) (r' : List Chr) : Prop where
  file : Lexes (some k) op r tok w (some l) r'
  string : Lexes (some k') op r tok w (some l') r'

/-- Both devices take these tokens off the text. -/
inductive TokenizesBoth : UInt32 → UInt32 → List Chr → List (Token × Option (List Chr)) →
    UInt32 → UInt32 → List Chr → Prop where
  | done {k k' r} : TokenizesBoth k k' r [] k k' r
  | token {k k' r tok w k₁ k₁' r₁ toks l l' r'} (lexes : LexesBoth k k' 0 r tok w k₁ k₁' r₁)
      (notEof : tok ≠ .tEOF) (others : TokenizesBoth k₁ k₁' r₁ toks l l' r') :
      TokenizesBoth k k' r ((tok, w) :: toks) l l' r'

/-- A given place of a text. -/
def AtPlace (col : Column) (op : Chr) (r : List Chr) : Column → Chr → List Chr → Prop :=
  fun col' op' r' => col = col' ∧ op = op' ∧ r = r'

/-- The loops of `akl_lex` skip to one place on both devices, and the place has a
property. -/
def ComesTo (stop : UInt32 → UInt32 → Chr → List Chr → Prop) (k k' : UInt32) (op : Chr)
    (r : List Chr) : Prop :=
  ∃ l l' op' r', SkipsTo (AtPlace (some l) op' r') (some k) op r ∧
    SkipsTo (AtPlace (some l') op' r') (some k') op r ∧ stop l l' op' r'

/-- A place of a text where files and strings differ, with the counts of both
devices: a sign in front of an atom, an atom or a string that runs up to the end
of the text, a comment character at the very end, a shebang line that is not
ended, or a `#` at which one of the counts is 0 and the other is not. -/
inductive Differs : UInt32 → UInt32 → Chr → List Chr → Prop where
  | signAtom {k k' op ch r} (pending : IsSign op) (kind : classOf ch = .atom)
      (plain : ch = code '#' → k ≠ 0 ∧ k' ≠ 0) : Differs k k' op (ch :: r)
  | atomEnd {k k' ch cs} (kind : classOf ch = .atom) (plain : ch = code '#' → k ≠ 0 ∧ k' ≠ 0)
      (inside : ∀ c ∈ cs, endsAtom c = false) : Differs k k' 0 (ch :: cs)
  | stringEnd {k k' op raw} (unclosed : ∀ body text r, raw = body ++ code '"' :: r →
      ¬StringBody body text) : Differs k k' op (code '"' :: raw)
  | commentEmpty {k k' op} : Differs k k' op [code ';']
  | shebangEnd {op line} (inside : ∀ ch ∈ line, ch ≠ code '\n') :
      Differs 0 0 op (code '#' :: line)
  | hash {k k' op r} (one : k = 0 ↔ k' ≠ 0) (early : k ≠ 0 → op = 0) :
      Differs k k' op (code '#' :: r)

/-- A `#` behind a pending sign that starts a shebang line for the string only: the
count of the string has come round to 0 on a first line of `2 ^ 32` characters. -/
def ComesRound (k k' : UInt32) (op : Chr) (r : List Chr) : Prop :=
  k ≠ 0 ∧ k' = 0 ∧ IsSign op ∧ r.head? = some (code '#')

/-- A place of a text where files and strings may differ. -/
def MayDiffer (k k' : UInt32) (op : Chr) (r : List Chr) : Prop :=
  Differs k k' op r ∨ ComesRound k k' op r

theorem Column.advance_known (k : UInt32) (n : Nat) :
    ∃ l, Column.advance (some k) n = some l := by
  induction n generalizing k with
  | zero => exact ⟨k, rfl⟩
  | succ n ih => exact ih (k + 1)

/-- Where the count of characters is known, it is known behind a token. -/
theorem Lexes.known {col col' : Column} {op : Chr} {r r' : List Chr} {tok : Token}
    {w : Option (List Chr)} (lexes : Lexes col op r tok w col' r') :
    ∀ k, col = some k → ∃ l, col' = some l := by
  induction lexes with
  | ended | signClose => exact fun k known => ⟨k, known⟩
  | newline _ ih | shebang _ _ ih => exact fun _ _ => ih 0 rfl
  | other _ _ ih | blank _ ih | sign _ _ ih =>
      rintro k rfl
      exact ih (k + 1) rfl
  | @comment _ _ line _ _ _ _ _ _ _ ih =>
      rintro k rfl
      rcases Column.advance_known k (line.length + 2) with ⟨l, known⟩
      exact ih l known
  | commentEnded => exact fun k known => ⟨k, known⟩
  | signs | signBlank | close | opening | quote =>
      rintro k rfl
      exact ⟨k + 1, rfl⟩
  | number | emptyString | string | nil | atom =>
      rintro k rfl
      exact Column.advance_known k _

/-- Both devices take some token off the text. -/
def TakesToken (k k' : UInt32) (op : Chr) (r : List Chr) : Prop :=
  ∃ tok w l l' r', LexesBoth k k' op r tok w l l' r'

theorem TakesToken.both {k k' : UInt32} {col col' : Column} {op : Chr} {r r' : List Chr}
    {tok : Token} {w : Option (List Chr)} (file : Lexes (some k) op r tok w col r')
    (string : Lexes (some k') op r tok w col' r') : TakesToken k k' op r := by
  rcases file.known k rfl with ⟨l, rfl⟩
  rcases string.known k' rfl with ⟨l', rfl⟩
  exact ⟨tok, w, l, l', r', file, string⟩

namespace ComesTo

variable {stop : UInt32 → UInt32 → Chr → List Chr → Prop} {k k' : UInt32} {op ch : Chr}
    {line r : List Chr}

theorem here (found : stop k k' op r) : ComesTo stop k k' op r :=
  ⟨k, k', op, r, .here ⟨rfl, rfl, rfl⟩, .here ⟨rfl, rfl, rfl⟩, found⟩

theorem newline (next : ComesTo stop 0 0 op r) : ComesTo stop k k' op (code '\n' :: r) := by
  rcases next with ⟨l, l', op', r', file, string, found⟩
  exact ⟨l, l', op', r', .newline file, .newline string, found⟩

theorem shebang (inside : ∀ ch ∈ line, ch ≠ code '\n') (next : ComesTo stop 0 0 op r) :
    ComesTo stop 0 0 op (code '#' :: (line ++ code '\n' :: r)) := by
  rcases next with ⟨l, l', op', r', file, string, found⟩
  exact ⟨l, l', op', r', .shebang inside file, .shebang inside string, found⟩

theorem comment (inside : ∀ ch ∈ line, ch ≠ code '\n') {j j' : UInt32}
    (known : Column.advance (some k) (line.length + 2) = some j)
    (known' : Column.advance (some k') (line.length + 2) = some j')
    (next : ComesTo stop j j' op r) :
    ComesTo stop k k' op (code ';' :: (line ++ code '\n' :: r)) := by
  rcases next with ⟨l, l', op', r', file, string, found⟩
  exact ⟨l, l', op', r', .comment inside (known.symm ▸ file),
    .comment inside (known'.symm ▸ string), found⟩

theorem other (kind : classOf ch = .other) (next : ComesTo stop (k + 1) (k' + 1) op r) :
    ComesTo stop k k' op (ch :: r) := by
  rcases next with ⟨l, l', op', r', file, string, found⟩
  exact ⟨l, l', op', r', .other kind file, .other kind string, found⟩

theorem blank (next : ComesTo stop (k + 1) (k' + 1) 0 r) :
    ComesTo stop k k' 0 (code ' ' :: r) := by
  rcases next with ⟨l, l', op', r', file, string, found⟩
  exact ⟨l, l', op', r', .blank file, .blank string, found⟩

theorem sign (isSign : IsSign ch) (next : ComesTo stop (k + 1) (k' + 1) ch r) :
    ComesTo stop k k' 0 (ch :: r) := by
  rcases next with ⟨l, l', op', r', file, string, found⟩
  exact ⟨l, l', op', r', .sign isSign file, .sign isSign string, found⟩

end ComesTo

/-- A `#` at which both counts are 0, exactly one of them is, or neither is. -/
theorem hash_cases (k k' : UInt32) :
    (k = 0 ∧ k' = 0) ∨ (k = 0 ↔ k' ≠ 0) ∨ (k ≠ 0 ∧ k' ≠ 0) := by
  tauto

theorem plain_of_ne_zero {k : UInt32} (nonzero : k ≠ 0) :
    ∃ j, (some k : Column) = some j ∧ j + 1 ≠ 1 :=
  ⟨k, rfl, fun equal => nonzero (by simpa using equal)⟩

/-- Behind every pending sign the text starts with a token for both devices,
unless `akl_lex` comes to a place where they may differ. -/
theorem LexesBoth.total (r : List Chr) (notEof : ∀ ch ∈ r, ch ≠ eof) (k k' : UInt32) {op : Chr}
    (pending : op = 0 ∨ IsSign op) :
    TakesToken k k' op r ∨ ComesTo MayDiffer k k' op r := by
  induction lengthEq : r.length using Nat.strong_induction_on generalizing r k k' op with
  | _ n ih =>
    cases r with
    | nil => exact .inl (.both .ended .ended)
    | cons ch r =>
        have notEofR : ∀ c ∈ r, c ≠ eof := fun c mem => notEof c (List.mem_cons_of_mem _ mem)
        simp only [List.length_cons] at lengthEq
        have shorter := ih r.length (by omega) r notEofR
        cases kind : classOf ch with
        | endOfFile =>
            exact absurd (CharClass.is_of_eq kind) (notEof ch List.mem_cons_self)
        | newline =>
            cases CharClass.is_of_eq kind
            rcases shorter 0 0 pending rfl with ⟨tok, w, l, l', r', file, string⟩ | next
            · exact .inl (.both (.newline file) (.newline string))
            · exact .inr (.newline next)
        | sign =>
            have isSign : IsSign ch := CharClass.is_of_eq kind
            rcases pending with rfl | pending
            · rcases shorter (k + 1) (k' + 1) (.inr isSign) rfl with
                ⟨tok, w, l, l', r', file, string⟩ | next
              · exact .inl (.both (.sign isSign file) (.sign isSign string))
              · exact .inr (.sign isSign next)
            · exact .inl (.both (.signs pending isSign) (.signs pending isSign))
        | digit =>
            rcases split_at (fun c => !isValidInNumber c) r with
              none | ⟨ds, e, after, rfl, none, found⟩
            · have lexes (k : UInt32) : Lexes (some k) op (ch :: (r ++ [])) _ _ _ _ :=
                .number kind (by simpa using none) (by simp)
              rw [List.append_nil] at lexes
              exact .inl (.both (lexes k) (lexes k'))
            · have lexes (k : UInt32) : Lexes (some k) op (ch :: (ds ++ e :: after)) _ _ _ _ :=
                .number kind (by simpa using none) (by simpa using found)
              exact .inl (.both (lexes k) (lexes k'))
        | delimiter =>
            rcases CharClass.is_of_eq kind with rfl | rfl
            · rcases pending with rfl | pending
              · rcases shorter (k + 1) (k' + 1) (.inl rfl) rfl with
                  ⟨tok, w, l, l', r', file, string⟩ | next
                · exact .inl (.both (.blank file) (.blank string))
                · exact .inr (.blank next)
              · exact .inl (.both (.signBlank pending) (.signBlank pending))
            · rcases pending with rfl | pending
              · exact .inl (.both .close .close)
              · exact .inl (.both (.signClose pending) (.signClose pending))
        | doubleQuote =>
            cases CharClass.is_of_eq kind
            by_cases closed : ∃ body text after, r = body ++ code '"' :: after ∧
                StringBody body text
            · rcases closed with ⟨body, text, after, rfl, isBody⟩
              cases body with
              | nil => exact .inl (.both .emptyString .emptyString)
              | cons c body =>
                  exact .inl (.both (.string isBody (by simp)) (.string isBody (by simp)))
            · exact .inr (.here (.inl (.stringEnd fun body text after equal isBody =>
                closed ⟨body, text, after, equal, isBody⟩)))
        | opening =>
            cases CharClass.is_of_eq kind
            by_cases empty : r.head? = some (code ')')
            · rcases List.head?_eq_some_iff.mp empty with ⟨after, rfl⟩
              exact .inl (.both .nil .nil)
            · exact .inl (.both (.opening empty) (.opening empty))
        | quote => exact .inl (.both (.quote kind) (.quote kind))
        | semicolon =>
            cases CharClass.is_of_eq kind
            rcases split_line r with inside | ⟨line, after, rfl, inside⟩
            · cases r with
              | nil => exact .inr (.here (.inl .commentEmpty))
              | cons c r =>
                  exact .inl (.both (.commentEnded inside (by simp))
                    (.commentEnded inside (by simp)))
            · rcases Column.advance_known k (line.length + 2) with ⟨j, known⟩
              rcases Column.advance_known k' (line.length + 2) with ⟨j', known'⟩
              have shorterLine := ih after.length (by simp at lengthEq; omega) after
                (fun c mem => notEofR c (by simp [mem])) j j' pending rfl
              rcases shorterLine with ⟨tok, w, l, l', r', file, string⟩ | next
              · exact .inl (.both (.comment inside (known.symm ▸ file))
                  (.comment inside (known'.symm ▸ string)))
              · exact .inr (.comment inside known known' next)
        | atom =>
            have plainOr : (ch = code '#' ∧ k = 0 ∧ k' = 0) ∨
                (ch = code '#' ∧ (k = 0 ↔ k' ≠ 0)) ∨ (ch = code '#' → k ≠ 0 ∧ k' ≠ 0) := by
              by_cases hash : ch = code '#'
              · rcases hash_cases k k' with first | one | later
                · exact .inl ⟨hash, first⟩
                · exact .inr (.inl ⟨hash, one⟩)
                · exact .inr (.inr fun _ => later)
              · exact .inr (.inr fun equal => absurd equal hash)
            rcases plainOr with ⟨rfl, rfl, rfl⟩ | ⟨rfl, one⟩ | plain
            · rcases split_line r with inside | ⟨line, after, rfl, inside⟩
              · exact .inr (.here (.inl (.shebangEnd inside)))
              · have shorterLine := ih after.length (by simp at lengthEq; omega) after
                  (fun c mem => notEofR c (by simp [mem])) 0 0 pending rfl
                rcases shorterLine with ⟨tok, w, l, l', r', file, string⟩ | next
                · exact .inl (.both (.shebang inside file) (.shebang inside string))
                · exact .inr (.shebang inside next)
            · by_cases early : k ≠ 0 → op = 0
              · exact .inr (.here (.inl (.hash one early)))
              · have nonzero := Classical.not_imp.mp early
                refine .inr (.here (.inr ⟨nonzero.1, ?_, pending.resolve_left nonzero.2, rfl⟩))
                exact Classical.not_not.mp fun later => nonzero.1 (one.mpr later)
            · rcases pending with rfl | pending
              · rcases split_at endsAtom r with inside | ⟨cs, e, after, rfl, inside, ends⟩
                · exact .inr (.here (.inl (.atomEnd kind plain inside)))
                · exact .inl (.both
                    (.atom kind (fun hash => plain_of_ne_zero (plain hash).1) inside ends)
                    (.atom kind (fun hash => plain_of_ne_zero (plain hash).2) inside ends))
              · exact .inr (.here (.inl (.signAtom pending kind plain)))
        | other =>
            rcases shorter (k + 1) (k' + 1) pending rfl with
              ⟨tok, w, l, l', r', file, string⟩ | next
            · exact .inl (.both (.other kind file) (.other kind string))
            · exact .inr (.other kind next)

namespace Dev

/-- The calls of `akl_lex` on two devices return the same token, with the same C
string in the buffer, and leave the same text to be read. -/
def CallsAlike (x y : Except Fault (Token × Dev)) : Prop :=
  ∃ tok dev dev', x = .ok (tok, dev) ∧ y = .ok (tok, dev') ∧
    (tok ≠ .tEOF → dev.bufferText = dev'.bufferText ∧
      ∃ col col' r, dev.At col r ∧ dev'.At col' r)

/-- All calls of `akl_lex` on two devices up to the first `tEOF` are alike. -/
inductive InStep : Dev → Dev → List (Token × List Chr) → Prop where
  | ended {dev dev' dev₁ dev₁'} (lexEq : dev.aklLex = .ok (.tEOF, dev₁))
      (lexEq' : dev'.aklLex = .ok (.tEOF, dev₁')) : InStep dev dev' []
  | token {dev dev' tok dev₁ dev₁' toks} (lexEq : dev.aklLex = .ok (tok, dev₁))
      (lexEq' : dev'.aklLex = .ok (tok, dev₁')) (notEof : tok ≠ .tEOF)
      (textEq : dev₁.bufferText = dev₁'.bufferText)
      (left : ∃ col col' r, dev₁.At col r ∧ dev₁'.At col' r) (others : InStep dev₁ dev₁' toks) :
      InStep dev dev' ((tok, dev₁.bufferText) :: toks)

variable {dev dev' : Dev} {k k' : UInt32} {r : List Chr} {toks : List (Token × List Chr)}

/-- Devices that are in step yield the same tokens. -/
theorem InStep.tokens (inStep : dev.InStep dev' toks) : dev.Tokens toks ∧ dev'.Tokens toks := by
  induction inStep with
  | ended lexEq lexEq' => exact ⟨.ended lexEq, .ended lexEq'⟩
  | token lexEq lexEq' notEof textEq _ _ ih =>
      refine ⟨.token lexEq notEof ih.1, ?_⟩
      rw [textEq]
      exact .token lexEq' notEof ih.2

theorem InStep.callsAlike (inStep : dev.InStep dev' toks) :
    CallsAlike dev.aklLex dev'.aklLex := by
  cases inStep with
  | ended lexEq lexEq' => exact ⟨_, _, _, lexEq, lexEq', fun notEof => absurd rfl notEof⟩
  | token lexEq lexEq' _ textEq left => exact ⟨_, _, _, lexEq, lexEq', fun _ => ⟨textEq, left⟩⟩

end Dev

open Dev in
/-- A token that both devices take off the text leaves their buffers with the same
C string. -/
theorem LexesBoth.aklLex {dev dev' : Dev} {k k' l l' : UInt32} {r r' : List Chr} {tok : Token}
    {w : Option (List Chr)} (lexes : LexesBoth k k' 0 r tok w l l' r') (notEof : tok ≠ .tEOF)
    (at_ : dev.started.At (some k) r) (at' : dev'.started.At (some k') r)
    (textEq : dev.started.bufferText = dev'.started.bufferText) :
    ∃ dev₁ dev₁', dev.aklLex = .ok (tok, dev₁) ∧ dev'.aklLex = .ok (tok, dev₁') ∧
      dev₁.bufferText = dev₁'.bufferText ∧ dev₁.At (some l) r' ∧ dev₁'.At (some l') r' := by
  rcases at_.aklLex lexes.file with ⟨dev₁, lexEq, delivered⟩
  rcases at'.aklLex lexes.string with ⟨dev₁', lexEq', delivered'⟩
  rcases delivered notEof with ⟨at₁, text₁, same₁⟩
  rcases delivered' notEof with ⟨at₁', text₁', same₁'⟩
  refine ⟨dev₁, dev₁', lexEq, lexEq', ?_, at₁, at₁'⟩
  cases w with
  | none => simpa only [Dev.bufferText, same₁ rfl, same₁' rfl] using textEq
  | some text => rw [(text₁ text rfl).1, (text₁' text rfl).1]

/-- Two devices that are about to read one text, with the same C string in their
buffers, are in step, if no call of `akl_lex` comes to a place where they may
differ. -/
theorem Dev.InStep.of_alike {dev dev' : Dev} {k k' : UInt32} {r : List Chr}
    (at_ : dev.started.At (some k) r) (at' : dev'.started.At (some k') r)
    (notEof : ∀ ch ∈ r, ch ≠ eof) (textEq : dev.started.bufferText = dev'.started.bufferText)
    (alike : ∀ toks l l' r', TokenizesBoth k k' r toks l l' r' →
      ¬ComesTo MayDiffer l l' 0 r') :
    ∃ toks, dev.InStep dev' toks := by
  induction lengthEq : r.length using Nat.strong_induction_on generalizing r dev dev' k k' with
  | _ n ih =>
    rcases LexesBoth.total r notEof k k' (.inl rfl) with ⟨tok, w, l, l', r', lexes⟩ | differs
    · by_cases ended : tok = .tEOF
      · subst ended
        rcases at_.aklLex lexes.file with ⟨dev₁, lexEq, -⟩
        rcases at'.aklLex lexes.string with ⟨dev₁', lexEq', -⟩
        exact ⟨[], .ended lexEq lexEq'⟩
      · rcases lexes.aklLex ended at_ at' textEq with
          ⟨dev₁, dev₁', lexEq, lexEq', textEq₁, at₁, at₁'⟩
        have shorter := lexes.file.length_lt ended
        rcases ih r'.length (lengthEq ▸ shorter) (at₁.started.symm ▸ at₁)
          (at₁'.started.symm ▸ at₁') (fun ch mem => notEof ch (lexes.file.suffix.mem mem))
          (by rw [at₁.started, at₁'.started, textEq₁])
          (fun toks l₂ l₂' r₂ tokenizes => alike _ l₂ l₂' r₂ (.token lexes ended tokenizes)) rfl
          with ⟨toks, inStep⟩
        exact ⟨_, .token lexEq lexEq' ended textEq₁ ⟨_, _, r', at₁, at₁'⟩ inStep⟩
    · exact absurd differs (alike [] k k' r .done)

theorem aklNewFileDevice_at (fresh : Nat → Chr) {text : List Chr}
    (ascii : ∀ ch ∈ text, IsAscii ch) (charCount column : UInt32) (backlog : Token) :
    (aklNewFileDevice fresh text charCount column backlog).started.At (some charCount) text where
  source := ⟨rfl, by simp, ascii⟩
  chars := fun ch mem => (ascii ch mem).isStringChar
  column := by
    rintro k ⟨⟩
    rfl
  room := ⟨_, rfl, by simp⟩
  backlog := rfl

end AkLisp
