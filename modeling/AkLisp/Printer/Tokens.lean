import AkLisp.Lexer.InString
import AkLisp.Printer.Print

/-!
# The tokens of a printed value

A printed tree is read back token by token, if its strings need no escapes and its
symbols have names that a text can start a token with.  Behind a name that is a
single sign the lexer takes the blank, too; so the tokens of an element are given
together with the tokens of what follows.
-/

namespace AkLisp

/-- The number of backslashes at the end. -/
def trailingEscapes (text : List Chr) : Nat := (text.reverse.takeWhile (· = code '\\')).length

/-- A string that is read back as it stands: without quotes, and with an even number
of backslashes at its end. -/
def PlainString (text : List Chr) : Prop := code '"' ∉ text ∧ trailingEscapes text % 2 = 0

theorem trailingEscapes_le (text : List Chr) : trailingEscapes text ≤ text.length := by
  have prefixed := List.takeWhile_prefix (· = code '\\') (l := text.reverse)
  simpa [trailingEscapes] using prefixed.length_le

/-- A backslash in front counts if there is nothing else. -/
theorem trailingEscapes_escape (text : List Chr) :
    trailingEscapes (code '\\' :: text) =
      trailingEscapes text + if trailingEscapes text = text.length then 1 else 0 := by
  unfold trailingEscapes
  rw [List.reverse_cons, List.takeWhile_append, List.length_reverse]
  split
  · next whole =>
      rw [List.length_append, List.length_reverse, whole]
      rfl
  · rfl

/-- Another character in front does not matter. -/
theorem trailingEscapes_other {c : Chr} (other : c ≠ code '\\') (text : List Chr) :
    trailingEscapes (c :: text) = trailingEscapes text := by
  unfold trailingEscapes
  rw [List.reverse_cons, List.takeWhile_append, List.length_reverse]
  split
  · next whole =>
      rw [List.length_append, List.length_reverse, whole]
      simp [other]
  · rfl

theorem plainString_cons_iff {c : Chr} (other : c ≠ code '\\') {text : List Chr} :
    PlainString (c :: text) ↔ c ≠ code '"' ∧ PlainString text := by
  unfold PlainString
  rw [trailingEscapes_other other, List.mem_cons, not_or, and_assoc, ne_comm]

/-- A backslash and the character behind it are an even part of the end. -/
theorem plainString_escape_iff {c : Chr} {text : List Chr} :
    PlainString (code '\\' :: c :: text) ↔ c ≠ code '"' ∧ PlainString text := by
  have parity : trailingEscapes (code '\\' :: c :: text) % 2 = trailingEscapes text % 2 := by
    have bound := trailingEscapes_le text
    rw [trailingEscapes_escape]
    by_cases escape : c = code '\\'
    · subst escape
      rw [trailingEscapes_escape, List.length_cons]
      grind
    · rw [trailingEscapes_other escape, List.length_cons]
      grind
  have notQuote : code '"' ≠ code '\\' := by decide
  unfold PlainString
  rw [parity, List.mem_cons, List.mem_cons, not_or, not_or, ne_comm]
  grind

theorem StringBody.plainString {raw text : List Chr} (body : StringBody raw text)
    (same : raw = text) :
    PlainString text := by
  induction body with
  | nil => exact ⟨List.not_mem_nil, rfl⟩
  | plain notEscape notQuote _ ih =>
      exact (plainString_cons_iff notEscape).mpr ⟨notQuote, ih (List.cons.inj same).2⟩
  | quote => exact absurd (List.cons.inj same).1 (by decide)
  | escape notQuote _ ih =>
      exact plainString_escape_iff.mpr
        ⟨notQuote, ih (List.cons.inj (List.cons.inj same).2).2⟩

/-- These are exactly the strings that `copy_string` leaves as they are. -/
theorem plainString_iff {text : List Chr} : PlainString text ↔ StringBody text text := by
  constructor
  · intro plain
    induction lengthEq : text.length using Nat.strong_induction_on generalizing text with
    | _ n ih =>
      cases text with
      | nil => exact .nil
      | cons c cs =>
          simp only [List.length_cons] at lengthEq
          by_cases escape : c = code '\\'
          · subst escape
            cases cs with
            | nil => exact absurd plain.2 (by decide)
            | cons d rest =>
                obtain ⟨notQuote, others⟩ := plainString_escape_iff.mp plain
                simp only [List.length_cons] at lengthEq
                exact .escape notQuote (ih rest.length (by omega) others rfl)
          · obtain ⟨notQuote, others⟩ := (plainString_cons_iff escape).mp plain
            exact .plain escape notQuote (ih cs.length (by omega) others rfl)
  · exact fun body => body.plainString rfl

/-- The name of a symbol that is read back behind a colon in a string. -/
inductive ReadableName : List Chr → Prop where
  | word {ch cs} (kind : classOf ch = .atom) (inside : ∀ c ∈ cs, endsAtom c = false)
      (notNil : ch :: cs ≠ "nil".toList.map code) (notTrue : ch :: cs ≠ "t".toList.map code) :
      ReadableName (ch :: cs)
  | signed {op ch cs} (isSign : IsSign op) (kind : classOf ch = .atom)
      (inside : ∀ c ∈ cs, endsAtom c = false) : ReadableName (op :: ch :: cs)
  | signs {op} (isSign : IsSign op) : ReadableName [op, op]

/-- The column behind some characters of a text. -/
def place (p : Nat) : Column := some (UInt32.ofNat p)

theorem place_next (p : Nat) : (place p).next = place (p + 1) := by
  simp [place, Column.next, UInt32.ofNat_add]

theorem place_advance (p n : Nat) : (place p).advance n = place (p + n) := by
  induction n generalizing p with
  | zero => rfl
  | succ n ih => rw [Column.advance_succ, place_next, ih, Nat.add_assoc, Nat.add_comm 1]

/-- Behind a character of a short text the column is not that of a shebang. -/
theorem place_plain {p : Nat} (positive : 0 < p) (short : p < 2 ^ 32) :
    ∃ k, place p = some k ∧ k + 1 ≠ 1 := by
  refine ⟨_, rfl, fun equal => ?_⟩
  have zero : UInt32.ofNat p = 0 := by simpa using equal
  have := congrArg UInt32.toNat zero
  simp at this
  omega

section Leaves

variable {r : List Chr}

/-- What `%g` writes is a number. -/
theorem lexes_formatG (x : ℚ) (p : Nat) (ends : ∀ e ∈ r.head?, IsDelimiter e) :
    StringLexes (place p) (formatG x ++ r) .tNUMBER (some (formatG x))
      (place (p + (formatG x).length)) r := by
  obtain ⟨d, ds, textEq, digit, inside⟩ := (numeralG x).isNumberText
  have lexes (q : Nat) (op : Chr) : Lexes (place q) op (d :: (ds ++ r)) .tNUMBER
      (some (signText op ++ d :: ds)) ((place q).advance (ds.length + 1)) r :=
    .number (classOf_digit digit) (fun ch mem => (inside ch mem).1)
      (fun e mem => (ends e mem).isValidInNumber)
  unfold formatG Numeral.text
  rw [textEq]
  unfold Numeral.signText
  split
  · have signed := lexes (p + 1) (code '-')
    rw [← place_next] at signed
    have whole := Lexes.sign (.inr rfl) signed
    rw [place_next, place_advance] at whole
    apply StringLexes.common
    have nonzero : code '-' ≠ 0 := by decide
    simpa [signText, nonzero, Nat.add_assoc, Nat.add_comm 1] using whole
  · have whole := lexes p 0
    rw [place_advance] at whole
    apply StringLexes.common
    simpa [signText] using whole

/-- A string between its quotes. -/
theorem lexes_plainString (text : CString) (plain : PlainString text.text) (p : Nat) :
    StringLexes (place p) (code '"' :: (text.text ++ [code '"']) ++ r) .tSTRING (some text.text)
      (place (p + (code '"' :: (text.text ++ [code '"'])).length)) r := by
  have lexes : Lexes (place p) 0 (code '"' :: (text.text ++ code '"' :: r)) _ _ _ _ :=
    .string (plainString_iff.mp plain) text.nonempty
  rw [place_advance] at lexes
  apply StringLexes.common
  simpa using lexes

/-- A word in the text. -/
theorem lexes_word {ch : Chr} {cs : List Chr} (kind : classOf ch = .atom)
    (inside : ∀ c ∈ cs, endsAtom c = false) {p : Nat}
    (plain : ch = code '#' → 0 < p ∧ p < 2 ^ 32) (ends : ∀ e ∈ r.head?, IsDelimiter e) :
    StringLexes (place p) (ch :: cs ++ r) (atomToken ((ch :: cs).map tolower))
      (some ((ch :: cs).map tolower)) (place (p + (cs.length + 1))) r := by
  rw [← place_advance]
  exact .atom kind (fun hash => place_plain (plain hash).1 (plain hash).2) inside
    (fun e mem => (ends e mem).endsAtom)

theorem atomToken_of_ne {name : List Chr} (folded : name.map tolower = name)
    (notNil : name ≠ "nil".toList.map code) (notTrue : name ≠ "t".toList.map code) :
    atomToken name = .tATOM := by
  have nilLower : ("NIL".toList.map code).map tolower = "nil".toList.map code := by decide
  have trueLower : ("T".toList.map code).map tolower = "t".toList.map code := by decide
  simp only [atomToken, strcasecmpEq, folded, nilLower, trueLower, notNil, notTrue, decide_false,
    Bool.false_eq_true, if_false]

/-- A readable name in the text, behind the colon. -/
theorem ReadableName.lexes {name : List Chr} (readable : ReadableName name)
    (folded : name.map tolower = name) {p : Nat} (positive : 0 < p)
    (short : p + name.length < 2 ^ 32) (ends : ∀ e ∈ r.head?, IsDelimiter e) :
    StringLexes (place p) (name ++ r) .tATOM (some name) (place (p + name.length)) r := by
  cases readable with
  | word kind inside notNil notTrue =>
      have lexes := lexes_word kind inside (fun _ => ⟨positive, by omega⟩) ends
      rw [folded, atomToken_of_ne folded notNil notTrue] at lexes
      exact lexes
  | @signed op ch cs isSign kind inside =>
      have notWord (c : Chr) (cs' : List Chr) (other : classOf c ≠ .sign) :
          op :: ch :: cs ≠ c :: cs' :=
        fun equal => other ((List.cons.inj equal).1 ▸ isSign.classOf)
      simp only [List.length_cons] at short
      have lexes : StringLexes (place p) (op :: ch :: cs ++ r) _ _ _ _ := .signedAtom isSign kind
        (fun _ => by rw [place_next]; exact place_plain (by omega) (by omega)) inside
        (fun e mem => (ends e mem).endsAtom)
      rw [folded, atomToken_of_ne folded (notWord _ _ (by decide)) (notWord _ _ (by decide)),
        place_advance] at lexes
      exact lexes
  | @signs op isSign =>
      have lexes : Lexes (place p) 0 (op :: op :: r) _ _ _ _ := .sign isSign (.signs isSign isSign)
      rw [place_next, place_next] at lexes
      exact .common lexes

end Leaves

/-- A name that is a single sign. -/
def IsBareSign (name : List Chr) : Prop := ∃ op, IsSign op ∧ name = [op]

/-- The tree is a symbol whose name is a single sign. -/
def Printable.BareSign : Printable → Prop
  | .symbol sym _ => IsBareSign sym.sbName
  | _ => False

mutual

/-- The strings of the tree need no escapes, and its symbols have names the lexer
reads behind a colon. -/
def Printable.Readable : Printable → Prop
  | .number _ => True
  | .string text => PlainString text.text
  | .symbol sym _ => ReadableName sym.sbName ∨ IsBareSign sym.sbName
  | .true => True
  | .nil => True
  | .list _ first others => first.Readable ∧ others.Readable

def Printables.Readable : Printables → Prop
  | .nil => True
  | .cons t ts => t.Readable ∧ ts.Readable

end

/-- Whether the rendering starts with a quote. -/
def Printable.mark : Printable → Bool
  | .symbol _ _ => Bool.true
  | .list isQuoted _ _ => isQuoted
  | _ => false

mutual

/-- The datum the reader sees behind the quote. -/
def Printable.datum : Printable → Datum
  | .number n => .number (formatG n.value)
  | .string text => .string text.text
  | .symbol sym _ => .atom sym.sbName
  | .true => .true
  | .nil => .nil
  | .list _ first others => .list (.cons first.mark first.datum others.datums)

def Printables.datums : Printables → Datums
  | .nil => .nil
  | .cons t ts => .cons t.mark t.datum ts.datums

end

/-- The tokens of a tree with its quote. -/
def Printable.tokens (t : Printable) : List Lexeme := quoteMark t.mark ++ t.datum.tokens

/-- The blank between two elements. -/
def gapText (gap : Bool) : List Chr := if gap then [code ' '] else []

/-- What follows a printed tree: a blank and further tokens, a closing parenthesis,
or nothing. -/
structure Follows (q : Nat) (gap : Bool) (r : List Chr)
    (toks : List (Token × Option (List Chr))) (col' : Column) (r' : List Chr) : Prop where
  tokenizes : StringTokenizes (place (q + (gapText gap).length)) r toks col' r'
  nonempty : gap = true → toks ≠ []
  ends : gap = false → ∀ e ∈ r.head?, e = code ')'

namespace Follows

variable {q : Nat} {gap : Bool} {r r' : List Chr} {toks : List (Token × Option (List Chr))}
  {col' : Column}

theorem delimiter (follows : Follows q gap r toks col' r') :
    ∀ e ∈ (gapText gap ++ r).head?, IsDelimiter e := by
  cases gap with
  | false => exact fun e mem => .inr (follows.ends rfl e mem)
  | true =>
      rintro e ⟨⟩
      exact .inl rfl

/-- The tokens behind the tree, with the blank in front of them. -/
theorem behind (follows : Follows q gap r toks col' r') :
    StringTokenizes (place q) (gapText gap ++ r) toks col' r' := by
  have tokenizes := follows.tokenizes
  cases gap with
  | false => exact tokenizes
  | true =>
      refine StringTokenizes.blank ?_ (follows.nonempty rfl)
      rw [place_next]
      exact tokenizes

/-- A token that ends where the rest starts. -/
theorem token (follows : Follows q gap r toks col' r') {p : Nat} {text : List Chr} {tok : Token}
    {w : Option (List Chr)} (placeEq : p + text.length = q) (notEof : tok ≠ .tEOF)
    (lexes : StringLexes (place p) (text ++ (gapText gap ++ r)) tok w (place (p + text.length))
      (gapText gap ++ r)) :
    StringTokenizes (place p) (text ++ (gapText gap ++ r)) ([(tok, w)] ++ toks) col' r' := by
  rw [placeEq] at lexes
  exact .token lexes notEof follows.behind

end Follows

/-- In front of anything that may follow, the rendering has the tokens of the tree. -/
def Printable.Delivers (t : Printable) : Prop :=
  ∀ (p : Nat) (gap : Bool) (r : List Chr) (toks : List (Token × Option (List Chr)))
    (col' : Column) (r' : List Chr), p + t.render.length < 2 ^ 32 →
    Follows (p + t.render.length) gap r toks col' r' → (t.BareSign → gap = Bool.true ∨ r ≠ []) →
    ∃ own, StringTokenizes (place p) (t.render ++ (gapText gap ++ r)) (own ++ toks) col' r' ∧
      own.map deliveredLexeme = t.tokens

/-- The quote in front of a symbol or of a list. -/
theorem lexes_quote {ch : Chr} (kind : classOf ch = .quote) (p : Nat) (r : List Chr) :
    StringLexes (place p) (ch :: r) .tQUOTE none (place (p + 1)) r := by
  have lexes : Lexes (place p) 0 (ch :: r) _ _ _ _ := .quote kind
  rw [place_next] at lexes
  exact .common lexes

/-- A symbol whose name is a single sign: the lexer takes a blank behind it. -/
theorem delivers_bareSign {op : Chr} (isSign : IsSign op) {p : Nat} {gap : Bool} {r : List Chr}
    {toks : List (Token × Option (List Chr))} {col' : Column} {r' : List Chr}
    (follows : Follows (p + 1) gap r toks col' r') (more : gap = true ∨ r ≠ []) :
    StringTokenizes (place p) (op :: (gapText gap ++ r)) ((.tATOM, some [op]) :: toks) col' r' := by
  have tokenizes := follows.tokenizes
  cases gap with
  | true =>
      have lexes : Lexes (place p) 0 (op :: code ' ' :: r) _ _ _ _ :=
        .sign isSign (.signBlank isSign)
      rw [place_next, place_next] at lexes
      exact .token (.common lexes) (by decide) tokenizes
  | false =>
      cases r with
      | nil => simp at more
      | cons e r =>
          obtain rfl : e = code ')' := follows.ends rfl e rfl
          have lexes : Lexes (place p) 0 (op :: code ')' :: r) _ _ _ _ :=
            .sign isSign (.signClose isSign)
          rw [place_next] at lexes
          exact .token (.common lexes) (by decide) tokenizes

theorem Printable.delivers_number (n : ExactInt) : (Printable.number n).Delivers := by
  intro p gap r toks col' r' _ follows _
  exact ⟨_, follows.token rfl (by decide) (lexes_formatG _ p follows.delimiter), rfl⟩

theorem Printable.delivers_string (text : CString) (plain : PlainString text.text) :
    (Printable.string text).Delivers := by
  intro p gap r toks col' r' _ follows _
  exact ⟨_, follows.token rfl (by decide) (lexes_plainString text plain p), rfl⟩

theorem Printable.delivers_true : Printable.true.Delivers := by
  intro p gap r toks col' r' _ follows _
  have lexes := lexes_word (show classOf (code 'T') = .atom by decide)
    (show ∀ c ∈ [], endsAtom c = false by simp) (p := p)
    (fun hash => absurd hash (by decide)) follows.delimiter
  exact ⟨_, follows.token rfl (by decide) lexes, by decide⟩

theorem Printable.delivers_nil : Printable.nil.Delivers := by
  intro p gap r toks col' r' _ follows _
  have lexes := lexes_word (show classOf (code 'N') = .atom by decide)
    (show ∀ c ∈ "IL".toList.map code, endsAtom c = false by decide) (p := p)
    (fun hash => absurd hash (by decide)) follows.delimiter
  exact ⟨_, follows.token rfl (by decide) lexes, by decide⟩

theorem Printable.delivers_symbol (sym : Symbol) (chars : ∀ ch ∈ sym.sbName, IsStringChar ch)
    (readable : ReadableName sym.sbName ∨ IsBareSign sym.sbName) :
    (Printable.symbol sym chars).Delivers := by
  intro p gap r toks col' r' short follows more
  simp only [Printable.render, List.length_cons] at short follows
  have colon (rest : List Chr) := lexes_quote (show classOf (code ':') = .quote by decide) p rest
  have followsEq : p + (sym.sbName.length + 1) = p + 1 + sym.sbName.length := by omega
  rcases readable with readable | ⟨op, isSign, nameEq⟩
  · refine ⟨[(.tQUOTE, none), (.tATOM, some sym.sbName)], ?_, rfl⟩
    rw [followsEq] at follows
    have lexes := readable.lexes sym.folded (r := gapText gap ++ r) (p := p + 1) (by omega)
      (by omega) follows.delimiter
    exact .token (colon _) (by decide) (follows.token rfl (by decide) lexes)
  · refine ⟨[(.tQUOTE, none), (.tATOM, some sym.sbName)], ?_, rfl⟩
    rw [Printable.render, nameEq]
    rw [nameEq] at follows
    exact .token (colon _) (by decide) (delivers_bareSign isSign follows
      (more ⟨op, isSign, nameEq⟩))

end AkLisp
