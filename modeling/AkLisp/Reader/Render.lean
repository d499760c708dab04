import AkLisp.Lexer.Sound
import AkLisp.Reader.Datum
import Mathlib.Data.Nat.Digits.Lemmas
import Mathlib.Tactic.IntervalCases

/-!
# Reading a rendered data tree

Data trees, their canonical rendering as a text, and what it means that a list
is structurally equal to one.  `akl_str_to_list` of the rendering of a data tree
returns a list that is equal to it.
-/

namespace AkLisp

/-- The characters an atom may start with. -/
def isAtomStart (ch : Chr) : Bool :=
  islower ch || decide (ch ∈ "!$%&*,./<=>?@^_~".toList.map code)

/-- The characters an atom may go on with. -/
def isAtomPart (ch : Chr) : Bool :=
  isAtomStart ch || isdigit ch || decide (ch = code '+' ∨ ch = code '-')

/-- The name of an atom. -/
structure AtomText where
  first : Chr
  others : List Chr
  starts : isAtomStart first = true
  parts : ∀ ch ∈ others, isAtomPart ch = true
  notTrue : first :: others ≠ "t".toList.map code
  notNil : first :: others ≠ "nil".toList.map code

/-- The text of a string. -/
structure StringText where
  text : List Chr
  nonempty : text ≠ []
  chars : ∀ ch ∈ text, IsStringChar ch ∧ ch ≠ code '"' ∧ ch ≠ code '\\'

/-- An integer that is a `double`. -/
structure DoubleInt where
  value : ℤ
  isDouble : ∃ (m : ℤ) (e : ℕ), m.natAbs < 2 ^ 53 ∧ e ≤ 971 ∧ value = m * 2 ^ e

mutual

/-- A data tree; a list is not empty. -/
inductive DataTree where
  | int (n : DoubleInt)
  | true
  | nil
  | atom (name : AtomText)
  | string (text : StringText)
  | list (first : DataTree) (others : DataTrees)

/-- The elements of a list behind the first one. -/
inductive DataTrees where
  | nil
  | cons (t : DataTree) (ts : DataTrees)

end

/-- Decimal digits without leading zeros. -/
def decimalDigits (n : ℕ) : List Chr :=
  if n = 0 then [code '0'] else (Nat.digits 10 n).reverse.map fun d : ℕ => code '0' + (d : ℤ)

/-- An integer in decimal. -/
def decimal (n : ℤ) : List Chr :=
  if n < 0 then code '-' :: decimalDigits n.natAbs else decimalDigits n.natAbs

mutual

/-- The canonical rendering. -/
def DataTree.render : DataTree → List Chr
  | .int n => decimal n.value
  | .true => "T".toList.map code
  | .nil => "NIL".toList.map code
  | .atom name => name.first :: name.others
  | .string text => code '"' :: (text.text ++ [code '"'])
  | .list first others => code '(' :: (first.render ++ (others.render ++ [code ')']))

def DataTrees.render : DataTrees → List Chr
  | .nil => []
  | .cons t ts => code ' ' :: (t.render ++ ts.render)

end

mutual

/-- The value is structurally equal to the tree; symbols are compared by their
interned names, quoting flags are ignored. -/
def DataTree.Equals (d : Data) (v : VRef) : DataTree → Prop
  | .int n => d.payload v = some (.number n.value)
  | .true => d.payload v = some .true
  | .nil => d.payload v = some .nil
  | .atom name => d.payload v = some (.symbol (aklGetOrCreateSymbol (name.first :: name.others)))
  | .string text => d.payload v = some (.string text.text)
  | .list first others => ∃ l as w ws, d.payload v = some (.list l) ∧
      d.Building l as (w :: ws) ∧ first.Equals d w ∧ others.Equals d ws

def DataTrees.Equals (d : Data) : List VRef → DataTrees → Prop
  | vs, .nil => vs = []
  | vs, .cons t ts => ∃ w ws, vs = w :: ws ∧ t.Equals d w ∧ ts.Equals d ws

end

/-- `akl_str_to_list`.  The device is new and is freed at the end. -/
def aklStrToList [Libc] (fuel : Nat) (fresh : Nat → Chr) (column : UInt32) (backlog : Token)
    (s : CompState Unit) (str : List Chr) : Except Fault (Option LRef × CompState Unit) := do
  let dev := aklNewStringDevice fresh str column backlog
  let (tok, st) ← (s.withDev dev).aklLex
  if tok ≠ .tLBRACE ∧ tok ≠ .tQUOTE then return (none, ⟨(), st.data, st.funs, st.errors⟩)
  let (l, st) ← aklParseList fuel st
  return (some l, ⟨(), st.data, st.funs, st.errors⟩)

/-- What is assumed of `strtod` and `sscanf`: they read decimal integers. -/
structure ReadsDecimals [Libc] : Prop where
  strtod : ∀ n : DoubleInt, Libc.strtod (decimal n.value) = n.value
  scanOctal : Libc.scanOctal [code '0'] = 0

mutual

/-- The datum the reader sees. -/
def DataTree.datum : DataTree → Datum
  | .int n => .number (decimal n.value)
  | .true => .true
  | .nil => .nil
  | .atom name => .atom (name.first :: name.others)
  | .string text => .string text.text
  | .list first others => .list (.cons false first.datum others.datums)

def DataTrees.datums : DataTrees → Datums
  | .nil => .nil
  | .cons t ts => .cons false t.datum ts.datums

end

theorem Datums.tokens_ne_nil : ∀ xs : Datums, xs.tokens ≠ []
  | .nil => by simp [Datums.tokens]
  | .cons _ _ xs => by simp [Datums.tokens, xs.tokens_ne_nil]

section Characters

variable {ch : Chr}

theorem atomStart_cases (starts : isAtomStart ch = true) :
    islower ch = true ∨ ch ∈ "!$%&*,./<=>?@^_~".toList.map code := by
  simpa [isAtomStart] using starts

theorem classOf_atomStart (starts : isAtomStart ch = true) : classOf ch = .atom := by
  rcases atomStart_cases starts with lower | mem
  · obtain ⟨above, below⟩ := islower_iff.mp lower
    interval_cases ch <;> decide
  · have all : ∀ c ∈ "!$%&*,./<=>?@^_~".toList.map code, classOf c = .atom := by decide
    exact all ch mem

theorem endsAtom_atomPart (part : isAtomPart ch = true) : endsAtom ch = false := by
  simp only [isAtomPart, Bool.or_eq_true, decide_eq_true_eq] at part
  rcases part with (starts | digit) | plus | minus
  · exact CharClass.is_of_eq (classOf_atomStart starts)
  · obtain ⟨above, below⟩ := isdigit_iff.mp digit
    interval_cases ch <;> decide
  · rw [plus]
    decide
  · rw [minus]
    decide

theorem tolower_atomStart (starts : isAtomStart ch = true) : tolower ch = ch := by
  rcases atomStart_cases starts with lower | mem
  · obtain ⟨above, below⟩ := islower_iff.mp lower
    interval_cases ch <;> decide
  · have all : ∀ c ∈ "!$%&*,./<=>?@^_~".toList.map code, tolower c = c := by decide
    exact all ch mem

theorem tolower_atomPart (part : isAtomPart ch = true) : tolower ch = ch := by
  simp only [isAtomPart, Bool.or_eq_true, decide_eq_true_eq] at part
  rcases part with (starts | digit) | plus | minus
  · exact tolower_atomStart starts
  · obtain ⟨above, below⟩ := isdigit_iff.mp digit
    interval_cases ch <;> decide
  · rw [plus]
    decide
  · rw [minus]
    decide

theorem isStringChar_atomPart (part : isAtomPart ch = true) : IsStringChar ch := by
  have bounds : 0 < ch ∧ ch < 128 := by
    simp only [isAtomPart, Bool.or_eq_true, decide_eq_true_eq] at part
    rcases part with (starts | digit) | plus | minus
    · rcases atomStart_cases starts with lower | mem
      · have := islower_iff.mp lower
        grind
      · have all : ∀ c ∈ "!$%&*,./<=>?@^_~".toList.map code, 0 < c ∧ c < 128 := by decide
        exact all ch mem
    · have := isdigit_iff.mp digit
      grind
    · rw [plus]
      decide
    · rw [minus]
      decide
  exact IsAscii.isStringChar bounds

end Characters

/-- The digits of a number: they are digits, there is one, and the first of
several is not zero. -/
theorem decimalDigits_spec (n : ℕ) :
    (∃ d ds, decimalDigits n = d :: ds ∧ (n ≠ 0 → d ≠ code '0')) ∧
      ∀ ch ∈ decimalDigits n, isdigit ch = true := by
  unfold decimalDigits
  split
  · next zero => exact ⟨⟨_, _, rfl, fun nonzero => absurd zero nonzero⟩, by decide⟩
  · next nonzero =>
      have digits := Nat.digits_ne_nil_iff_ne_zero (b := 10).mpr nonzero
      constructor
      · have splitEq := List.dropLast_append_getLast digits
        refine ⟨code '0' + ((Nat.digits 10 n).getLast digits : ℤ),
          (Nat.digits 10 n).dropLast.reverse.map fun d : ℕ => code '0' + (d : ℤ), ?_, fun _ => ?_⟩
        · conv_lhs => rw [← splitEq]
          rw [List.reverse_append, List.reverse_singleton, List.singleton_append, List.map_cons]
        · have leading := Nat.getLast_digit_ne_zero 10 nonzero
          intro equal
          apply leading
          grind
      · intro ch mem
        obtain ⟨d, inside, rfl⟩ := List.mem_map.mp mem
        have below := Nat.digits_lt_base (by omega) (List.mem_reverse.mp inside)
        rw [isdigit_iff]
        simp only [code]
        grind

theorem classOf_digit {ch : Chr} (digit : isdigit ch = true) : classOf ch = .digit := by
  obtain ⟨above, below⟩ := isdigit_iff.mp digit
  interval_cases ch <;> decide

theorem isValidInNumber_digit {ch : Chr} (digit : isdigit ch = true) :
    isValidInNumber ch = true := by
  rw [isValidInNumber, if_pos digit]

/-- The number the reader makes of a rendered integer. -/
theorem ReadsDecimals.numberOfText_decimal [Libc] (reading : ReadsDecimals) (n : DoubleInt) :
    numberOfText (decimal n.value) = n.value := by
  by_cases zero : n.value = 0
  · have text : decimal n.value = [code '0'] := by rw [zero]; rfl
    have number : numberOfText [code '0'] = Libc.scanOctal [code '0'] := by
      rw [numberOfText, if_pos (by decide)]
    rw [text, number, reading.scanOctal, zero]
    rfl
  · have first : (decimal n.value ++ [0]).getD 0 0 ≠ code '0' := by
      unfold decimal
      split
      · change code '-' ≠ code '0'
        decide
      · obtain ⟨⟨d, ds, equal, nonzero⟩, -⟩ := decimalDigits_spec n.value.natAbs
        rw [equal]
        exact nonzero (by omega)
    rw [numberOfText, if_neg (fun both => first both.1), reading.strtod]

theorem Tokenizes.single {col col' : Column} {r r' : List Chr} {tok : Token}
    {w : Option (List Chr)} (lexes : Lexes col 0 r tok w col' r') (notEof : tok ≠ .tEOF) :
    Tokenizes col r [(tok, w)] col' r' :=
  .token lexes notEof .done

/-- The characters behind an element of a list. -/
def IsDelimiter (ch : Chr) : Prop := ch = code ' ' ∨ ch = code ')'

theorem IsDelimiter.endsAtom {ch : Chr} (delimiter : IsDelimiter ch) : endsAtom ch = true := by
  rcases delimiter with rfl | rfl <;> decide

theorem IsDelimiter.isValidInNumber {ch : Chr} (delimiter : IsDelimiter ch) :
    isValidInNumber ch = false := by
  rcases delimiter with rfl | rfl <;> decide

/-- The token of a rendered integer. -/
theorem tokenizes_decimal (n : ℤ) (col : Column) {ch : Chr} (delimiter : IsDelimiter ch)
    (r : List Chr) :
    ∃ col', Tokenizes col (decimal n ++ ch :: r) [(.tNUMBER, some (decimal n))] col' (ch :: r) := by
  obtain ⟨⟨d, ds, equal, -⟩, digits⟩ := decimalDigits_spec n.natAbs
  rw [equal] at digits
  have digit := digits d List.mem_cons_self
  have lexes (col : Column) (op : Chr) : Lexes col op (d :: (ds ++ ch :: r)) _ _ _ _ := .number
    (classOf_digit digit)
    (fun c mem => isValidInNumber_digit (digits c (List.mem_cons_of_mem _ mem)))
    (by simpa using delimiter.isValidInNumber)
  unfold decimal
  rw [equal]
  split
  · exact ⟨_, .single (.sign (.inr rfl) (lexes col.next (code '-'))) (by decide)⟩
  · exact ⟨_, .single (lexes col 0) (by decide)⟩

/-- The token of an atom. -/
theorem tokenizes_atom (first : Chr) (others : List Chr) (kind : classOf first = .atom)
    (plain : first ≠ code '#') (inside : ∀ c ∈ others, endsAtom c = false) (col : Column) {ch : Chr}
    (delimiter : IsDelimiter ch) (r : List Chr) :
    ∃ col', Tokenizes col (first :: (others ++ ch :: r))
      [(atomToken ((first :: others).map tolower), some ((first :: others).map tolower))] col'
      (ch :: r) := by
  refine ⟨_, .single (.atom kind (fun hash => absurd hash plain) inside delimiter.endsAtom) ?_⟩
  unfold atomToken
  split
  · decide
  · split <;> decide

theorem AtomText.map_tolower (name : AtomText) :
    (name.first :: name.others).map tolower = name.first :: name.others := by
  rw [List.map_cons, tolower_atomStart name.starts]
  congr 1
  rw [List.map_congr_left fun c mem => tolower_atomPart (name.parts c mem), List.map_id']

theorem AtomText.token (name : AtomText) :
    atomToken (name.first :: name.others) = .tATOM := by
  have nilLower : ("NIL".toList.map code).map tolower = "nil".toList.map code := by decide
  have trueLower : ("T".toList.map code).map tolower = "t".toList.map code := by decide
  simp only [atomToken, strcasecmpEq, name.map_tolower, nilLower, trueLower, name.notNil,
    name.notTrue, decide_false, Bool.false_eq_true, if_false]

/-- Without quotes and escapes the text between the quotes is taken as it is. -/
theorem StringBody.of_plain {cs : List Chr} (plain : ∀ c ∈ cs, c ≠ code '\\' ∧ c ≠ code '"') :
    StringBody cs cs := by
  induction cs with
  | nil => exact .nil
  | cons c cs ih =>
      obtain ⟨notEscape, notQuote⟩ := plain c List.mem_cons_self
      exact .plain notEscape notQuote (ih fun c mem => plain c (List.mem_cons_of_mem _ mem))

theorem StringText.body (text : StringText) : StringBody text.text text.text :=
  .of_plain fun c mem => ⟨(text.chars c mem).2.2, (text.chars c mem).2.1⟩

/-- A rendering does not start with a closing parenthesis. -/
theorem DataTree.render_head (t : DataTree) : ∃ c cs, t.render = c :: cs ∧ c ≠ code ')' := by
  cases t with
  | int n =>
      unfold DataTree.render decimal
      split
      · exact ⟨_, _, rfl, by decide⟩
      · obtain ⟨⟨d, ds, equal, -⟩, digits⟩ := decimalDigits_spec n.value.natAbs
        refine ⟨d, ds, equal, ?_⟩
        rintro rfl
        exact absurd (digits _ (equal ▸ List.mem_cons_self)) (by decide)
  | true => exact ⟨_, _, rfl, by decide⟩
  | nil => exact ⟨_, _, rfl, by decide⟩
  | atom name =>
      refine ⟨_, _, rfl, fun close => ?_⟩
      have kind := classOf_atomStart name.starts
      rw [close] at kind
      exact absurd kind (by decide)
  | string text => exact ⟨_, _, rfl, by decide⟩
  | list first others => exact ⟨_, _, rfl, by decide⟩

/-- What follows an element of a list starts with a blank or the closing
parenthesis. -/
theorem DataTrees.render_delimiter (ts : DataTrees) (r : List Chr) :
    ∃ ch r', ts.render ++ code ')' :: r = ch :: r' ∧ IsDelimiter ch := by
  cases ts with
  | nil => exact ⟨_, _, rfl, .inr rfl⟩
  | cons t ts => exact ⟨_, _, rfl, .inl rfl⟩

mutual

/-- The tokens of a rendered tree. -/
theorem DataTree.tokenizes : ∀ (t : DataTree) (col : Column) {ch : Chr}, IsDelimiter ch →
    ∀ r : List Chr, ∃ toks col', Tokenizes col (t.render ++ ch :: r) toks col' (ch :: r) ∧
      toks.map deliveredLexeme = t.datum.tokens
  | .int n, col, _, delimiter, r => by
      obtain ⟨col', tokenizes⟩ := tokenizes_decimal n.value col delimiter r
      exact ⟨_, col', tokenizes, rfl⟩
  | .true, col, _, delimiter, r => by
      obtain ⟨col', tokenizes⟩ :=
        tokenizes_atom (code 'T') [] (by decide) (by decide) (by simp) col delimiter r
      exact ⟨_, col', tokenizes, by decide⟩
  | .nil, col, _, delimiter, r => by
      obtain ⟨col', tokenizes⟩ := tokenizes_atom (code 'N') ("IL".toList.map code) (by decide)
        (by decide) (by decide) col delimiter r
      exact ⟨_, col', tokenizes, by decide⟩
  | .atom name, col, _, delimiter, r => by
      obtain ⟨col', tokenizes⟩ := tokenizes_atom name.first name.others
        (classOf_atomStart name.starts)
        (fun hash => absurd (hash ▸ name.starts) (by decide))
        (fun c mem => endsAtom_atomPart (name.parts c mem)) col delimiter r
      rw [name.map_tolower, name.token] at tokenizes
      exact ⟨_, col', tokenizes, rfl⟩
  | .string text, col, ch, delimiter, r => by
      have lexes : Lexes col 0 (code '"' :: (_ ++ code '"' :: ch :: r)) _ _ _ _ :=
        .string text.body text.nonempty
      refine ⟨[(.tSTRING, some text.text)], col.advance (text.text.length + 2), ?_, rfl⟩
      simpa [DataTree.render] using Tokenizes.single lexes (by decide)
  | .list first others, col, ch, delimiter, r => by
      obtain ⟨c, cs, headEq, notClose⟩ := first.render_head
      obtain ⟨ch', r', followEq, delimiter'⟩ := others.render_delimiter (ch :: r)
      obtain ⟨toks₁, col₁, tokenizes₁, toksEq₁⟩ := first.tokenizes col.next delimiter' r'
      obtain ⟨toks₂, col₂, tokenizes₂, toksEq₂⟩ := others.tokenizes col₁ (ch :: r)
      rw [followEq] at tokenizes₂
      have opening : Lexes col 0 (code '(' :: (first.render ++ ch' :: r')) .tLBRACE none col.next
          (first.render ++ ch' :: r') := .opening (by simp [headEq, notClose])
      refine ⟨(.tLBRACE, none) :: (toks₁ ++ toks₂), col₂, ?_, ?_⟩
      · have whole := Tokenizes.token opening (by decide) (tokenizes₁.append tokenizes₂)
        rw [← followEq] at whole
        simpa [DataTree.render] using whole
      · rw [List.map_cons, List.map_append, toksEq₁, toksEq₂]
        rfl

theorem DataTrees.tokenizes : ∀ (ts : DataTrees) (col : Column) (r : List Chr),
    ∃ toks col', Tokenizes col (ts.render ++ code ')' :: r) toks col' r ∧
      toks.map deliveredLexeme = ts.datums.tokens
  | .nil, col, r => ⟨_, _, .single .close (by decide), rfl⟩
  | .cons t ts, col, r => by
      obtain ⟨ch', r', followEq, delimiter'⟩ := ts.render_delimiter r
      obtain ⟨toks₁, col₁, tokenizes₁, toksEq₁⟩ := t.tokenizes col.next delimiter' r'
      obtain ⟨toks₂, col₂, tokenizes₂, toksEq₂⟩ := ts.tokenizes col₁ r
      rw [followEq] at tokenizes₂
      have nonempty : toks₁ ++ toks₂ ≠ [] := by
        intro empty
        obtain ⟨-, rfl⟩ := List.append_eq_nil_iff.mp empty
        exact ts.datums.tokens_ne_nil toksEq₂.symm
      refine ⟨toks₁ ++ toks₂, col₂, ?_, ?_⟩
      · have whole := (tokenizes₁.append tokenizes₂).blank nonempty
        rw [← followEq] at whole
        simpa [DataTrees.render] using whole
      · rw [List.map_append, toksEq₁, toksEq₂]
        rfl

end

mutual

/-- A rendering is a C string. -/
theorem DataTree.render_chars : ∀ (t : DataTree), ∀ ch ∈ t.render, IsStringChar ch
  | .int n => by
      intro ch mem
      have part : isAtomPart ch = true := by
        have digits := (decimalDigits_spec n.value.natAbs).2
        unfold DataTree.render decimal at mem
        split at mem
        · rcases List.mem_cons.mp mem with rfl | mem
          · decide
          · simp [isAtomPart, digits ch mem]
        · simp [isAtomPart, digits ch mem]
      exact isStringChar_atomPart part
  | .true => by
      have parts : ∀ ch ∈ "T".toList.map code, IsStringChar ch := by
        unfold IsStringChar
        decide
      exact parts
  | .nil => by
      have parts : ∀ ch ∈ "NIL".toList.map code, IsStringChar ch := by
        unfold IsStringChar
        decide
      exact parts
  | .atom name => by
      intro ch mem
      rcases List.mem_cons.mp mem with rfl | mem
      · exact isStringChar_atomPart (by simp [isAtomPart, name.starts])
      · exact isStringChar_atomPart (name.parts ch mem)
  | .string text => by
      have quote : IsStringChar (code '"') := by
        unfold IsStringChar
        decide
      intro ch mem
      simp only [DataTree.render, List.mem_cons, List.mem_append, List.not_mem_nil, or_false] at mem
      rcases mem with rfl | mem | rfl
      · exact quote
      · exact (text.chars ch mem).1
      · exact quote
  | .list first others => by
      have parens : IsStringChar (code '(') ∧ IsStringChar (code ')') := by
        unfold IsStringChar
        decide
      intro ch mem
      simp only [DataTree.render, List.mem_cons, List.mem_append, List.not_mem_nil, or_false] at mem
      rcases mem with rfl | mem | mem | rfl
      · exact parens.1
      · exact first.render_chars ch mem
      · exact others.render_chars ch mem
      · exact parens.2

theorem DataTrees.render_chars : ∀ (ts : DataTrees), ∀ ch ∈ ts.render, IsStringChar ch
  | .nil => by simp [DataTrees.render]
  | .cons t ts => by
      have blank : IsStringChar (code ' ') := by
        unfold IsStringChar
        decide
      intro ch mem
      simp only [DataTrees.render, List.mem_cons, List.mem_append] at mem
      rcases mem with rfl | mem | mem
      · exact blank
      · exact t.render_chars ch mem
      · exact ts.render_chars ch mem

end

section

variable [Libc]

mutual

/-- A value that denotes the datum of a tree is equal to the tree. -/
theorem DataTree.equals_of_denoted (reading : ReadsDecimals) {d : Data} {F : Footprint} :
    ∀ (t : DataTree) {v : VRef}, t.datum.Denoted d F v → t.Equals d v
  | .int n, _, denoted => by
      unfold DataTree.datum Datum.Denoted at denoted
      rw [reading.numberOfText_decimal] at denoted
      exact denoted
  | .true, _, denoted | .nil, _, denoted | .atom _, _, denoted | .string _, _, denoted => denoted
  | .list first others, _, denoted => by
      obtain ⟨l, header, as, vs, payloadEq, -, found, denotes, notNil, -, dataEq, values⟩ := denoted
      obtain ⟨w, ws, rfl, firstDenoted, othersDenoted⟩ := values
      exact ⟨l, as, w, ws, payloadEq, ⟨⟨header, found, denotes, notNil⟩, dataEq⟩,
        first.equals_of_denoted reading firstDenoted,
        others.equals_of_denoted reading othersDenoted⟩

theorem DataTrees.equals_of_denoted (reading : ReadsDecimals) {d : Data} {F : Footprint} :
    ∀ (ts : DataTrees) {vs : List VRef}, ts.datums.Denoted d F vs → ts.Equals d vs
  | .nil, _, denoted => denoted
  | .cons t ts, _, denoted => by
      obtain ⟨w, ws, rfl, firstDenoted, othersDenoted⟩ := denoted
      exact ⟨w, ws, rfl, t.equals_of_denoted reading firstDenoted,
        ts.equals_of_denoted reading othersDenoted⟩

end

/-- The reader inverts the canonical rendering: from the rendering of a data tree
that is a list, `akl_str_to_list` returns a list whose elements are structurally
equal to those of the tree. -/
theorem strToList_render (reading : ReadsDecimals) (first : DataTree) (others : DataTrees)
    (s : CompState Unit) (fresh : Nat → Chr) (column : UInt32) (backlog : Token) {fuel : Nat}
    (enough : (DataTree.list first others).render.length ≤ fuel) :
    ∃ l s' as v vs, aklStrToList fuel fresh column backlog s (DataTree.list first others).render =
        .ok (some l, s') ∧
      s'.data.Building l as (v :: vs) ∧ first.Equals s'.data v ∧ others.Equals s'.data vs := by
  obtain ⟨c, cs, headEq, notClose⟩ := first.render_head
  obtain ⟨ch', r', followEq, delimiter'⟩ := others.render_delimiter []
  obtain ⟨toks₁, col₁, tokenizes₁, toksEq₁⟩ :=
    first.tokenizes (Column.next (some 0)) delimiter' r'
  obtain ⟨toks₂, col₂, tokenizes₂, toksEq₂⟩ := others.tokenizes col₁ []
  rw [followEq] at tokenizes₂
  have inner := tokenizes₁.append tokenizes₂
  have opening : Lexes (some 0) 0 (code '(' :: (first.render ++ ch' :: r')) .tLBRACE none
      (Column.next (some 0)) (first.render ++ ch' :: r') := .opening (by simp [headEq, notClose])
  have renderEq : (DataTree.list first others).render =
      code '(' :: (first.render ++ ch' :: r') := by
    rw [← followEq]
    simp [DataTree.render]
  have fewer := inner.length_le
  obtain ⟨d', as, vs, items⟩ := (Datums.cons false first.datum others.datums).read
    s.data.newList.1 [] [] s.data.newList.2 s.data.building_newList
  have tokensEq : (Datums.cons false first.datum others.datums).tokens =
      (toks₁ ++ toks₂).map deliveredLexeme := by
    rw [List.map_append, toksEq₁, toksEq₂]
    rfl
  have started := aklNewStringDevice_at fresh (DataTree.list first others).render_chars column
    backlog
  rw [renderEq] at started enough
  have ready : textDelivery.Ready (openLexeme ::
      ((Datums.cons false first.datum others.datums).tokens ++ []))
      (aklNewStringDevice fresh (code '(' :: (first.render ++ ch' :: r')) column backlog) :=
    ⟨_, _, _, _, _, started, .token opening (by decide) inner, by
      rw [List.append_nil, tokensEq]
      rfl⟩
  obtain ⟨dev₁, lexEq, lexed⟩ := CompState.aklLex_offers (Delivery.offers ready) s
  obtain ⟨dev₂, loopEq, -⟩ := items.reads.sound fuel (by
    rw [tokensEq, List.length_map]
    simp only [List.length_cons] at enough
    omega) (textDelivery.forget lexed) s
  obtain ⟨v, ws, rfl, firstDenoted, othersDenoted⟩ := items.denoted
  have building := items.building
  rw [List.nil_append, List.nil_append] at building
  refine ⟨s.data.newList.1, s.withData d', as, v, ws, ?_, building,
    first.equals_of_denoted reading firstDenoted, others.equals_of_denoted reading othersDenoted⟩
  have parseEq : aklParseList fuel (s.withDev dev₁) =
      .ok (s.data.newList.1, (s.withData d').withDev dev₂) := loopEq
  rw [renderEq]
  simp only [aklStrToList, lexEq, bind, Except.bind, openLexeme, ne_eq, not_true, false_and,
    if_false, parseEq]
  rfl

end

/-- The value of a sequence of digits. -/
def readDigits (base : ℕ) (text : List Chr) : ℕ :=
  text.foldl (fun value ch => (ch - code '0').toNat + base * value) 0

theorem readDigits_decimalDigits (n : ℕ) : readDigits 10 (decimalDigits n) = n := by
  unfold decimalDigits
  split
  · next zero => rw [zero]; rfl
  · have digitEq (d : ℕ) : (code '0' + (d : ℤ) - code '0').toNat = d := by
      rw [add_sub_cancel_left, Int.toNat_natCast]
    rw [readDigits, List.foldl_map, List.foldl_reverse]
    simp only [digitEq]
    exact (Nat.ofDigits_eq_foldr 10 _).symm.trans (Nat.ofDigits_digits 10 n)

/-- What `strtod` makes of the text of an integer. -/
def readDecimal (text : List Chr) : ℚ :=
  if text.head? = some (code '-') then -(readDigits 10 text.tail : ℚ) else readDigits 10 text

/-- `strtod` and `sscanf` on the texts of integers. -/
abbrev decimalLibc : Libc := ⟨readDecimal, fun text => readDigits 8 text⟩

theorem decimalLibc_reads : @ReadsDecimals decimalLibc := by
  refine @ReadsDecimals.mk decimalLibc ?_ (by decide)
  intro n
  change readDecimal (decimal n.value) = n.value
  unfold readDecimal decimal
  split
  · next negative =>
      rw [if_pos (by rfl), List.tail_cons, readDigits_decimalDigits]
      have valueEq : (n.value.natAbs : ℤ) = -n.value := Int.ofNat_natAbs_of_nonpos (by omega)
      rw [← Int.cast_natCast, valueEq]
      simp
  · next nonnegative =>
      obtain ⟨⟨d, ds, equal, -⟩, digits⟩ := decimalDigits_spec n.value.natAbs
      have notMinus : (decimalDigits n.value.natAbs).head? ≠ some (code '-') := by
        rw [equal]
        intro minus
        rw [equal, Option.some.inj minus] at digits
        exact absurd (digits _ List.mem_cons_self) (by decide)
      have valueEq : (n.value.natAbs : ℤ) = n.value := Int.natAbs_of_nonneg (by omega)
      rw [if_neg notMinus, readDigits_decimalDigits, ← Int.cast_natCast, valueEq]

/-- The list of 7 and `NIL`. -/
theorem strToList_render_seven :
    ∃ l s' as v vs, @aklStrToList decimalLibc 20 (fun _ => 0) 0 .tEOF
        (⟨(), Data.init, [], []⟩ : CompState Unit)
        (DataTree.list (.int ⟨7, 7, 0, by decide, by decide, by decide⟩) (.cons .nil .nil)).render =
          .ok (some l, s') ∧
      s'.data.Building l as (v :: vs) ∧
      (DataTree.int ⟨7, 7, 0, by decide, by decide, by decide⟩).Equals s'.data v ∧
      (DataTrees.cons .nil .nil).Equals s'.data vs :=
  @strToList_render decimalLibc decimalLibc_reads _ _ _ _ _ _ 20 (by decide)

end AkLisp
