import AkLisp.Printer.Tokens

/-!
# Printed values read back

What `akl_print_value` writes for a value is read by `akl_parse_value` as an equal
value, except that a number comes back rounded to the six significant digits that
are printed.
-/

namespace AkLisp

open Linked

/-- A rendering does not start with a closing parenthesis. -/
theorem Printable.render_head (t : Printable) (r : List Chr) :
    (t.render ++ r).head? ≠ some (code ')') := by
  cases t with
  | number n =>
      obtain ⟨d, ds, textEq, digit, -⟩ := (numeralG n.value).isNumberText
      have notDigit : isdigit (code ')') = false := by decide
      unfold Printable.render formatG Numeral.text Numeral.signText
      rw [textEq]
      split
      · exact fun equal => absurd (Option.some.inj equal) (by decide)
      · exact fun equal => ne_of_isdigit digit notDigit (Option.some.inj equal)
  | string text => exact fun equal => absurd (Option.some.inj equal) (by decide)
  | symbol sym chars => exact fun equal => absurd (Option.some.inj equal) (by decide)
  | true => exact fun equal => absurd (Option.some.inj equal) (by decide)
  | nil => exact fun equal => absurd (Option.some.inj equal) (by decide)
  | list isQuoted first others =>
      cases isQuoted with
      | false => exact fun equal => absurd (Option.some.inj equal) (by decide)
      | true => exact fun equal => absurd (Option.some.inj equal) (by decide)

/-- The elements of a list with the closing parenthesis, the first one being known
to be delivered. -/
def Printables.DeliversBehind (ts : Printables) : Prop :=
  ∀ (t : Printable), t.Delivers → ∀ (p : Nat) (r : List Chr)
    (toks : List (Token × Option (List Chr))) (col' : Column) (r' : List Chr),
    p + (t.render ++ ts.render).length + 1 < 2 ^ 32 →
    StringTokenizes (place (p + (t.render ++ ts.render).length + 1)) r toks col' r' →
    ∃ own, StringTokenizes (place p) (t.render ++ (ts.render ++ code ')' :: r)) (own ++ toks)
        col' r' ∧ own.map deliveredLexeme = t.tokens ++ ts.datums.tokens

theorem Printables.deliversBehind_nil : Printables.nil.DeliversBehind := by
  intro t first p r toks col' r' short rest
  simp only [Printables.render, List.append_nil] at short rest
  have close : Lexes (place (p + t.render.length)) 0 (code ')' :: r) _ _ _ _ := .close
  rw [place_next] at close
  have follows : Follows (p + t.render.length) false (code ')' :: r) ((.tRBRACE, none) :: toks)
      col' r' :=
    ⟨.token (.common close) (by decide) rest, by simp, by simp⟩
  obtain ⟨own, tokenizes, ownEq⟩ := first p _ _ _ _ _ (by omega) follows (by simp)
  refine ⟨own ++ [(.tRBRACE, none)], ?_, ?_⟩
  · simpa [gapText, Printables.render] using tokenizes
  · rw [List.map_append, ownEq]
    rfl

theorem Printables.deliversBehind_cons {t' : Printable} {ts : Printables} (second : t'.Delivers)
    (others : ts.DeliversBehind) : (Printables.cons t' ts).DeliversBehind := by
  intro t first p r toks col' r' short rest
  simp only [Printables.render, List.length_append, List.length_cons] at short rest
  have restEq : p + (t.render.length + (t'.render.length + ts.render.length + 1)) + 1 =
      p + t.render.length + 1 + (t'.render ++ ts.render).length + 1 := by
    rw [List.length_append]
    omega
  rw [restEq] at short rest
  obtain ⟨own', tokenizes', ownEq'⟩ := others t' second _ _ _ _ _ short rest
  have nonempty : own' ≠ [] := by
    rintro rfl
    rw [List.map_nil] at ownEq'
    exact ts.datums.tokens_ne_nil (List.append_eq_nil_iff.mp ownEq'.symm).2
  have follows : Follows (p + t.render.length) true
      (t'.render ++ (ts.render ++ code ')' :: r)) (own' ++ toks) col' r' :=
    ⟨tokenizes', by simp [nonempty], by simp⟩
  obtain ⟨own, tokenizes, ownEq⟩ := first p _ _ _ _ _ (by omega) follows (by simp)
  refine ⟨own ++ own', ?_, ?_⟩
  · simpa [gapText, Printables.render] using tokenizes
  · rw [List.map_append, ownEq, ownEq']
    simp [Printable.tokens, Printables.datums, Datums.tokens]

theorem Printable.delivers_list (isQuoted : Bool) {first : Printable} {others : Printables}
    (firstDelivers : first.Delivers) (behind : others.DeliversBehind) :
    (Printable.list isQuoted first others).Delivers := by
  intro p gap r toks col' r' short follows _
  -- the list behind its quote, at any place
  have body (q : Nat) (here : q + (first.render ++ others.render).length + 2 =
      p + (Printable.list isQuoted first others).render.length) :
      ∃ own, StringTokenizes (place q)
          (code '(' :: (first.render ++ (others.render ++ code ')' :: (gapText gap ++ r))))
          (own ++ toks) col' r' ∧
        own.map deliveredLexeme = (Printable.list isQuoted first others).datum.tokens := by
    have placeEq : q + (first.render ++ others.render).length + 2 =
        q + 1 + (first.render ++ others.render).length + 1 := by omega
    have rest := follows.behind
    rw [← here, placeEq] at rest
    obtain ⟨own, tokenizes, ownEq⟩ :=
      behind first firstDelivers (q + 1) _ _ _ _ (by omega) rest
    have opening : Lexes (place q) 0
        (code '(' :: (first.render ++ (others.render ++ code ')' :: (gapText gap ++ r)))) _ _ _ _ :=
      .opening (first.render_head _)
    rw [place_next] at opening
    refine ⟨(.tLBRACE, none) :: own, .token (.common opening) (by decide) tokenizes, ?_⟩
    rw [List.map_cons, ownEq]
    simp [Printable.tokens, Printable.datum, Datum.tokens, Datums.tokens, deliveredLexeme,
      openLexeme, Token.hasText]
  cases isQuoted with
  | false =>
      obtain ⟨own, tokenizes, ownEq⟩ := body p (by simp [Printable.render]; omega)
      refine ⟨own, ?_, ownEq⟩
      simpa [Printable.render] using tokenizes
  | true =>
      obtain ⟨own, tokenizes, ownEq⟩ := body (p + 1) (by simp [Printable.render]; omega)
      refine ⟨(.tQUOTE, none) :: own, ?_, ?_⟩
      · have quote := lexes_quote (show classOf (code '\'') = .quote by decide) p
          (code '(' :: (first.render ++ (others.render ++ code ')' :: (gapText gap ++ r))))
        simpa [Printable.render] using StringTokenizes.token quote (by decide) tokenizes
      · rw [List.map_cons, ownEq]
        rfl

mutual

/-- A readable tree is delivered token by token. -/
theorem Printable.Readable.delivers : ∀ {t : Printable}, t.Readable → t.Delivers
  | .number n, _ => Printable.delivers_number n
  | .string text, readable => Printable.delivers_string text readable
  | .symbol sym chars, readable => Printable.delivers_symbol sym chars readable
  | .true, _ => Printable.delivers_true
  | .nil, _ => Printable.delivers_nil
  | .list isQuoted _ _, readable =>
      Printable.delivers_list isQuoted readable.1.delivers readable.2.deliversBehind

theorem Printables.Readable.deliversBehind : ∀ {ts : Printables}, ts.Readable → ts.DeliversBehind
  | .nil, _ => Printables.deliversBehind_nil
  | .cons _ _, readable =>
      Printables.deliversBehind_cons readable.1.delivers readable.2.deliversBehind

end

mutual

/-- The value is equal to the tree, quoting flags apart, when the numbers are taken
as `number` says. -/
def Printable.EqualsBy (number : ℤ → ℚ) (d : Data) (v : VRef) : Printable → Prop
  | .number n => d.payload v = some (.number (number n.value))
  | .string text => d.payload v = some (.string text.text)
  | .symbol sym _ => d.payload v = some (.symbol sym)
  | .true => d.payload v = some .true
  | .nil => d.payload v = some .nil
  | .list _ first others => ∃ l as w ws, d.payload v = some (.list l) ∧
      d.Building l as (w :: ws) ∧ first.EqualsBy number d w ∧ others.EqualsBy number d ws

def Printables.EqualsBy (number : ℤ → ℚ) (d : Data) : List VRef → Printables → Prop
  | vs, .nil => vs = []
  | vs, .cons t ts => ∃ w ws, vs = w :: ws ∧ t.EqualsBy number d w ∧ ts.EqualsBy number d ws

end

/-- The value is structurally equal to the tree. -/
def Printable.Equals (t : Printable) (d : Data) (v : VRef) : Prop :=
  t.EqualsBy (fun n => (n : ℚ)) d v

mutual

/-- Every number of the tree has at most six significant digits. -/
def Printable.SixDigits : Printable → Prop
  | .number n => HasSixDigits n.value
  | .list _ first others => first.SixDigits ∧ others.SixDigits
  | _ => True

def Printables.SixDigits : Printables → Prop
  | .nil => True
  | .cons t ts => t.SixDigits ∧ ts.SixDigits

end

section

variable {d : Data}

/-- A list has one sequence of elements. -/
theorem Data.Building.unique {l : LRef} {as bs : List Addr} {vs ws : List VRef}
    (first : d.Building l as vs) (second : d.Building l bs ws) : vs = ws := by
  obtain ⟨header, found, denotes, -⟩ := first.header
  obtain ⟨header', found', denotes', -⟩ := second.header
  cases found.symm.trans found'
  have same : as = bs := denotes.unique denotes'
  have valuesEq := first.data.symm.trans (same ▸ second.data)
  exact List.map_injective_iff.mpr (Option.some_injective _) valuesEq

mutual

/-- A value that comes back rounded is equal if nothing was rounded. -/
theorem Printable.equals_iff_sixDigits : ∀ (t : Printable) {v : VRef},
    t.EqualsBy (fun n => sixSignificant n) d v →
      (t.EqualsBy (fun n => (n : ℚ)) d v ↔ t.SixDigits)
  | .number n, v, equals => by
      have rounded : d.payload v = some (.number (sixSignificant n.value)) := equals
      simp only [Printable.EqualsBy, Printable.SixDigits, rounded, Option.some.injEq,
        Payload.number.injEq]
      exact sixSignificant_eq_iff n.value
  | .string _, _, equals | .symbol _ _, _, equals | .true, _, equals | .nil, _, equals =>
      ⟨fun _ => trivial, fun _ => equals⟩
  | .list _ first others, v, equals => by
      obtain ⟨l, as, w, ws, payloadEq, building, firstEquals, othersEquals⟩ := equals
      have firstIff := first.equals_iff_sixDigits firstEquals
      have othersIff := others.equals_iff_sixDigits othersEquals
      constructor
      · rintro ⟨l', as', w', ws', payloadEq', building', firstSame, othersSame⟩
        cases payloadEq.symm.trans payloadEq'
        cases building.unique building'
        exact ⟨firstIff.mp firstSame, othersIff.mp othersSame⟩
      · rintro ⟨firstSix, othersSix⟩
        exact ⟨l, as, w, ws, payloadEq, building, firstIff.mpr firstSix, othersIff.mpr othersSix⟩

theorem Printables.equals_iff_sixDigits : ∀ (ts : Printables) {vs : List VRef},
    ts.EqualsBy (fun n => sixSignificant n) d vs →
      (ts.EqualsBy (fun n => (n : ℚ)) d vs ↔ ts.SixDigits)
  | .nil, _, equals => ⟨fun _ => trivial, fun _ => equals⟩
  | .cons t ts, vs, equals => by
      obtain ⟨w, ws, rfl, firstEquals, othersEquals⟩ := equals
      have firstIff := t.equals_iff_sixDigits firstEquals
      have othersIff := ts.equals_iff_sixDigits othersEquals
      constructor
      · rintro ⟨w', ws', equal, firstSame, othersSame⟩
        cases equal
        exact ⟨firstIff.mp firstSame, othersIff.mp othersSame⟩
      · rintro ⟨firstSix, othersSix⟩
        exact ⟨w, ws, rfl, firstIff.mpr firstSix, othersIff.mpr othersSix⟩

end

end

theorem aklGetOrCreateSymbol_sbName (sym : Symbol) : aklGetOrCreateSymbol sym.sbName = sym := by
  cases sym
  simp_all [aklGetOrCreateSymbol]

mutual

/-- A rendering is a C string. -/
theorem Printable.render_chars : ∀ (t : Printable), ∀ ch ∈ t.render, IsStringChar ch
  | .number n => by
      obtain ⟨d, ds, textEq, digit, inside⟩ := (numeralG n.value).isNumberText
      have minus : IsStringChar (code '-') := (isNumberChar_of_mem (by decide)).2
      intro ch mem
      unfold Printable.render formatG Numeral.text Numeral.signText at mem
      rw [textEq] at mem
      split at mem
      · simp only [List.cons_append, List.nil_append, List.mem_cons] at mem
        rcases mem with rfl | rfl | mem
        · exact minus
        · exact (isNumberChar_digit digit).2
        · exact (inside ch mem).2
      · simp only [List.nil_append, List.mem_cons] at mem
        rcases mem with rfl | mem
        · exact (isNumberChar_digit digit).2
        · exact (inside ch mem).2
  | .string text => by
      have quote : IsStringChar (code '"') := by
        unfold IsStringChar
        decide
      intro ch mem
      simp only [Printable.render, List.mem_cons, List.mem_append, List.not_mem_nil,
        or_false] at mem
      rcases mem with rfl | mem | rfl
      · exact quote
      · exact text.chars ch mem
      · exact quote
  | .symbol sym chars => by
      intro ch mem
      rcases List.mem_cons.mp mem with rfl | mem
      · unfold IsStringChar
        decide
      · exact chars ch mem
  | .true => by
      have chars : ∀ ch ∈ "T".toList.map code, IsStringChar ch := by
        unfold IsStringChar
        decide
      exact chars
  | .nil => by
      have chars : ∀ ch ∈ nilText, IsStringChar ch := by
        unfold IsStringChar
        decide
      exact chars
  | .list isQuoted first others => by
      have quote : IsStringChar (code '\'') := by
        unfold IsStringChar
        decide
      have parens : IsStringChar (code '(') ∧ IsStringChar (code ')') := by
        unfold IsStringChar
        decide
      intro ch mem
      simp only [Printable.render, List.mem_append, List.mem_cons, List.not_mem_nil,
        or_false] at mem
      rcases mem with mem | rfl | mem | mem | rfl
      · split at mem
        · exact List.mem_singleton.mp mem ▸ quote
        · cases mem
      · exact parens.1
      · exact first.render_chars ch mem
      · exact others.render_chars ch mem
      · exact parens.2

theorem Printables.render_chars : ∀ (ts : Printables), ∀ ch ∈ ts.render, IsStringChar ch
  | .nil => by simp [Printables.render]
  | .cons t ts => by
      have blank : IsStringChar (code ' ') := by
        unfold IsStringChar
        decide
      intro ch mem
      simp only [Printables.render, List.mem_cons, List.mem_append] at mem
      rcases mem with rfl | mem | mem
      · exact blank
      · exact t.render_chars ch mem
      · exact ts.render_chars ch mem

end

/-- The first token of a datum is not a quote. -/
theorem Datum.tokens_cons (x : Datum) : ∃ l ls, x.tokens = l :: ls ∧ l.tok ≠ .tQUOTE := by
  cases x <;> exact ⟨_, _, rfl, Token.noConfusion⟩

section

variable [Libc]

mutual

/-- A value that denotes the datum of a printed tree is the tree with its numbers
rounded. -/
theorem Printable.equals_of_denoted (reading : ReadsNumerals) {d : Data} {F : Footprint} :
    ∀ (t : Printable) {v : VRef}, t.datum.Denoted d F v →
      t.EqualsBy (fun n => sixSignificant n) d v
  | .number n, _, denoted => by
      unfold Printable.datum Datum.Denoted at denoted
      rw [reading.numberOfText_formatG n.below] at denoted
      exact denoted
  | .symbol sym _, _, denoted => by
      unfold Printable.datum Datum.Denoted at denoted
      rw [aklGetOrCreateSymbol_sbName] at denoted
      exact denoted
  | .string _, _, denoted | .true, _, denoted | .nil, _, denoted => denoted
  | .list _ first others, _, denoted => by
      obtain ⟨l, header, as, vs, payloadEq, -, found, denotes, notNil, -, dataEq, values⟩ := denoted
      obtain ⟨w, ws, rfl, firstDenoted, othersDenoted⟩ := values
      exact ⟨l, as, w, ws, payloadEq, ⟨⟨header, found, denotes, notNil⟩, dataEq⟩,
        first.equals_of_denoted reading firstDenoted,
        others.equals_of_denoted reading othersDenoted⟩

theorem Printables.equals_of_denoted (reading : ReadsNumerals) {d : Data} {F : Footprint} :
    ∀ (ts : Printables) {vs : List VRef}, ts.datums.Denoted d F vs →
      ts.EqualsBy (fun n => sixSignificant n) d vs
  | .nil, _, denoted => denoted
  | .cons t ts, _, denoted => by
      obtain ⟨w, ws, rfl, firstDenoted, othersDenoted⟩ := denoted
      exact ⟨w, ws, rfl, t.equals_of_denoted reading firstDenoted,
        ts.equals_of_denoted reading othersDenoted⟩

end

/-- `akl_parse_value` on the rendering of a readable tree. -/
theorem Printable.Readable.read (reading : ReadsNumerals) {t : Printable} (readable : t.Readable)
    (notBare : ¬t.BareSign) (short : t.render.length < 2 ^ 32) (s : CompState Unit)
    (fresh : Nat → Chr) (column : UInt32) (backlog : Token) {fuel : Nat}
    (enough : t.render.length ≤ fuel) :
    ∃ w d' dev', aklParseValue (aklParseList fuel)
        (s.withDev (aklNewStringDevice fresh t.render column backlog)) =
          .ok (some w, (s.withData d').withDev dev') ∧
      t.EqualsBy (fun n => sixSignificant n) d' w := by
  have follows : Follows (0 + t.render.length) false [] [] (place (0 + t.render.length)) [] :=
    ⟨.done, by simp, by simp⟩
  obtain ⟨own, tokenizes, ownEq⟩ :=
    readable.delivers 0 _ _ _ _ _ (by omega) follows fun bare => absurd bare notBare
  simp only [gapText, Bool.false_eq_true, if_false, List.append_nil] at tokenizes
  have few := tokenizes.length_le
  have started := aklNewStringDevice_at fresh t.render_chars column backlog
  have ready : stringDelivery.Ready t.tokens (aklNewStringDevice fresh t.render column backlog) :=
    ⟨_, _, own, _, _, ⟨started, _, 0, rfl⟩, tokenizes, ownEq⟩
  obtain ⟨l, ls, tokensEq, notQuote⟩ := t.datum.tokens_cons
  have lengthEq : own.length = (quoteMark t.mark).length + (ls.length + 1) := by
    have := congrArg List.length ownEq
    simpa [Printable.tokens, tokensEq] using this
  rw [Printable.tokens, tokensEq] at ready
  obtain ⟨dev₁, markEq, lexed⟩ := aklParseValue_mark (quoteMark_mark t.mark) ready notQuote
    (aklParseList fuel) s
  obtain ⟨w, d', built⟩ := t.datum.read t.mark s.data
  have reads := built.reads
  rw [tokensEq] at reads
  rw [← List.append_nil ls] at lexed
  obtain ⟨dev', tokenEq, -⟩ := reads.sound (show ls.length ≤ fuel by omega) lexed
  exact ⟨w, d', dev', markEq.trans tokenEq, t.equals_of_denoted reading built.denoted⟩

/-- Printed values read back: what `akl_print_value` writes for a value with readable
strings and names is read by `akl_parse_value` as this value with its numbers
rounded to six significant digits, which is an equal one exactly if the numbers
have no more digits. -/
theorem print_parse (reading : ReadsNumerals) {t : Printable} (readable : t.Readable)
    (notBare : ¬t.BareSign) (short : t.render.length < 2 ^ 32) {d : Data} {v : VRef}
    (stored : t.Stored d v) (s : CompState Unit) (fresh : Nat → Chr) (column : UInt32)
    (backlog : Token) {fuel : Nat} (enough : t.render.length ≤ fuel) :
    ∃ text, aklPrintValue fuel d (some v) = .ok text ∧
      ∃ w d' dev', aklParseValue (aklParseList fuel)
          (s.withDev (aklNewStringDevice fresh text column backlog)) =
            .ok (some w, (s.withData d').withDev dev') ∧
        t.EqualsBy (fun n => sixSignificant n) d' w ∧ (t.Equals d' w ↔ t.SixDigits) := by
  obtain ⟨w, d', dev', parseEq, equals⟩ :=
    readable.read reading notBare short s fresh column backlog enough
  exact ⟨t.render, stored.print short enough, w, d', dev', parseEq, equals,
    t.equals_iff_sixDigits equals⟩

end

/-- The symbol `x`. -/
def symbolX : Symbol := ⟨[code 'x'], by decide⟩

/-- The list `(120 '("ab" :x) NIL T)`. -/
def mixedTree : Printable :=
  .list false (.number ⟨120, by decide⟩)
    (.cons (.list true (.string ⟨[code 'a', code 'b'], by simp, by simp [IsStringChar, code]⟩)
        (.cons (.symbol symbolX (by simp [symbolX, IsStringChar, code])) .nil))
      (.cons .nil (.cons .true .nil)))

/-- The values of the list, before they are put into it. -/
def mixedValues : Data :=
  { Data.init with
    values := Data.init.values ++
      [⟨.number 120, false, false⟩, ⟨.string [code 'a', code 'b'], false, false⟩,
        ⟨.symbol symbolX, true, false⟩, ⟨.list 1, true, false⟩, ⟨.list 0, false, false⟩]
    lists := [aklInitList, { aklInitList with isQuoted := true }] }

/-- The list in memory. -/
def mixedData : Data :=
  [(1, 3), (1, 4), (0, 2), (0, 5), (0, 0), (0, 1)].foldl
    (fun d entry => d.listAppendValue entry.1 entry.2) mixedValues

theorem mixedTree_stored : mixedTree.Stored mixedData 6 := by
  have inner : mixedData.Building 1 [0, 1] [3, 4] :=
    ⟨⟨_, rfl, ⟨by decide, by simp [mixedData, Data.listAppendValue],
      ⟨rfl, rfl, rfl, rfl, trivial⟩, rfl, rfl, rfl⟩, rfl⟩, rfl⟩
  have outer : mixedData.Building 0 [2, 3, 4, 5] [2, 5, 0, 1] :=
    ⟨⟨_, rfl, ⟨by decide, by simp [mixedData, Data.listAppendValue],
      ⟨rfl, rfl, rfl, rfl, rfl, rfl, rfl, rfl, trivial⟩, rfl, rfl, rfl⟩, rfl⟩, rfl⟩
  exact ⟨false, 0, _, 2, _, rfl, outer, rfl, ⟨false, rfl⟩, 5, _, rfl,
    ⟨true, 1, _, 3, _, rfl, inner, rfl, ⟨false, rfl⟩, 4, _, rfl, rfl, rfl⟩,
    0, _, rfl, ⟨_, rfl⟩, 1, _, rfl, ⟨_, rfl⟩, rfl⟩

theorem mixedTree_readable : mixedTree.Readable :=
  ⟨trivial, ⟨⟨by decide, by decide⟩, Or.inl (.word (by decide) (by simp) (by decide) (by decide)),
    trivial⟩, trivial, trivial, trivial⟩

/-- The list `(120 '("ab" :x) NIL T)` reads back as it is. -/
theorem print_parse_mixed :
    aklPrintValue 22 mixedData (some 6) = .ok ("(120 '(\"ab\" :x) NIL T)".toList.map code) ∧
      ∃ w d' dev', @aklParseValue Dev _ numeralLibc (@aklParseList Dev _ numeralLibc 22)
          ((⟨(), Data.init, [], []⟩ : CompState Unit).withDev (aklNewStringDevice (fun _ => 0)
            ("(120 '(\"ab\" :x) NIL T)".toList.map code) 0 .tEOF)) =
          .ok (some w, ((⟨(), Data.init, [], []⟩ : CompState Unit).withData d').withDev dev') ∧
        mixedTree.Equals d' w := by
  have rendered : mixedTree.render = "(120 '(\"ab\" :x) NIL T)".toList.map code := by
    decide +kernel
  have printed : aklPrintValue 22 mixedData (some 6) =
      .ok ("(120 '(\"ab\" :x) NIL T)".toList.map code) := by
    rw [← rendered]
    exact mixedTree_stored.print (by rw [rendered]; decide) (by rw [rendered]; decide)
  have six : mixedTree.SixDigits :=
    ⟨⟨120, 0, by decide, by decide⟩, ⟨trivial, trivial, trivial⟩, trivial, trivial, trivial⟩
  rcases @print_parse numeralLibc numeralLibc_reads mixedTree mixedTree_readable id
      (by rw [rendered]; decide) _ _ mixedTree_stored ⟨(), Data.init, [], []⟩ (fun _ => 0) 0 .tEOF
      22 (by rw [rendered]; decide) with ⟨text, textEq, w, d', dev', parsed, -, equals⟩
  rw [printed] at textEq
  cases textEq
  exact ⟨printed, w, d', dev', parsed, equals.mpr six⟩

/-- A state with a single value besides the static ones. -/
def numberData (n : ℤ) : Data := (Data.init.newValue ⟨.number n, false, false⟩).2

theorem not_hasSixDigits : ¬HasSixDigits 1234567 := by
  rintro ⟨k, j, bound, equal⟩
  cases j with
  | zero => omega
  | succ j =>
      have divides : (10 : ℤ) ∣ 1234567 := ⟨k * 10 ^ j, by rw [equal, pow_succ]; ring⟩
      exact absurd divides (by decide)

/-- The number 1234567 comes back as another one. -/
theorem print_parse_lossy :
    ∃ text, aklPrintValue 20 (numberData 1234567) (some 2) = .ok text ∧
      ∃ w d' dev', @aklParseValue Dev _ numeralLibc (@aklParseList Dev _ numeralLibc 20)
          ((⟨(), Data.init, [], []⟩ : CompState Unit).withDev
            (aklNewStringDevice (fun _ => 0) text 0 .tEOF)) =
          .ok (some w, ((⟨(), Data.init, [], []⟩ : CompState Unit).withData d').withDev dev') ∧
        ¬(Printable.number ⟨1234567, by decide⟩).Equals d' w := by
  have stored : (Printable.number ⟨1234567, by decide⟩).Stored (numberData 1234567) 2 :=
    ⟨false, rfl⟩
  have few : (Printable.number ⟨1234567, by decide⟩).render.length ≤ 20 := by decide +kernel
  have short : (Printable.number ⟨1234567, by decide⟩).render.length < 2 ^ 32 :=
    lt_of_le_of_lt few (by norm_num)
  have readable : (Printable.number ⟨1234567, by decide⟩).Readable := trivial
  obtain ⟨w, d', dev', parseEq, equals⟩ := @Printable.Readable.read numeralLibc
    numeralLibc_reads _ readable id short ⟨(), Data.init, [], []⟩ (fun _ => 0) 0 .tEOF 20 few
  refine ⟨_, stored.print short few, w, d', dev', parseEq, ?_⟩
  exact fun same => not_hasSixDigits ((Printable.equals_iff_sixDigits _ equals).mp same)

end AkLisp
