import AkLisp.Printer.Format
import Mathlib.Tactic.Linarith

/-!
# Signs and octal numbers

`akl_lex_get_number` takes a text for an octal number when the first character
of the buffer is a zero.  The sign of a number stands in front of its digits in
the buffer, so the same digits are read as octal without a sign and as decimal
behind one.
-/

namespace AkLisp

/-- `akl_lex` and `akl_lex_get_number` on a new device whose string is the text
with a blank behind it. -/
def lexNumberOf [Libc] (fresh : Nat → Chr) (column : UInt32) (backlog : Token)
    (text : List Chr) : Except Fault (Token × ℚ) := do
  let (tok, dev) ← (aklNewStringDevice fresh (text ++ [code ' ']) column backlog).aklLex
  let (text, _) ← dev.takeText
  return (tok, numberOfText text)

/-- An octal digit. -/
def isOctal (ch : Chr) : Bool := decide (code '0' ≤ ch ∧ ch < code '8')

/-- What the C standard says of `strtod` on decimal digits, with or without a
sign, and of `sscanf` with `%o` into an `unsigned int`: the value is rounded, exactly up to
2^53 and never below that for a larger one; the octal number is the one of the
longest prefix of octal digits, as long as it fits. -/
structure ReadsDigits [Libc] (round : ℕ → ℚ) : Prop where
  strtod : ∀ ds, ds ≠ [] → (∀ ch ∈ ds, isdigit ch = true) →
    Libc.strtod ds = round (readDigits 10 ds) ∧
      Libc.strtod (code '+' :: ds) = round (readDigits 10 ds) ∧
        Libc.strtod (code '-' :: ds) = -round (readDigits 10 ds)
  exact : ∀ n ≤ 2 ^ 53, round n = n
  large : ∀ n, 2 ^ 53 ≤ n → 2 ^ 53 ≤ round n
  scanOctal : ∀ ds, (∀ ch ∈ ds, isdigit ch = true) →
    readDigits 8 (ds.takeWhile isOctal) < 2 ^ 32 →
      Libc.scanOctal ds = readDigits 8 (ds.takeWhile isOctal)
  unsigned : ∀ ds, Libc.scanOctal ds < 2 ^ 32

/-- The three texts give a number, the same number and its negative. -/
def SignOnly [Libc] (fresh : Nat → Chr) (column : UInt32) (backlog : Token) (ds : List Chr) :
    Prop :=
  ∃ n, lexNumberOf fresh column backlog ds = .ok (.tNUMBER, n) ∧
    lexNumberOf fresh column backlog (code '+' :: ds) = .ok (.tNUMBER, n) ∧
      lexNumberOf fresh column backlog (code '-' :: ds) = .ok (.tNUMBER, -n)

/-- The octal and the decimal reading agree: there is no zero in front, or behind
the zeros there is at most one digit, an octal one. -/
def OctalIsDecimal (ds : List Chr) : Prop :=
  ds.head? ≠ some (code '0') ∨
    (ds.dropWhile (· = code '0')).length ≤ 1 ∧
      ∀ ch ∈ ds.dropWhile (· = code '0'), isOctal ch = true

/-! ## Octal and decimal values -/

theorem readDigits_cons (base : ℕ) (c : Chr) (cs : List Chr) :
    readDigits base (c :: cs) = (c - code '0').toNat * base ^ cs.length + readDigits base cs := by
  rw [← List.singleton_append, readDigits_append]
  simp [readDigits]

/-- The octal value of a prefix does not exceed the decimal value. -/
theorem octal_le_decimal (ds : List Chr) :
    readDigits 8 (ds.takeWhile isOctal) ≤ readDigits 10 ds := by
  induction ds with
  | nil => exact Nat.le_refl _
  | cons c cs ih =>
      rw [List.takeWhile_cons]
      split
      · rw [readDigits_cons, readDigits_cons]
        have shorter := (List.takeWhile_prefix isOctal (l := cs)).length_le
        have powers : 8 ^ (cs.takeWhile isOctal).length ≤ 10 ^ cs.length :=
          (Nat.pow_le_pow_left (by decide) _).trans (Nat.pow_le_pow_right (by decide) shorter)
        exact Nat.add_le_add (Nat.mul_le_mul_left _ powers) ih
      · exact Nat.zero_le _

/-- Of two digits or more, the first not a zero, it is less. -/
theorem octal_lt_decimal {c : Chr} (c' : Chr) (cs : List Chr) (digit : isdigit c = true)
    (nonzero : c ≠ code '0') :
    readDigits 8 ((c :: c' :: cs).takeWhile isOctal) < readDigits 10 (c :: c' :: cs) := by
  have positive : 0 < (c - code '0').toNat := by
    have bounds := isdigit_iff.mp digit
    simp only [code] at nonzero ⊢
    grind
  rw [List.takeWhile_cons, readDigits_cons 10]
  split
  · rw [readDigits_cons]
    have rest := octal_le_decimal (c' :: cs)
    have powers : 8 ^ ((c' :: cs).takeWhile isOctal).length < 10 ^ (c' :: cs).length := by
      have shorter := (List.takeWhile_prefix isOctal (l := c' :: cs)).length_le
      calc
        8 ^ ((c' :: cs).takeWhile isOctal).length ≤ 8 ^ (c' :: cs).length :=
          Nat.pow_le_pow_right (by decide) shorter
        _ < 10 ^ (c' :: cs).length := Nat.pow_lt_pow_left (by decide) (by simp)
    have first := Nat.mul_lt_mul_of_pos_left powers positive
    omega
  · have whole : 0 < (c - code '0').toNat * 10 ^ (c' :: cs).length :=
      Nat.mul_pos positive (Nat.pow_pos (by decide))
    have none : readDigits 8 [] = 0 := rfl
    omega

/-- Zeros in front do not change a value. -/
theorem readDigits_dropZeros (base : ℕ) (ds : List Chr) :
    readDigits base (ds.dropWhile (· = code '0')) = readDigits base ds := by
  induction ds with
  | nil => rfl
  | cons c cs ih =>
      rw [List.dropWhile_cons]
      split
      · next zero =>
          rw [ih, readDigits_cons, of_decide_eq_true zero]
          simp
      · rfl

/-- Zeros in front do not change the octal prefix. -/
theorem octal_dropZeros (ds : List Chr) :
    readDigits 8 ((ds.dropWhile (· = code '0')).takeWhile isOctal) =
      readDigits 8 (ds.takeWhile isOctal) := by
  induction ds with
  | nil => rfl
  | cons c cs ih =>
      rw [List.dropWhile_cons]
      split
      · next zero =>
          have isZero := of_decide_eq_true zero
          have octal : isOctal c = true := by rw [isZero]; decide
          rw [ih, List.takeWhile_cons, if_pos octal, readDigits_cons, isZero]
          simp
      · rfl

/-- The two values agree exactly when behind the zeros there is at most one digit,
an octal one. -/
theorem octal_eq_decimal_iff {ds : List Chr} (digits : ∀ ch ∈ ds, isdigit ch = true) :
    readDigits 8 (ds.takeWhile isOctal) = readDigits 10 ds ↔
      (ds.dropWhile (· = code '0')).length ≤ 1 ∧
        ∀ ch ∈ ds.dropWhile (· = code '0'), isOctal ch = true := by
  rw [← octal_dropZeros, ← readDigits_dropZeros 10]
  have digits' : ∀ ch ∈ ds.dropWhile (· = code '0'), isdigit ch = true :=
    fun ch mem => digits ch ((List.dropWhile_sublist _).mem mem)
  have first : ∀ c cs, ds.dropWhile (· = code '0') = c :: cs → c ≠ code '0' := by
    intro c cs equal zero
    have head := List.head?_dropWhile_not (fun ch => decide (ch = code '0')) ds
    rw [equal] at head
    simp [zero] at head
  generalize ds.dropWhile (· = code '0') = rest at *
  cases rest with
  | nil => simp [readDigits]
  | cons c cs =>
      have nonzero := first c cs rfl
      have digit := digits' c List.mem_cons_self
      cases cs with
      | nil =>
          cases octal : isOctal c with
          | true => simp [octal, readDigits]
          | false =>
              have positive : 0 < (c - code '0').toNat := by
                have bounds := isdigit_iff.mp digit
                simp only [code] at nonzero ⊢
                grind
              simp [octal, readDigits]
              omega
      | cons c' cs =>
          have less := octal_lt_decimal c' cs digit nonzero
          constructor
          · intro equal
            exact absurd equal (Nat.ne_of_lt less)
          · rintro ⟨short, -⟩
            simp at short

/-- Then the value is a digit. -/
theorem readDigits_lt_eight {ds : List Chr} (short : (ds.dropWhile (· = code '0')).length ≤ 1)
    (octal : ∀ ch ∈ ds.dropWhile (· = code '0'), isOctal ch = true) : readDigits 10 ds < 8 := by
  rw [← readDigits_dropZeros]
  generalize ds.dropWhile (· = code '0') = rest at *
  cases rest with
  | nil => decide
  | cons c cs =>
      obtain rfl : cs = [] := List.length_eq_zero_iff.mp
        (Nat.le_zero.mp (Nat.le_of_succ_le_succ short))
      have bounds := of_decide_eq_true (octal c List.mem_cons_self)
      simp only [readDigits, List.foldl_cons, List.foldl_nil, code] at *
      grind

/-! ## The number of a token -/

section Numbers

variable [Libc] {round : ℕ → ℚ} {ds : List Chr}

/-- Digits with a zero in front are an octal number, others a decimal one. -/
theorem numberOfText_digits (digits : ∀ ch ∈ ds, isdigit ch = true) :
    numberOfText ds =
      if ds.head? = some (code '0') then Libc.scanOctal ds else Libc.strtod ds := by
  cases ds with
  | nil => rfl
  | cons c cs =>
      have second : ((c :: cs) ++ [0]).getD 1 0 ≠ code 'x' ∧
          ((c :: cs) ++ [0]).getD 1 0 ≠ code '.' := by
        cases cs with
        | nil =>
            constructor
            · show (0 : Chr) ≠ code 'x'
              decide
            · show (0 : Chr) ≠ code '.'
              decide
        | cons c' cs =>
            have digit := digits c' (by simp)
            exact ⟨ne_of_isdigit digit (by decide), ne_of_isdigit digit (by decide)⟩
      have head : ((c :: cs) ++ [0]).getD 0 0 = c := rfl
      unfold numberOfText
      dsimp only
      rw [head]
      by_cases zero : c = code '0'
      · have isZero : (c :: cs).head? = some (code '0') := congrArg some zero
        rw [if_pos ⟨zero, second⟩, if_pos isZero]
      · have notZero : (c :: cs).head? ≠ some (code '0') :=
          fun equal => zero (Option.some.inj equal)
        rw [if_neg fun both => zero both.1, if_neg notZero]

/-- Behind a sign they are a decimal number. -/
theorem numberOfText_sign {sign : Chr} (isSign : IsSign sign) :
    numberOfText (sign :: ds) = Libc.strtod (sign :: ds) := by
  have notZero : sign ≠ code '0' := by
    rcases isSign with rfl | rfl
    · decide
    · decide
  exact if_neg fun both => notZero both.1

/-- The octal reading is the decimal one exactly when the values agree. -/
theorem scanOctal_eq_round_iff (reads : ReadsDigits round)
    (digits : ∀ ch ∈ ds, isdigit ch = true) :
    Libc.scanOctal ds = round (readDigits 10 ds) ↔
      readDigits 8 (ds.takeWhile isOctal) = readDigits 10 ds := by
  have le := octal_le_decimal ds
  constructor
  · intro equal
    by_contra differ
    have less := Nat.lt_of_le_of_ne le differ
    have unsigned := reads.unsigned ds
    by_cases fits : readDigits 8 (ds.takeWhile isOctal) < 2 ^ 32
    · have octal := reads.scanOctal ds digits fits
      by_cases small : readDigits 10 ds ≤ 2 ^ 53
      · rw [octal, reads.exact _ small] at equal
        exact differ (by exact_mod_cast equal)
      · have large := reads.large _ (Nat.le_of_not_le small)
        rw [← equal] at large
        linarith
    · by_cases small : readDigits 10 ds ≤ 2 ^ 53
      · rw [equal, reads.exact _ small] at unsigned
        have bound : readDigits 10 ds < 2 ^ 32 := by exact_mod_cast unsigned
        omega
      · have large := reads.large _ (Nat.le_of_not_le small)
        rw [← equal] at large
        linarith
  · intro equal
    obtain ⟨short, octal⟩ := (octal_eq_decimal_iff digits).mp equal
    have small := readDigits_lt_eight short octal
    rw [reads.scanOctal ds digits (by omega), reads.exact _ (by omega), equal]

/-- A number token has the digits and the sign in front of them as its text. -/
theorem lexNumberOf_number (fresh : Nat → Chr) (column : UInt32) (backlog : Token) (op : Chr)
    (signed : op = 0 ∨ IsSign op) (nonempty : ds ≠ []) (digits : ∀ ch ∈ ds, isdigit ch = true) :
    lexNumberOf fresh column backlog (signText op ++ ds) =
      .ok (.tNUMBER, numberOfText (signText op ++ ds)) := by
  have legal : ∀ ch ∈ ds, IsStringChar ch := by
    intro ch mem
    have bounds := isdigit_iff.mp (digits ch mem)
    unfold IsStringChar
    grind
  have chars : ∀ ch ∈ signText op ++ ds ++ [code ' '], IsStringChar ch := by
    intro ch mem
    rcases List.mem_append.mp mem with mem | mem
    · rcases List.mem_append.mp mem with mem | mem
      · unfold signText at mem
        split at mem
        · cases mem
        · next pending =>
            rw [List.mem_singleton.mp mem]
            rcases signed.resolve_left pending with rfl | rfl
            · simp [IsStringChar, code]
            · simp [IsStringChar, code]
      · exact legal ch mem
    · rw [List.mem_singleton.mp mem]
      simp [IsStringChar, code]
  obtain ⟨d, others, rfl⟩ := List.exists_cons_of_ne_nil nonempty
  have number {col : Column} : Lexes col op (d :: (others ++ [code ' '])) .tNUMBER
      (some (signText op ++ d :: others)) (col.advance (others.length + 1)) [code ' '] := by
    apply Lexes.number (classOf_digit (digits d List.mem_cons_self))
    · exact fun ch mem => isValidInNumber_digit (digits ch (List.mem_cons_of_mem d mem))
    · rintro ch ⟨rfl⟩
      decide
  obtain ⟨col, lexes⟩ :
      ∃ col, Lexes (some 0) 0 (signText op ++ (d :: others) ++ [code ' ']) .tNUMBER
      (some (signText op ++ d :: others)) col [code ' '] := by
    rcases signed with rfl | isSign
    · exact ⟨_, number⟩
    · have sign : signText op = [op] := if_neg isSign.ne_zero
      rw [sign]
      rw [sign] at number
      exact ⟨_, .sign isSign number⟩
  obtain ⟨dev, lexEq, delivered⟩ :=
    (aklNewStringDevice_at fresh chars column backlog).aklLex lexes
  obtain ⟨at_, text, -⟩ := delivered (by decide)
  obtain ⟨dev', takeEq, -⟩ := at_.takeText (text _ rfl)
  simp only [lexNumberOf, lexEq, takeEq, bind, Except.bind, pure, Except.pure]

/-- A sign only changes the sign exactly when the octal reading is the decimal
one. -/
theorem sign_only_iff (reads : ReadsDigits round) (fresh : Nat → Chr) (column : UInt32)
    (backlog : Token) (nonempty : ds ≠ []) (digits : ∀ ch ∈ ds, isdigit ch = true) :
    SignOnly fresh column backlog ds ↔ OctalIsDecimal ds := by
  obtain ⟨decimal, positive, negative⟩ := reads.strtod ds nonempty digits
  have plain := lexNumberOf_number fresh column backlog 0 (.inl rfl) nonempty digits
  have plus := lexNumberOf_number fresh column backlog (code '+') (.inr (.inl rfl)) nonempty
    digits
  have minus := lexNumberOf_number fresh column backlog (code '-') (.inr (.inr rfl)) nonempty
    digits
  have plusText : signText (code '+') ++ ds = code '+' :: ds := rfl
  have minusText : signText (code '-') ++ ds = code '-' :: ds := rfl
  have plainText : signText 0 ++ ds = ds := rfl
  rw [plusText, numberOfText_sign (.inl rfl), positive] at plus
  rw [minusText, numberOfText_sign (.inr rfl), negative] at minus
  rw [plainText, numberOfText_digits digits, decimal] at plain
  have agrees : SignOnly fresh column backlog ds ↔
      (if ds.head? = some (code '0') then Libc.scanOctal ds else round (readDigits 10 ds)) =
        round (readDigits 10 ds) := by
    unfold SignOnly
    rw [plain, plus, minus]
    constructor
    · rintro ⟨n, first, second, -⟩
      injection first with first
      injection second with second
      rw [(Prod.mk.inj first).2, (Prod.mk.inj second).2]
    · intro equal
      exact ⟨_, by rw [equal], rfl, rfl⟩
  rw [agrees, OctalIsDecimal]
  by_cases zero : ds.head? = some (code '0')
  · rw [if_pos zero, scanOctal_eq_round_iff reads digits, octal_eq_decimal_iff digits]
    simp [zero]
  · rw [if_neg zero]
    simp [zero]

end Numbers

/-- The value of decimal digits, with or without a sign. -/
def signedDigits : List Chr → ℚ
  | [] => 0
  | ch :: ds =>
      if ch = code '-' then -readDigits 10 ds
      else if ch = code '+' then readDigits 10 ds
      else readDigits 10 (ch :: ds)

/-- `strtod` and `sscanf` on digits. -/
abbrev digitsLibc : Libc :=
  ⟨signedDigits, fun text => (readDigits 8 (text.takeWhile isOctal) % 2 ^ 32 : ℕ)⟩

theorem digitsLibc_reads : @ReadsDigits digitsLibc fun n => n := by
  let libc := digitsLibc
  constructor
  · intro ds nonempty digits
    obtain ⟨d, others, rfl⟩ := List.exists_cons_of_ne_nil nonempty
    have digit := digits d List.mem_cons_self
    have notMinus : d ≠ code '-' := ne_of_isdigit digit (by decide)
    have notPlus : d ≠ code '+' := ne_of_isdigit digit (by decide)
    constructor
    · show signedDigits (d :: others) = _
      rw [signedDigits, if_neg notMinus, if_neg notPlus]
    · exact ⟨rfl, rfl⟩
  · exact fun n _ => rfl
  · intro n large
    exact_mod_cast large
  · intro ds _ fits
    show ((readDigits 8 (ds.takeWhile isOctal) % 2 ^ 32 : ℕ) : ℚ) = _
    rw [Nat.mod_eq_of_lt fits]
  · intro ds
    show ((readDigits 8 (ds.takeWhile isOctal) % 2 ^ 32 : ℕ) : ℚ) < _
    have bound := Nat.mod_lt (readDigits 8 (ds.takeWhile isOctal)) (show 0 < 2 ^ 32 by decide)
    exact_mod_cast bound

/-- The number 17. -/
theorem sign_only_seventeen :
    @SignOnly digitsLibc (fun _ => 0) 0 .tEOF [code '1', code '7'] :=
  (@sign_only_iff digitsLibc _ _ digitsLibc_reads (fun _ => 0) 0 .tEOF (by decide)
    (by decide)).mpr (.inl (by decide))

/-- The text 017 is 15, with a sign it is 17. -/
theorem sign_changes_base :
    ¬ @SignOnly digitsLibc (fun _ => 0) 0 .tEOF [code '0', code '1', code '7'] := by
  rintro ⟨n, first, second, -⟩
  have octal : @lexNumberOf digitsLibc (fun _ => 0) 0 .tEOF [code '0', code '1', code '7'] =
      .ok (.tNUMBER, 15) := by
    rfl
  have decimal : @lexNumberOf digitsLibc (fun _ => 0) 0 .tEOF
      (code '+' :: [code '0', code '1', code '7']) = .ok (.tNUMBER, 17) := by
    rfl
  rw [octal] at first
  rw [decimal] at second
  injection first with first
  injection second with second
  have equal := (Prod.mk.inj first).2.trans (Prod.mk.inj second).2.symm
  exact absurd equal (by decide)

end AkLisp
