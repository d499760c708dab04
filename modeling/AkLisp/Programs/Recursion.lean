import AkLisp.Programs.Calculator
import Mathlib.Data.Nat.Factorial.Basic
import Mathlib.Data.Nat.Fib.Basic

/-!
# Recursive programs

The functions of `fact.lsp` and `fib-fn.lsp`, which call themselves.  What they return
follows from their bodies by induction on the argument, and a session that meets the
definition and a call leaves it on the stack.
-/

namespace AkLisp

open Evaluation Image

/-- `fact`: `(if (<= n 1) 1 (* n (fact (-- n))))`. -/
def factBody : Form :=
  .sif (.callOf "<=" [.name (chars "n"), .int 1])
    (.int 1)
    (.callOf "*" [.name (chars "n"), .callOf "fact" [.callOf "--" [.name (chars "n")]]])

/-- `fib`: `(if (<= n 1) 1 (+ (fib (- n 2)) (fib (-- n))))`. -/
def fibBody : Form :=
  .sif (.callOf "<=" [.name (chars "n"), .int 1])
    (.int 1)
    (.callOf "+" [.callOf "fib" [.callOf "-" [.name (chars "n"), .int 2]],
      .callOf "fib" [.callOf "--" [.name (chars "n")]]])

/-- The definition of a function of `n`, and a call of it. -/
def definedAndCalled (name : String) (body : Form) (z : ℤ) : List Form :=
  [.defun (chars name) [chars "n"] body, .callOf name [.int z]]

section

variable [Libc] [Doubles] {I : Image} {address : Symbol → Int} {rounds : Nat}

omit [Doubles] in
/-- From a state on the expression comes to an integer, in a function of `n` with this
argument. -/
def Image.ComesTo (I : Image) (d₀ : Data) (n : VRef) (pos : Position) (e : Form) (z : ℤ) : Prop :=
  ∀ d, d₀ ≤ d → I.Meets [symbolOf "n"] [n] pos e d fun v d' => d'.IsNumber v z

section Rules

variable {d₀ : Data} {n : VRef} {pos : Position} {a b : Form} {i j k : ℤ} {name : String}

omit [Doubles] in
theorem comesTo_int (reading : ReadsDecimals) (start : I.data ≤ d₀) (small : |k| ≤ 2 ^ 53) :
    I.ComesTo d₀ n pos (.int k) k := by
  intro d later
  apply meets_number (start.trans later)
  rw [numberOfText_decimal reading small]
  exact fun v number => number

omit [Doubles] in
theorem comesTo_n (number : d₀.IsNumber n k) : I.ComesTo d₀ n .arg (.name (chars "n")) k :=
  fun _ later => meets_param rfl rfl (number.later later)

omit [Doubles] in
/-- A C function of one number. -/
theorem comesTo_unary (start : I.data ≤ d₀) {fn : CallState → VRef × CallState}
    (has : I.Has name (.ofTotal fn)) (arg : I.ComesTo d₀ n .arg a i)
    (computes : ∀ d v, d.IsNumber v i → Rounded.Computes fn d [v] k) :
    I.ComesTo d₀ n pos (.callOf name [a]) k := by
  intro d later
  apply has.call (start.trans later)
  apply meetsAll_cons
  apply (arg d later).imp
  intro v d₁ later₁ number
  apply meetsAll_nil
  intro fn callee
  exact (computes d₁ v number).total callee (by simp) (Data.newValue_payload_self d₁ _)

omit [Doubles] in
/-- A C function of two numbers. -/
theorem comesTo_binary (start : I.data ≤ d₀) {fn : CallState → VRef × CallState}
    (has : I.Has name (.ofTotal fn)) (first : I.ComesTo d₀ n .arg a i)
    (second : I.ComesTo d₀ n .arg b j)
    (computes : ∀ d v w, d.IsNumber v i → d.IsNumber w j → Rounded.Computes fn d [v, w] k) :
    I.ComesTo d₀ n pos (.callOf name [a, b]) k := by
  intro d later
  apply has.call (start.trans later)
  apply meetsAll_cons
  apply (first d later).imp
  intro v d₁ later₁ number
  apply meetsAll_cons
  apply (second d₁ (later.trans later₁)).imp
  intro w d₂ later₂ number'
  apply meetsAll_nil
  intro fn callee
  exact (computes d₂ v w (number.later later₂) number').total callee (by simp)
    (Data.newValue_payload_self d₂ _)

omit [Doubles] in
/-- A function of the source, of which it is known what it returns for the integer. -/
theorem comesTo_call (start : I.data ≤ d₀) {fn : FRef} (named : I.names (symbolOf name) = some fn)
    (arg : I.ComesTo d₀ n .arg a i)
    (returns : ∀ d v, d₀ ≤ d → d.IsNumber v i →
      Total (I.program.apply fn [v]) d fun w d' => d'.IsNumber w k) :
    I.ComesTo d₀ n pos (.callOf name [a]) k := by
  intro d later
  apply meets_call (start.trans later) named
  apply meetsAll_cons
  apply (arg d later).imp
  intro v d₁ later₁ number
  apply meetsAll_nil
  exact returns d₁ v (later.trans later₁) number

/-- `(if (<= n 1) a b)` -/
theorem comesTo_if (calculates : I.Calculates address rounds) (start : I.data ≤ d₀)
    (number : d₀.IsNumber n i) (small : |i| ≤ 2 ^ 53)
    (atMostOne : i ≤ 1 → I.ComesTo d₀ n .next a k) (above : 1 < i → I.ComesTo d₀ n .next b k) :
    I.ComesTo d₀ n pos (.sif (.callOf "<=" [.name (chars "n"), .int 1]) a b) k := by
  intro d later
  have hasLteq := calculates.has ("<=", .ofLocal (aklFnLteq address (rounds + 1)))
    (by simp [calledFunctions])
  apply meets_sif
  apply hasLteq.call (start.trans later)
  apply meetsAll_cons
  apply (comesTo_n number d later).imp
  intro v d₁ later₁ number₁
  apply meetsAll_cons
  apply (comesTo_int calculates.reading start (by decide) d₁ (later.trans later₁)).imp
  intro w d₂ later₂ one
  apply meetsAll_nil
  intro fn callee
  have long : IsLong i := by
    rw [abs_le] at small
    exact ⟨by omega, by omega⟩
  apply total_compare .lteq callee (number₁.later later₂) one long (by decide)
  have later' := (later.trans later₁).trans later₂
  have statics := calculates.statics.later (start.trans later')
  by_cases le : i ≤ 1
  · have holds : CompareFn.lteq.test (compareNumbers i 1) = true := by
      simp [CompareFn.test, compareNumbers_nonpos, le]
    simp only [holds, if_true, statics.isNil_true]
    exact atMostOne le d₂ later'
  · have fails : CompareFn.lteq.test (compareNumbers i 1) = false := by
      simp [CompareFn.test, compareNumbers_nonpos, le]
    simp only [fails, Bool.false_eq_true, if_false, statics.isNil_nil, if_true]
    exact above (not_le.mp le) d₂ later'

end Rules

/-- What a function returns for an integer, as long as both have at most 53 bits. -/
def Image.ReturnsAt (I : Image) (fn : FRef) (i k : ℤ) : Prop :=
  |i| ≤ 2 ^ 53 → |k| ≤ 2 ^ 53 → ∀ d v, I.data ≤ d → d.IsNumber v i →
    Total (I.program.apply fn [v]) d fun w d' => d'.IsNumber w k

omit [Doubles] in
/-- A function that calls itself with smaller integers. -/
theorem returnsAt_recursion {fn : FRef} {body : Form} (known : I.Known fn [symbolOf "n"] body)
    {result : ℤ → ℤ}
    (step : ∀ i, |i| ≤ 2 ^ 53 → |result i| ≤ 2 ^ 53 →
      (∀ j, j.toNat < i.toNat → I.ReturnsAt fn j (result j)) →
      ∀ d n, I.data ≤ d → d.IsNumber n i → I.ComesTo d n .next body (result i)) (i : ℤ) :
    I.ReturnsAt fn i (result i) := by
  have whole : ∀ (call : VRef × ℤ) (d : Data), (I.data ≤ d ∧ d.IsNumber call.1 call.2 ∧
      |call.2| ≤ 2 ^ 53 ∧ |result call.2| ≤ 2 ^ 53) →
      Total (I.program.apply fn [call.1]) d fun w d' => d'.IsNumber w (result call.2) := by
    apply Total.recursion fun call : VRef × ℤ => call.2.toNat
    rintro ⟨n, i⟩ recursive d ⟨start, number, small, smallResult⟩
    apply total_known known rfl (by simp)
    apply step i small smallResult _ d n start number d le_rfl
    intro j smaller smallJ smallResultJ d' w start' number'
    exact recursive (w, j) smaller d' ⟨start', number', smallJ, smallResultJ⟩
  intro small smallResult d v start number
  exact whole (v, i) d ⟨start, number, small, smallResult⟩

/-- `fact` returns the factorial. -/
theorem fact_returnsAt (calculates : I.Calculates address rounds) {fn : FRef}
    (named : I.names (symbolOf "fact") = some fn) (known : I.Known fn [symbolOf "n"] factBody) :
    ∀ i, I.ReturnsAt fn i i.toNat.factorial := by
  apply returnsAt_recursion known
  intro i small smallResult recursive d n start number
  have mul : I.Has "*" (.ofTotal Rounded.aklFnMul) := 
    calculates.has ("*", .ofTotal Rounded.aklFnMul) (by simp [calledFunctions])
  have dec : I.Has "--" (.ofTotal Rounded.aklFnDec) :=
    calculates.has ("--", .ofTotal Rounded.aklFnDec) (by simp [calledFunctions])
  have intN : I.ComesTo d n .arg (.name (chars "n")) i := comesTo_n number
  rw [abs_le] at small
  apply comesTo_if calculates start number (by rwa [abs_le])
  · intro le
    have one : i.toNat.factorial = 1 := by
      have few : i.toNat ≤ 1 := by omega
      interval_cases i.toNat <;> rfl
    rw [one]
    exact comesTo_int calculates.reading start (by decide)
  · intro above
    have smaller : i.toNat = (i - 1).toNat + 1 := by omega
    have product : (i.toNat.factorial : ℤ) = i * (i - 1).toNat.factorial := by
      rw [smaller, Nat.factorial_succ]
      push_cast
      rw [Int.toNat_of_nonneg (by omega)]
      ring
    have smallBefore : |((i - 1).toNat.factorial : ℤ)| ≤ 2 ^ 53 := by
      rw [abs_le] at smallResult ⊢
      have le := Nat.factorial_le (show (i - 1).toNat ≤ i.toNat by omega)
      omega
    have smallArg : |i - 1| ≤ 2 ^ 53 := by rw [abs_le]; omega
    rw [product] at smallResult ⊢
    apply comesTo_binary start mul intN
    · apply comesTo_call start named
      · exact comesTo_unary start dec intN fun d v number => Rounded.dec_int number smallArg
      · intro d' v later
        exact recursive (i - 1) (by omega) smallArg smallBefore d' v (start.trans later)
    · intro d' v w first second
      exact Rounded.mul_ints first second smallBefore smallResult

/-- `fib` returns the Fibonacci number. -/
theorem fib_returnsAt (calculates : I.Calculates address rounds) {fn : FRef}
    (named : I.names (symbolOf "fib") = some fn) (known : I.Known fn [symbolOf "n"] fibBody) :
    ∀ i, I.ReturnsAt fn i (Nat.fib (i.toNat + 1)) := by
  apply returnsAt_recursion known
  intro i small smallResult recursive d n start number
  have plus : I.Has "+" (.ofTotal Rounded.aklFnPlus) :=
    calculates.has ("+", .ofTotal Rounded.aklFnPlus) (by simp [calledFunctions])
  have minus : I.Has "-" (.ofTotal Rounded.aklFnMinus) :=
    calculates.has ("-", .ofTotal Rounded.aklFnMinus) (by simp [calledFunctions])
  have dec : I.Has "--" (.ofTotal Rounded.aklFnDec) :=
    calculates.has ("--", .ofTotal Rounded.aklFnDec) (by simp [calledFunctions])
  have intN : I.ComesTo d n .arg (.name (chars "n")) i := comesTo_n number
  rw [abs_le] at small
  apply comesTo_if calculates start number (by rwa [abs_le])
  · intro le
    have one : Nat.fib (i.toNat + 1) = 1 := by
      have few : i.toNat ≤ 1 := by omega
      interval_cases i.toNat <;> rfl
    rw [one]
    exact comesTo_int calculates.reading start (by decide)
  · intro above
    have steps : i.toNat = (i - 2).toNat + 2 ∧ (i - 1).toNat = (i - 2).toNat + 1 := by omega
    have sum : (Nat.fib (i.toNat + 1) : ℤ) =
        Nat.fib ((i - 2).toNat + 1) + Nat.fib ((i - 1).toNat + 1) := by
      rw [steps.1, steps.2, Nat.fib_add_two]
      push_cast
      rfl
    have smallBefore (k : ℕ) (le : k ≤ i.toNat) : |(Nat.fib (k + 1) : ℤ)| ≤ 2 ^ 53 := by
      rw [abs_le] at smallResult ⊢
      have le := Nat.fib_mono (show k + 1 ≤ i.toNat + 1 by omega)
      omega
    have smallTwo : |i - 2| ≤ 2 ^ 53 := by rw [abs_le]; omega
    have smallOne : |i - 1| ≤ 2 ^ 53 := by rw [abs_le]; omega
    rw [sum] at smallResult ⊢
    apply comesTo_binary start plus
    · apply comesTo_call start named
      · apply comesTo_binary start minus intN (comesTo_int calculates.reading start (by decide))
        exact fun d v w first second => Rounded.minus_ints first second smallTwo
      · intro d' v later
        exact recursive (i - 2) (by omega) smallTwo (smallBefore _ (by omega)) d' v
          (start.trans later)
    · apply comesTo_call start named
      · exact comesTo_unary start dec intN fun d v number => Rounded.dec_int number smallOne
      · intro d' v later
        exact recursive (i - 1) (by omega) smallOne (smallBefore _ (by omega)) d' v
          (start.trans later)
    · intro d' v w first second
      exact Rounded.plus_ints first second (smallBefore _ (by omega)) smallResult

end

/-! ### Sessions -/

section

variable [Libc] [Doubles] {m : Machine} {address : Symbol → Int} {rounds : Nat}

/-- A session that meets the definition and a call leaves the name and what the function
returns. -/
theorem definedAndCalled_finishes (prepared : m.Prepared address rounds)
    (reading : ReadsDecimals) {name : String} {body : Form} {i k : ℤ}
    (accepts : m.Accepts (definedAndCalled name body i)) (small : |i| ≤ 2 ^ 53)
    (smallResult : |k| ≤ 2 ^ 53)
    (returns : ∀ (I : Image) (fn : FRef), I.Calculates address rounds →
      I.names (symbolOf name) = some fn → I.Known fn [symbolOf "n"] body → I.ReturnsAt fn i k) :
    m.Finishes (definedAndCalled name body i) fun vs d => ∃ v w, vs = [v, w] ∧
      d.payload v = some (.symbol (symbolOf name)) ∧ d.IsNumber w k := by
  apply prepared.idle.finishes accepts
  intro B
  rcases B.knows (chars name) [chars "n"] body List.mem_cons_self with ⟨fn, named, known⟩
  have returns := returns B.image fn (B.calculates prepared reading) named known
  apply meetsSource_definition le_rfl
  intro v symbol
  apply meetsSource_expr rfl
  apply meets_call le_rfl named
  apply meetsAll_cons
  apply meets_number le_rfl
  rw [numberOfText_decimal reading small]
  intro n number
  apply meetsAll_nil
  apply (returns small smallResult _ n le_rfl number).imp
  intro w d later result
  apply meetsSource_nil
  exact ⟨v, w, rfl, Data.payload_later later symbol, result⟩

omit [Libc] [Doubles] in
theorem definedAndCalled_accepts {name : String} {body : Form}
    (fresh : m.data.globals (symbolOf name) = none)
    (ordinary : ∀ form : SForm, form.symbol ≠ symbolOf name) (notString : ¬body.IsString)
    (wellFormed : body.WellFormed m.front.Callable) (notDefines : ¬body.Defines) (i : ℤ) :
    m.Accepts (definedAndCalled name body i) where
  top := by
    intro e mem
    simp only [definedAndCalled, List.mem_cons, List.not_mem_nil, or_false] at mem
    rcases mem with rfl | rfl
    · exact ⟨ordinary, notString, wellFormed, notDefines⟩
    · exact ⟨⟨(Machine.names_fresh fresh).1, trivial, trivial⟩, by
        simp [Form.Defines, Form.callOf, Forms.Defines, Form.int]⟩
  distinct := List.nodup_singleton _
  fresh := by
    intro sym mem
    rw [List.mem_singleton.mp mem]
    exact fresh
  ending := by
    intro label
    cases label

/-- `fact.lsp`: in every interpreter with the C functions it calls a session that meets the
definition of `fact` and a call with an integer leaves the factorial, if this has at most 53
bits. -/
theorem fact_finishes (prepared : m.Prepared address rounds) (reading : ReadsDecimals)
    (fresh : m.data.globals (symbolOf "fact") = none) {i : ℤ} (small : |i| ≤ 2 ^ 53)
    (smallResult : (i.toNat.factorial : ℤ) ≤ 2 ^ 53) :
    m.FinishesTexts (definedAndCalled "fact" factBody i) fun vs d => ∃ v w, vs = [v, w] ∧
      d.payload v = some (.symbol (symbolOf "fact")) ∧ d.IsNumber w (i.toNat.factorial : ℤ) := by
  apply Machine.Finishes.texts
  apply definedAndCalled_finishes prepared reading _ small
  · rw [abs_le]
    omega
  · intro I fn calculates named known
    exact fact_returnsAt calculates named known i
  · have lteq := prepared.callable "<=" (by simp [calledFunctions])
    have mul := prepared.callable "*" (by simp [calledFunctions])
    have dec := prepared.callable "--" (by simp [calledFunctions])
    have fact := (Machine.names_fresh fresh).1
    apply definedAndCalled_accepts fresh (fun form => by cases form <;> decide) id
    · exact ⟨⟨lteq, trivial, trivial, trivial⟩, trivial, mul, trivial,
        ⟨fact, ⟨dec, trivial, trivial⟩, trivial⟩, trivial⟩
    · simp [factBody, Form.Defines, Form.callOf, Forms.Defines, Form.int]

/-- `fib-fn.lsp`: so does one that meets the definition of `fib` and a call with an integer
for the Fibonacci number. -/
theorem fib_finishes (prepared : m.Prepared address rounds) (reading : ReadsDecimals)
    (fresh : m.data.globals (symbolOf "fib") = none) {i : ℤ} (small : |i| ≤ 2 ^ 53)
    (smallResult : (Nat.fib (i.toNat + 1) : ℤ) ≤ 2 ^ 53) :
    m.FinishesTexts (definedAndCalled "fib" fibBody i) fun vs d => ∃ v w, vs = [v, w] ∧
      d.payload v = some (.symbol (symbolOf "fib")) ∧
      d.IsNumber w (Nat.fib (i.toNat + 1) : ℤ) := by
  apply Machine.Finishes.texts
  apply definedAndCalled_finishes prepared reading _ small
  · rw [abs_le]
    omega
  · intro I fn calculates named known
    exact fib_returnsAt calculates named known i
  · have lteq := prepared.callable "<=" (by simp [calledFunctions])
    have plus := prepared.callable "+" (by simp [calledFunctions])
    have minus := prepared.callable "-" (by simp [calledFunctions])
    have dec := prepared.callable "--" (by simp [calledFunctions])
    have fib := (Machine.names_fresh fresh).1
    apply definedAndCalled_accepts fresh (fun form => by cases form <;> decide) id
    · exact ⟨⟨lteq, trivial, trivial, trivial⟩, trivial, plus,
        ⟨fib, ⟨minus, trivial, trivial, trivial⟩, trivial⟩,
        ⟨fib, ⟨dec, trivial, trivial⟩, trivial⟩, trivial⟩
    · simp [fibBody, Form.Defines, Form.callOf, Forms.Defines, Form.int]

end

theorem fact_finishes_five :
    let _ : Libc := decimalLibc
    calculator.FinishesTexts (definedAndCalled "fact" factBody 5) fun vs d => ∃ v w, vs = [v, w] ∧
      d.payload v = some (.symbol (symbolOf "fact")) ∧
      d.IsNumber w ((5 : ℤ).toNat.factorial : ℤ) :=
  @fact_finishes decimalLibc exactDoubles _ _ _ calculator_prepared decimalLibc_reads (by decide)
    5 (by decide) (by decide)

/-- A name in a script. -/
def Written.word (first : Char) (others : String)
    (plain : classOf (code first) = .atom ∧ code first ≠ code '#' ∧
      ∀ ch ∈ chars others, endsAtom ch = false) : Written :=
  .atom (code first) (chars others) plain.1 plain.2.1 plain.2.2

/-- A number in a script. -/
def Written.digits (first : Char) (others : String)
    (plain : classOf (code first) = .digit ∧ ∀ ch ∈ chars others, isValidInNumber ch = true) :
    Written :=
  .number (code first) (chars others) plain.1 plain.2

/-- A line end with blanks behind it. -/
def indented (n : Nat) : List Filler := .newline :: List.replicate n .blank

/-- A blank and a comment up to the end of the line. -/
def remark (line : String) (inside : ∀ ch ∈ chars line, ch ≠ code '\n') : List Filler :=
  [.blank, .comment (chars line) inside]

/-- The definition of `fib` as it stands in `fib-fn.lsp`, and a call of it. -/
def fibScript : Script :=
  .token [] .opening <| .token [] (.word 'd' "efun!" (by decide)) <|
  .token [.blank] (.word 'f' "ib" (by decide)) <|
  .token [.blank] .opening <| .token [] (.word 'n' "" (by decide)) <| .token [] .close <|
  .token (indented 8) .opening <| .token [] (.word 'i' "f" (by decide)) <|
  .token [.blank] .opening <| .token [] (.word '<' "=" (by decide)) <|
  .token [.blank] (.word 'n' "" (by decide)) <| .token [.blank] (.digits '1' "" (by decide)) <|
  .token [] .close <| .token (indented 10) (.digits '1' "" (by decide)) <|
  .token (.blank :: remark " the first two numbers are just 1" (by decide) ++ .replicate 10 .blank)
    .opening <|
  .token [] (.sign (code '+') (.inl rfl)) <|
  .token [.blank] .opening <| .token [] (.word 'f' "ib" (by decide)) <|
  .token [.blank] .opening <| .token [] (.sign (code '-') (.inr rfl)) <|
  .token [.blank] (.word 'n' "" (by decide)) <| .token [.blank] (.digits '2' "" (by decide)) <|
  .token [] .close <| .token [] .close <|
  .token [.blank] .opening <| .token [] (.word 'f' "ib" (by decide)) <|
  .token [.blank] .opening <|
  .token [] (.signs (code '-') (code '-') (.inr rfl) (.inr rfl)) <|
  .token [.blank] (.word 'n' "" (by decide)) <| .token [] .close <| .token [] .close <|
  .token [] .close <|
  .token (remark " fib(n-2)+fib(n-1)" (by decide) ++ .replicate 8 .blank) .close <|
  .token [.newline] .close <|
  .token [.newline] .opening <| .token [] (.word 'f' "ib" (by decide)) <|
  .token [.blank] (.digits '1' "0" (by decide)) <| .token [] .close <| .ending [.newline]

theorem fibScript_writtenAs : WrittenAs (definedAndCalled "fib" fibBody 10) fibScript.text where
  ascii := by decide +kernel
  script := ⟨fibScript, by decide +kernel, rfl, by decide +kernel⟩

example : fibScript.text = chars
    "(defun! fib (n)
        (if (<= n 1)
          1  ; the first two numbers are just 1
          (+ (fib (- n 2)) (fib (-- n))) ; fib(n-2)+fib(n-1)
        )
)
(fib 10)
" := by
  decide +kernel

theorem fib_finishes_ten :
    let _ : Libc := decimalLibc
    ∃ n m', Session.run id 50 n
        ⟨calculator, [aklNewFileDevice (fun _ => 0) fibScript.text 0 0 .tEOF]⟩ = some ⟨m', []⟩ ∧
      m'.control = [] ∧ ∃ cells, m'.stack.Holds cells ∧ ∃ v w, cells.map Prod.snd = [v, w] ∧
        m'.data.payload v = some (.symbol (symbolOf "fib")) ∧ m'.data.IsNumber w 89 :=
  @fib_finishes decimalLibc exactDoubles _ _ _ calculator_prepared decimalLibc_reads (by decide)
    10 (by decide) (by decide) _ _ _ _ fibScript_writtenAs (.file _ _ _ _) (by decide)

end AkLisp
