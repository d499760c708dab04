import AkLisp.Programs.Calculator

/-!
# Sum and average

The functions of `avg.lsp`.  `sum` folds its list with `+`: the value so far is the sum
of the elements that were taken, whatever is left.  `average` divides it by the length.
-/

namespace AkLisp

open Linked Evaluation Image

/-- `sum`: `(fold 0 xs +)`. -/
def sumBody : Form := .callOf "fold" [.int 0, .name (chars "xs"), .name (chars "+")]

/-- `average`: `(/ (sum xs) (length xs))`. -/
def averageBody : Form :=
  .callOf "/" [.callOf "sum" [.name (chars "xs")], .callOf "length" [.name (chars "xs")]]

/-- Integers as the elements of a list. -/
def intDatums : List ℤ → Datums
  | [] => .nil
  | z :: zs => .cons false (.number (decimal z)) (intDatums zs)

/-- The definitions of `sum` and `average`, and the average of a quoted list. -/
def averageSource (zs : List ℤ) : List Form :=
  [.defun (chars "sum") [chars "xs"] sumBody, .defun (chars "average") [chars "xs"] averageBody,
    .callOf "average" [.quoted (.list (intDatums zs))]]

/-- The lists are the same. -/
def Data.SameLists (d d' : Data) : Prop := d'.entries = d.entries ∧ d'.lists = d.lists

theorem Data.SameLists.keepsList {d d' : Data} (same : d.SameLists d') (l : LRef) :
    KeepsList l d d' := by
  rcases same with ⟨entriesEq, listsEq⟩
  intro as xs iterates
  rcases iterates with ⟨⟨list, found, walk⟩, dataEq, below⟩
  refine ⟨⟨list, by rw [listsEq]; exact found, ?_⟩, ?_, ?_⟩
  · rw [entriesEq]
    exact walk
  · rw [entriesEq]
    exact dataEq
  · rw [entriesEq]
    exact below

theorem Data.SameLists.trans {d₁ d₂ d₃ : Data} (first : d₁.SameLists d₂)
    (second : d₂.SameLists d₃) : d₁.SameLists d₃ :=
  ⟨second.1.trans first.1, second.2.trans first.2⟩

section

variable [Libc]

/-- The values of a quoted list of integers. -/
theorem numbers_of_denoted (reading : ReadsDecimals) {d : Data} {F : Footprint} {zs : List ℤ}
    {ws : List VRef} (small : ∀ z ∈ zs, |z| ≤ 2 ^ 53) (denoted : (intDatums zs).Denoted d F ws) :
    List.Forall₂ (fun w (z : ℤ) => d.IsNumber w z) ws zs := by
  induction zs generalizing ws with
  | nil =>
      rw [show ws = [] from denoted]
      exact .nil
  | cons z zs ih =>
      rcases denoted with ⟨w, rest, rfl, number, others⟩
      have number' : d.payload w = some (.number (numberOfText (decimal z))) := number
      rw [numberOfText_decimal reading (small z List.mem_cons_self)] at number'
      exact .cons number' (ih (fun z mem => small z (List.mem_cons_of_mem _ mem)) others)

variable [Doubles] {I : Image} {address : Symbol → Int} {rounds : Nat}

/-- What the loop of `sum` knows: the value so far is the sum of the elements that were
taken. -/
structure Summed (d : Data) (zs : List ℤ) (rest : List VRef) (a : VRef) (d' : Data) : Prop where
  later : d ≤ d'
  same : d.SameLists d'
  split : ∃ done left, zs = done ++ left ∧ d'.IsNumber a (done.sum : ℤ) ∧
    List.Forall₂ (fun w (z : ℤ) => d.IsNumber w z) rest left

omit [Libc] in
/-- One call of `+`. -/
theorem Summed.step {Γ : Program} {d : Data} {zs : List ℤ} {l : LRef} {g : FRef}
    (plus : Γ g = some (.cfun (.ofTotal Rounded.aklFnPlus))) (small : ∀ z ∈ zs, |z| ≤ 2 ^ 53)
    (smallSum : ∀ done ∈ zs.inits, |done.sum| ≤ 2 ^ 53) (x : VRef) (xs : List VRef) (a : VRef)
    (d₁ : Data) (summed : Summed d zs (x :: xs) a d₁) :
    Total (Γ.apply g [a, x]) d₁ fun w d' => KeepsList l d₁ d' ∧ Summed d zs xs w d' := by
  rcases summed.split with ⟨done, left, rfl, number, numbers⟩
  cases numbers with
  | @cons _ z _ left first others =>
      have smallNext := smallSum (done ++ [z]) (by simp [List.mem_inits])
      rw [List.sum_append, List.sum_singleton] at smallNext
      have computes := Rounded.plus_ints number (first.later summed.later)
        (small z (by simp)) smallNext
      apply computes.total plus (by simp)
      have same : d₁.SameLists
          (d₁.newValue ⟨.number ((done.sum + z : ℤ) : ℚ), false, false⟩).2 := ⟨rfl, rfl⟩
      refine ⟨same.keepsList l, summed.later.trans (Data.le_newValue d₁ _),
        summed.same.trans same, done ++ [z], left, by simp, ?_, others⟩
      rw [List.sum_append, List.sum_singleton]
      exact Data.newValue_payload_self d₁ _

/-- `sum` returns the sum of the elements. -/
theorem sum_total (calculates : I.Calculates address rounds) {fn : FRef}
    (known : I.Known fn [symbolOf "xs"] sumBody) {d : Data} {v : VRef} {l : LRef}
    {as : List Addr} {ws : List VRef} {zs : List ℤ} (start : I.data ≤ d)
    (list : d.payload v = some (.list l)) (iterates : Iterates d l as ws)
    (numbers : List.Forall₂ (fun w (z : ℤ) => d.IsNumber w z) ws zs) (enough : zs.length < rounds)
    (small : ∀ z ∈ zs, |z| ≤ 2 ^ 53) (smallSum : ∀ done ∈ zs.inits, |done.sum| ≤ 2 ^ 53) :
    Total (I.program.apply fn [v]) d fun w d' =>
      d'.IsNumber w (zs.sum : ℤ) ∧ d.SameLists d' := by
  have fold : I.Has "fold" (aklFnFoldl rounds) :=
    calculates.has ("fold", aklFnFoldl rounds) (by simp [calledFunctions])
  have plus : I.Has "+" (.ofTotal Rounded.aklFnPlus) :=
    calculates.has ("+", .ofTotal Rounded.aklFnPlus) (by simp [calledFunctions])
  rcases plus with ⟨g, named, calleePlus⟩
  have zero : numberOfText (decimal 0) = 0 := by
    exact_mod_cast numberOfText_decimal calculates.reading (z := 0) (by decide)
  apply total_known known rfl (by simp)
  apply fold.call start
  apply meetsAll_cons
  apply meets_number start
  rw [zero]
  intro a numberZero
  apply meetsAll_cons
  apply meets_param rfl rfl
  apply meetsAll_cons
  apply meets_function start rfl named
  intro fv function
  apply meetsAll_nil
  intro f calleeFold
  have length : ws.length < rounds := by
    rw [numbers.length_eq]
    exact enough
  have summed : Summed d zs ws a d := by
    refine ⟨le_rfl, ⟨rfl, rfl⟩, [], zs, rfl, ?_, numbers⟩
    simpa [Data.IsNumber] using numberZero
  apply total_foldl calleeFold list function iterates length summed
    (Summed.step calleePlus small smallSum)
  intro w d' later whole
  rcases whole.split with ⟨done, left, rfl, number, others⟩
  cases others
  rw [List.append_nil]
  exact ⟨number, whole.same⟩

/-- `average` returns the sum divided by the number of the elements. -/
theorem average_total (calculates : I.Calculates address rounds) {sum fn : FRef}
    (named : I.names (symbolOf "sum") = some sum) (knownSum : I.Known sum [symbolOf "xs"] sumBody)
    (known : I.Known fn [symbolOf "xs"] averageBody) {d : Data} {v : VRef} {l : LRef}
    {list : AklList} {as : List Addr} {ws : List VRef} {zs : List ℤ} (start : I.data ≤ d)
    (held : d.payload v = some (.list l)) (found : d.lists[l]? = some list)
    (denotes : list.Denotes d.entries as) (dataEq : as.map d.entries.data = ws.map some)
    (numbers : List.Forall₂ (fun w (z : ℤ) => d.IsNumber w z) ws zs) (nonempty : zs ≠ [])
    (enough : zs.length < rounds) (counted : zs.length < 2 ^ 32) (small : ∀ z ∈ zs, |z| ≤ 2 ^ 53)
    (smallSum : ∀ done ∈ zs.inits, |done.sum| ≤ 2 ^ 53) :
    Total (I.program.apply fn [v]) d fun w d' =>
      d'.IsNumber w (Doubles.toDouble ((zs.sum : ℤ) / (zs.length : ℚ))) := by
  have ddiv : I.Has "/" (.ofTotal Rounded.aklFnDdiv) :=
    calculates.has ("/", .ofTotal Rounded.aklFnDdiv) (by simp [calledFunctions])
  have length : I.Has "length" (.ofLocal aklFnLength) :=
    calculates.has ("length", .ofLocal aklFnLength) (by simp [calledFunctions])
  have iterates : Iterates d l as ws := ⟨⟨list, found, denotes.walkForward⟩, dataEq, denotes.below⟩
  have countEq : list.liCount.toNat = zs.length := by
    have lengths : as.length = zs.length := by
      rw [← numbers.length_eq]
      simpa using congrArg List.length dataEq
    rw [denotes.count, lengths]
    exact UInt32.toNat_ofNat_of_lt' counted
  apply total_known known rfl (by simp)
  apply ddiv.call start
  apply meetsAll_cons
  apply meets_call start named
  apply meetsAll_cons
  apply meets_param rfl rfl
  apply meetsAll_nil
  apply (sum_total calculates knownSum start held iterates numbers enough small smallSum).imp
  rintro s d₁ later₁ ⟨numberSum, same⟩
  apply meetsAll_cons
  apply length.call (start.trans later₁)
  apply meetsAll_cons
  apply meets_param rfl rfl
  apply meetsAll_nil
  intro f calleeLength
  apply total_length calleeLength (Data.payload_later later₁ held) (by rw [same.2]; exact found)
  apply meetsAll_nil
  intro f' calleeDdiv
  rw [countEq]
  have nonzero : (zs.length : ℚ) ≠ 0 := by
    rw [Nat.cast_ne_zero, List.length_eq_zero_iff.ne]
    exact nonempty
  have numberLength : (d₁.newValue ⟨.number zs.length, false, false⟩).2.IsNumber d₁.values.length
      zs.length := Data.newValue_payload_self d₁ _
  apply (Rounded.ddiv_computes (numberSum.later (Data.le_newValue d₁ _))
    (.cons numberLength .nil) (by simpa using nonzero.symm)).total calleeDdiv (by simp)
  exact Data.newValue_payload_self _ _

variable {m : Machine}

omit [Libc] in
theorem averageSource_accepts (prepared : m.Prepared address rounds)
    (freshSum : m.data.globals (symbolOf "sum") = none)
    (freshAverage : m.data.globals (symbolOf "average") = none) (zs : List ℤ) :
    m.Accepts (averageSource zs) where
  top := by
    have fold := prepared.callable "fold" (by simp [calledFunctions])
    have ddiv := prepared.callable "/" (by simp [calledFunctions])
    have length := prepared.callable "length" (by simp [calledFunctions])
    have sum := (Machine.names_fresh freshSum).1
    have average := (Machine.names_fresh freshAverage).1
    intro e mem
    simp only [averageSource, List.mem_cons, List.not_mem_nil, or_false] at mem
    rcases mem with rfl | rfl | rfl
    · refine ⟨fun form => by cases form <;> decide, id, ⟨fold, trivial, trivial, trivial, trivial⟩,
        ?_⟩
      simp [sumBody, Form.Defines, Form.callOf, Forms.Defines, Form.int]
    · refine ⟨fun form => by cases form <;> decide, id,
        ⟨ddiv, ⟨sum, trivial, trivial⟩, ⟨length, trivial, trivial⟩, trivial⟩, ?_⟩
      simp [averageBody, Form.Defines, Form.callOf, Forms.Defines]
    · refine ⟨⟨average, trivial, trivial⟩, ?_⟩
      simp [Form.Defines, Form.callOf, Forms.Defines]
  distinct := by
    change [symbolOf "sum", symbolOf "average"].Nodup
    decide
  fresh := by
    intro sym mem
    have mem' : sym ∈ [symbolOf "sum", symbolOf "average"] := mem
    simp only [List.mem_cons, List.not_mem_nil, or_false] at mem'
    rcases mem' with rfl | rfl
    · exact freshSum
    · exact freshAverage
  ending := by
    intro label
    cases label

/-- `avg.lsp`: in every interpreter with the C functions it calls a session that meets the
definitions of `sum` and `average` and a call with a quoted list of integers leaves the
quotient of their sum and their number, as long as no sum on the way has more than 53
bits. -/
theorem average_finishes (prepared : m.Prepared address rounds) (reading : ReadsDecimals)
    (freshSum : m.data.globals (symbolOf "sum") = none)
    (freshAverage : m.data.globals (symbolOf "average") = none) {zs : List ℤ} (nonempty : zs ≠ [])
    (enough : zs.length < rounds) (counted : zs.length < 2 ^ 32) (small : ∀ z ∈ zs, |z| ≤ 2 ^ 53)
    (smallSum : ∀ done ∈ zs.inits, |done.sum| ≤ 2 ^ 53) :
    m.FinishesTexts (averageSource zs) fun vs d => ∃ v v' w, vs = [v, v', w] ∧
      d.payload v = some (.symbol (symbolOf "sum")) ∧
      d.payload v' = some (.symbol (symbolOf "average")) ∧
      d.IsNumber w (Doubles.toDouble ((zs.sum : ℤ) / (zs.length : ℚ))) := by
  apply Machine.Finishes.texts
  apply prepared.idle.finishes (averageSource_accepts prepared freshSum freshAverage zs)
  intro B
  have calculates := B.calculates prepared reading
  rcases B.knows (chars "sum") [chars "xs"] sumBody (by simp [averageSource]) with
    ⟨sum, namedSum, knownSum⟩
  rcases B.knows (chars "average") [chars "xs"] averageBody (by simp [averageSource]) with
    ⟨average, named, known⟩
  apply meetsSource_definition le_rfl
  intro v symbolSum
  apply meetsSource_definition le_rfl
  intro v' symbolAverage
  apply meetsSource_expr rfl
  apply meets_call le_rfl named
  apply meetsAll_cons
  apply meets_quoted
  rintro w ⟨l, list, as, ws, held, -, found, denotes, -, -, dataEq, denoted⟩
  have numbers := numbers_of_denoted reading small denoted
  apply meetsAll_nil
  apply (average_total calculates namedSum knownSum known le_rfl held found denotes dataEq numbers
    nonempty enough counted small smallSum).imp
  intro r d later number
  apply meetsSource_nil
  exact ⟨v, v', r, rfl, Data.payload_later later symbolSum, Data.payload_later later symbolAverage,
    number⟩

end

theorem average_finishes_three :
    let _ : Libc := decimalLibc
    calculator.FinishesTexts (averageSource [4, -1, 6]) fun vs d => ∃ v v' w, vs = [v, v', w] ∧
      d.payload v = some (.symbol (symbolOf "sum")) ∧
      d.payload v' = some (.symbol (symbolOf "average")) ∧
      d.IsNumber w (((([4, -1, 6] : List ℤ).sum : ℤ) : ℚ) / (([4, -1, 6] : List ℤ).length : ℚ)) :=
  @average_finishes decimalLibc exactDoubles _ _ _ calculator_prepared decimalLibc_reads
    (by decide) (by decide) [4, -1, 6] (by decide) (by decide) (by decide) (by decide)
    (by decide)

end AkLisp
