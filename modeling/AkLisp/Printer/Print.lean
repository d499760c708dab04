import AkLisp.Printer.Format

/-!
# The printer

`akl_print_value` and `akl_print_list` with colours off, as functions to the text
they write.  A value that is a tree of numbers, strings, quoted symbols, `T`,
`NIL` and lists is printed as the rendering of the tree.
-/

namespace AkLisp

open Linked

/-- The text of `NIL`. -/
def nilText : List Chr := "NIL".toList.map code

/-- The loop of `akl_print_list`, with the entry it has come to. -/
def printEntries (printValue : Option VRef → Except Fault (List Chr)) (entries : Mem VRef) :
    Nat → Option Addr → Except Fault (List Chr)
  | _, none => .ok []
  | 0, some _ => throw .outOfFuel
  | fuel + 1, some ent =>
      match entries.data ent with
      | none => .ok []
      | some v => do
          let text ← printValue (some v)
          let others ← printEntries printValue entries fuel (entries.next ent)
          return text ++ ((if (entries.next ent).isSome then [code ' '] else []) ++ others)

/-- `akl_print_list` -/
def aklPrintList (printValue : Option VRef → Except Fault (List Chr)) (fuel : Nat) (d : Data)
    (l : LRef) : Except Fault (List Chr) :=
  match d.lists[l]? with
  | none => .ok nilText
  | some list =>
      if list.isNil ∨ list.liCount = 0 then .ok nilText
      else do
        let text ← printEntries printValue d.entries fuel list.liHead
        return (if list.isQuoted then [code '\''] else []) ++ (code '(' :: (text ++ [code ')']))

/-- `akl_print_value`.  The recursion is bounded by a number the caller chooses. -/
def aklPrintValue : Nat → Data → Option VRef → Except Fault (List Chr)
  | 0, _, _ => throw .outOfFuel
  | fuel + 1, d, v =>
      match v.bind (d.values[·]?) with
      | none => .ok nilText
      | some val =>
          if val.isNil then .ok nilText
          else
            match val.payload with
            | .number n => .ok (formatG n)
            | .string text => .ok (code '"' :: (text ++ [code '"']))
            | .list l => aklPrintList (aklPrintValue fuel d) fuel d l
            | .symbol sym => .ok (if val.isQuoted then code ':' :: sym.sbName else sym.sbName)
            | .true => .ok ("T".toList.map code)
            | .function _ => .ok ("<FUNCTION>".toList.map code)
            | .nil => .ok []

/-- An integer of absolute value below 2^53. -/
structure ExactInt where
  value : ℤ
  below : value.natAbs < 2 ^ 53

/-- A C string that is not empty. -/
structure CString where
  text : List Chr
  nonempty : text ≠ []
  chars : ∀ ch ∈ text, IsStringChar ch

mutual

/-- A value without its address; symbols are quoted, a list is not empty and has
a mark that says whether it is quoted. -/
inductive Printable where
  | number (n : ExactInt)
  | string (text : CString)
  | symbol (sym : Symbol) (chars : ∀ ch ∈ sym.sbName, IsStringChar ch)
  | true
  | nil
  | list (isQuoted : Bool) (first : Printable) (others : Printables)

/-- The elements of a list behind the first one. -/
inductive Printables where
  | nil
  | cons (t : Printable) (ts : Printables)

end

mutual

/-- The value is the tree. -/
def Printable.Stored (d : Data) (v : VRef) : Printable → Prop
  | .number n => ∃ q, d.values[v]? = some ⟨.number n.value, q, false⟩
  | .string text => ∃ q, d.values[v]? = some ⟨.string text.text, q, false⟩
  | .symbol sym _ => d.values[v]? = some ⟨.symbol sym, true, false⟩
  | .true => ∃ q, d.values[v]? = some ⟨.true, q, false⟩
  | .nil => ∃ q, d.values[v]? = some ⟨.nil, q, true⟩
  | .list isQuoted first others => ∃ q l as w ws, d.values[v]? = some ⟨.list l, q, false⟩ ∧
      d.Building l as (w :: ws) ∧ d.lists[l]?.map AklList.isQuoted = some isQuoted ∧
      first.Stored d w ∧ others.Stored d ws

def Printables.Stored (d : Data) : List VRef → Printables → Prop
  | vs, .nil => vs = []
  | vs, .cons t ts => ∃ w ws, vs = w :: ws ∧ t.Stored d w ∧ ts.Stored d ws

end

mutual

/-- What the printer makes of a tree. -/
def Printable.render : Printable → List Chr
  | .number n => formatG n.value
  | .string text => code '"' :: (text.text ++ [code '"'])
  | .symbol sym _ => code ':' :: sym.sbName
  | .true => "T".toList.map code
  | .nil => nilText
  | .list isQuoted first others =>
      (if isQuoted then [code '\''] else []) ++
        (code '(' :: (first.render ++ (others.render ++ [code ')'])))

def Printables.render : Printables → List Chr
  | .nil => []
  | .cons t ts => code ' ' :: (t.render ++ ts.render)

end

/-- A number is not printed as an empty text. -/
theorem formatG_ne_nil (x : ℚ) : formatG x ≠ [] := by
  obtain ⟨d, ds, textEq, -⟩ := (numeralG x).isNumberText
  rw [formatG, Numeral.text, textEq]
  simp

theorem Printable.render_ne_nil (t : Printable) : t.render ≠ [] := by
  cases t with
  | number n => exact formatG_ne_nil _
  | string text => exact List.cons_ne_nil _ _
  | symbol sym chars => exact List.cons_ne_nil _ _
  | true => exact List.cons_ne_nil _ _
  | nil => exact List.cons_ne_nil _ _
  | list isQuoted first others => simp [Printable.render]

/-- A list has not more elements than its rendering has characters. -/
theorem Printables.Stored.length_le {d : Data} : ∀ {ts : Printables} {vs : List VRef},
    ts.Stored d vs → vs.length ≤ ts.render.length
  | .nil, _, stored => by
      cases stored
      exact Nat.le_refl _
  | .cons t ts, _, stored => by
      obtain ⟨w, ws, rfl, -, others⟩ := stored
      have := others.length_le
      simp only [Printables.render, List.length_cons, List.length_append]
      omega

/-- The loop of `akl_print_list`, given what is printed for the elements. -/
theorem printEntries_cons {printValue : Option VRef → Except Fault (List Chr)} {m : Mem VRef}
    {a : Addr} {as : List Addr} {p : Option Addr} (chained : Chained m p (a :: as) none) {w : VRef}
    (dataEq : m.data a = some w) {text others : List Chr} (first : printValue (some w) = .ok text)
    {fuel : Nat} (rest : printEntries printValue m fuel as.head? = .ok others) :
    printEntries printValue m (fuel + 1) (some a) =
      .ok (text ++ ((if as.head?.isSome then [code ' '] else []) ++ others)) := by
  have nextEq : m.next a = as.head? := by simpa using chained.2.1
  simp only [printEntries, dataEq, first, nextEq, rest, bind, Except.bind, pure, Except.pure]

mutual

/-- `akl_print_value` writes the rendering of a tree. -/
theorem Printable.Stored.print {d : Data} : ∀ {t : Printable} {v : VRef} {fuel : Nat},
    t.Stored d v → t.render.length < 2 ^ 32 → t.render.length ≤ fuel →
      aklPrintValue fuel d (some v) = .ok t.render
  | t, _, 0, _, _, enough => by
      exact absurd (List.length_eq_zero_iff.mp (Nat.le_zero.mp enough)) t.render_ne_nil
  | .number n, v, fuel + 1, stored, _, _ => by
      obtain ⟨q, found⟩ := stored
      simp [aklPrintValue, found, Printable.render]
  | .string text, v, fuel + 1, stored, _, _ => by
      obtain ⟨q, found⟩ := stored
      simp [aklPrintValue, found, Printable.render]
  | .symbol sym _, v, fuel + 1, stored, _, _ => by
      have found : d.values[v]? = some ⟨.symbol sym, Bool.true, false⟩ := stored
      simp [aklPrintValue, found, Printable.render]
  | .true, v, fuel + 1, stored, _, _ => by
      obtain ⟨q, found⟩ := stored
      simp [aklPrintValue, found, Printable.render]
  | .nil, v, fuel + 1, stored, _, _ => by
      obtain ⟨q, found⟩ := stored
      simp [aklPrintValue, found, Printable.render]
  | .list isQuoted first others, v, fuel + 1, stored, short, enough => by
      obtain ⟨q, l, as, w, ws, found, ⟨⟨header, headerEq, denotes, notNil⟩, dataEq⟩, markEq,
        firstStored, othersStored⟩ := stored
      simp only [Printable.render, List.length_append, List.length_cons,
        List.length_nil] at short enough
      obtain ⟨a, as, rfl⟩ : ∃ b bs, as = b :: bs := by
        cases as with
        | nil => cases dataEq
        | cons b bs => exact ⟨b, bs, rfl⟩
      simp only [List.map_cons, List.cons.injEq] at dataEq
      obtain ⟨aEq, asEq⟩ := dataEq
      have firstEq : aklPrintValue fuel d (some w) = .ok first.render :=
        firstStored.print (by omega) (by omega)
      have count : (header.liCount = 0) = False := by
        have few := othersStored.length_le
        have lengthEq : as.length = ws.length := by simpa using congrArg List.length asEq
        rw [denotes.count, eq_iff_iff, iff_false, List.length_cons]
        intro zero
        have := congrArg UInt32.toNat zero
        simp at this
        omega
      have entriesEq : printEntries (aklPrintValue fuel d) d.entries fuel (some a) =
          .ok (first.render ++ others.render) :=
        othersStored.printEntries denotes.chained aEq asEq firstEq (by omega) (by omega)
          (by rw [List.length_append]; omega)
      have headEq : header.liHead = some a := denotes.head
      have quotedEq : header.isQuoted = isQuoted := by simpa [headerEq] using markEq
      simp [aklPrintValue, found, aklPrintList, headerEq, notNil, count, headEq, entriesEq,
        quotedEq, Printable.render, bind, Except.bind, pure, Except.pure]

/-- The loop of `akl_print_list` writes the elements with blanks between them. -/
theorem Printables.Stored.printEntries {d : Data} : ∀ {ts : Printables} {t : Printable}
    {a : Addr} {as : List Addr} {p : Option Addr} {w : VRef} {ws : List VRef} {fuel n : Nat},
    ts.Stored d ws → Chained d.entries p (a :: as) none → d.entries.data a = some w →
      as.map d.entries.data = ws.map some → aklPrintValue fuel d (some w) = .ok t.render →
      ts.render.length < 2 ^ 32 → ts.render.length ≤ fuel →
      (t.render ++ ts.render).length ≤ n →
      printEntries (aklPrintValue fuel d) d.entries n (some a) = .ok (t.render ++ ts.render)
  | ts, t, _, _, _, _, _, _, 0, _, _, _, _, _, _, _, enough => by
      simp only [List.length_append, Nat.le_zero, Nat.add_eq_zero_iff] at enough
      exact absurd (List.length_eq_zero_iff.mp enough.1) t.render_ne_nil
  | .nil, t, a, as, p, w, ws, fuel, n + 1, stored, chained, aEq, asEq, firstEq, _, _, _ => by
      cases stored
      cases as with
      | nil =>
          have restEq : AkLisp.printEntries (aklPrintValue fuel d) d.entries n none = .ok [] := by
            cases n <;> rfl
          simpa [Printables.render] using printEntries_cons chained aEq firstEq restEq
      | cons b bs => cases asEq
  | .cons t' ts, t, a, as, p, w, ws, fuel, n + 1, stored, chained, aEq, asEq, firstEq, short,
    within, enough => by
      obtain ⟨w', ws, rfl, firstStored, othersStored⟩ := stored
      simp only [Printables.render, List.length_append, List.length_cons] at short within enough
      obtain ⟨b, bs, rfl⟩ : ∃ b bs, as = b :: bs := by
        cases as with
        | nil => cases asEq
        | cons b bs => exact ⟨b, bs, rfl⟩
      simp only [List.map_cons, List.cons.injEq] at asEq
      obtain ⟨bEq, bsEq⟩ := asEq
      have secondEq : aklPrintValue fuel d (some w') = .ok t'.render :=
        firstStored.print (by omega) (by omega)
      have positive := List.length_pos_iff.mpr t.render_ne_nil
      have restEq := othersStored.printEntries chained.2.2 bEq bsEq secondEq (by omega) (by omega)
        (show (t'.render ++ ts.render).length ≤ n by rw [List.length_append]; omega)
      simpa [Printables.render] using printEntries_cons chained aEq firstEq restEq

end

end AkLisp
