import AkLisp.Lexer.Bounds
import AkLisp.Lexer.Progress
import Mathlib.Algebra.Group.Nat.Defs

/-!
# Line numbers

The loop of `akl_lex` counts the line ends it reads.  The loops that copy a number
or an atom read none, and the character they push back has not been counted.  A
comment and a string literal take line ends without counting them, and a sign that
is pushed back over a line end has it counted twice.
-/

namespace AkLisp

open Outcome

/-- The number of line ends in front of a place of the string. -/
def lineEnds (str : List Chr) (pos : Nat) : Nat := (str.take pos).count (code '\n')

/-- Behind an opening quote a line end stands within the string literal. -/
inductive LineInLiteral : List Chr → Prop where
  | newline {r} : LineInLiteral (code '\n' :: r)
  | plain {ch r} (notEscape : ch ≠ code '\\') (notQuote : ch ≠ code '"')
      (others : LineInLiteral r) : LineInLiteral (ch :: r)
  | escapedNewline {r} : LineInLiteral (code '\\' :: code '\n' :: r)
  | escaped {ch r} (others : LineInLiteral r) : LineInLiteral (code '\\' :: ch :: r)

/-- Here a line end is not counted or counted twice: it ends a comment, it stands
in a string literal, or it stands between a pending sign and an atom. -/
inductive Miscounts : Column → Chr → List Chr → Prop where
  | comment {col op line r} (inside : ∀ ch ∈ line, ch ≠ code '\n') :
      Miscounts col op (code ';' :: (line ++ code '\n' :: r))
  | literal {col op r} (within : LineInLiteral r) : Miscounts col op (code '"' :: r)
  | pushedBack {col op ch r} (pending : IsSign op) (kind : classOf ch = .atom)
      (plain : ch ≠ code '#') : Miscounts col op (code '\n' :: ch :: r)
  | shebang {op line ch r} (pending : IsSign op) (inside : ∀ ch ∈ line, ch ≠ code '\n')
      (kind : classOf ch = .atom) (plain : ch ≠ code '#') :
      Miscounts (some 0) op (code '#' :: (line ++ code '\n' :: ch :: r))

/-- The characters of a C string. -/
def Legal (str : List Chr) : Prop := ∀ ch ∈ str, IsStringChar ch

theorem Legal.charAt {str : List Chr} (legal : Legal str) {pos : Nat} {c : Chr}
    (charEq : charAt str pos = .ok c) :
    c = 0 ∧ str.drop pos = [] ∨ IsStringChar c ∧ str.drop pos = c :: str.drop (pos + 1) := by
  unfold AkLisp.charAt at charEq
  by_cases inside : pos < str.length
  · rw [List.getElem?_append_left inside, List.getElem?_eq_getElem inside] at charEq
    obtain rfl := Except.ok.inj charEq
    exact .inr ⟨legal _ (List.getElem_mem inside), List.drop_eq_getElem_cons inside⟩
  · left
    rw [List.getElem?_append_right (by omega)] at charEq
    refine ⟨?_, List.drop_eq_nil_of_le (by omega)⟩
    cases behind : pos - str.length with
    | zero =>
        rw [behind] at charEq
        exact (Except.ok.inj charEq).symm
    | succ n =>
        rw [behind] at charEq
        cases charEq

theorem Legal.toChr {str : List Chr} (legal : Legal str) {pos : Nat} {c : Chr}
    (charEq : AkLisp.charAt str pos = .ok c) : toChr c = c := by
  rcases legal.charAt charEq with ⟨rfl, -⟩ | ⟨stringChar, -⟩
  · decide
  · exact stringChar.toChr

theorem Legal.drop {str : List Chr} (legal : Legal str) {pos : Nat} {c : Chr}
    (charEq : AkLisp.charAt str pos = .ok c) (nonzero : c ≠ 0) :
    str.drop pos = c :: str.drop (pos + 1) := by
  rcases legal.charAt charEq with ⟨zero, -⟩ | ⟨-, dropEq⟩
  · exact absurd zero nonzero
  · exact dropEq

theorem lineEnds_succ {str : List Chr} {pos : Nat} {c : Chr} (charEq : charAt str pos = .ok c) :
    lineEnds str (pos + 1) = lineEnds str pos + if c = code '\n' then 1 else 0 := by
  unfold charAt at charEq
  rw [lineEnds, lineEnds, List.take_add_one, List.count_append]
  by_cases inside : pos < str.length
  · rw [List.getElem?_append_left inside, List.getElem?_eq_getElem inside] at charEq
    obtain rfl := Except.ok.inj charEq
    rw [List.getElem?_eq_getElem inside]
    simp [List.count_singleton]
  · rw [List.getElem?_append_right (by omega)] at charEq
    rw [List.getElem?_eq_none (by omega)]
    cases behind : pos - str.length with
    | zero =>
        rw [behind] at charEq
        obtain rfl := Except.ok.inj charEq
        simp [code]
    | succ n =>
        rw [behind] at charEq
        cases charEq

namespace Dev

/-- The device reads the string at a place and has counted some lines. -/
structure Place (dev : Dev) (str : List Chr) (pos : Nat) (count : UInt32) : Prop where
  source : dev.iodSource = .string str pos
  line : dev.iodLineCount = count

/-- The device reads the string somewhere behind some line ends, and the count is
as given. -/
def Level (dev : Dev) (str : List Chr) (ends : Nat) (count : UInt32) : Prop :=
  ∃ pos, dev.Place str pos count ∧ lineEnds str pos = ends

/-- The computation takes no line end and does not touch the count. -/
abbrev Steady (str : List Chr) (ends : Nat) (count : UInt32) {α : Type}
    (x : Except Fault (α × Dev)) : Prop :=
  Ensures (fun p => p.2.Level str ends count) x

variable {dev : Dev} {str : List Chr} {pos ends : Nat} {count : UInt32} {ch op : Chr}

theorem Place.level (place : dev.Place str pos count) : dev.Level str (lineEnds str pos) count :=
  ⟨pos, place, rfl⟩

theorem Place.getc (place : dev.Place str pos count) :
    Ensures (fun p => charAt str pos = .ok p.1 ∧ p.2.Place str (pos + 1) count ∧
      p.2.iodCharCount = dev.iodCharCount + 1) dev.aklIoGetc := by
  unfold aklIoGetc
  rw [place.source, Source.getc]
  cases charEq : charAt str pos with
  | error fault => trivial
  | ok c => exact ⟨rfl, ⟨rfl, place.line⟩, rfl⟩

theorem Place.ungetc (place : dev.Place str (pos + 1) count) (c : Chr) :
    Ensures (fun p => p.2.Place str pos count) (dev.aklIoUngetc c) := by
  unfold aklIoUngetc
  rw [place.source, Source.ungetc]
  cases charAt str pos with
  | error fault => trivial
  | ok c => exact ⟨rfl, place.line⟩

theorem ensures_putBuffer_line (dev : Dev) (i : Nat) (c : Chr) :
    Ensures (fun dev' => dev'.iodLineCount = dev.iodLineCount) (dev.putBuffer i c) := by
  unfold Dev.putBuffer
  cases dev.iodBuffer with
  | none => trivial
  | some block =>
      dsimp only
      generalize (if block.length ≤ i + 1 then _ else block) = grown
      split
      · exact rfl
      · trivial

theorem Place.putBuffer (place : dev.Place str pos count) (i : Nat) (c : Chr) :
    Ensures (Place · str pos count) (dev.putBuffer i c) := by
  have source := dev.ensures_putBuffer i c
  have line := dev.ensures_putBuffer_line i c
  cases putEq : dev.putBuffer i c with
  | error fault => trivial
  | ok dev' => exact ⟨(source.ok putEq).trans place.source, (line.ok putEq).trans place.line⟩

theorem Place.strcpy (place : dev.Place str pos count) (text : List Chr) :
    Ensures (Place · str pos count) (dev.strcpy text) := by
  unfold Dev.strcpy
  cases dev.iodBuffer with
  | none => trivial
  | some block =>
      dsimp only
      split
      · exact ⟨place.source, place.line⟩
      · trivial

/-- A character other than a line end has been read. -/
theorem Place.level_succ (place : dev.Place str (pos + 1) count)
    (charEq : charAt str pos = .ok ch) (other : ch ≠ code '\n') :
    dev.Level str (lineEnds str pos) count := by
  refine ⟨pos + 1, place, ?_⟩
  rw [lineEnds_succ charEq, if_neg other, Nat.add_zero]

theorem Place.copyNumberLoop (legal : Legal str) (place : dev.Place str pos count) (fuel i : Nat) :
    Steady str (lineEnds str pos) count (Dev.copyNumberLoop fuel i dev) := by
  induction fuel generalizing i dev pos with
  | zero => trivial
  | succ fuel ih =>
      refine place.getc.bind fun (c, dev) read => ?_
      obtain ⟨charEq, place₁, -⟩ := read
      dsimp only at charEq place₁ ⊢
      rw [legal.toChr charEq]
      split
      · next zero => exact place₁.level_succ charEq (by rw [zero]; decide)
      · split
        · next valid =>
            have other : c ≠ code '\n' := by
              rintro rfl
              exact absurd valid (by decide)
            refine (place₁.putBuffer i _).bind fun dev place₂ => Ensures.any.bind fun ended _ => ?_
            cases ended with
            | true => exact place₂.level_succ charEq other
            | false =>
                have copied := ih place₂ (i + 1)
                rwa [lineEnds_succ charEq, if_neg other, Nat.add_zero] at copied
        · exact (place₁.ungetc c).bind fun (_, dev) place₂ => place₂.level

theorem Place.copyNumber (legal : Legal str) (place : dev.Place str pos count) (op : Chr) :
    Steady str (lineEnds str pos) count (dev.copyNumber op) := by
  unfold Dev.copyNumber
  split
  · exact (place.putBuffer 0 op).bind fun dev place => place.copyNumberLoop legal _ 1
  · exact place.copyNumberLoop legal _ 0

theorem Place.copyAtomLoop (legal : Legal str) (place : dev.Place str pos count) (fuel i : Nat) :
    Steady str (lineEnds str pos) count (Dev.copyAtomLoop fuel i dev) := by
  induction fuel generalizing i dev pos with
  | zero => trivial
  | succ fuel ih =>
      refine place.getc.bind fun (c, dev) read => ?_
      obtain ⟨charEq, place₁, -⟩ := read
      dsimp only at charEq place₁ ⊢
      rw [legal.toChr charEq]
      split
      · next zero => exact place₁.level_succ charEq (by rw [zero]; decide)
      · split
        · exact (place₁.ungetc c).bind fun (_, dev) place₂ => place₂.level
        · next inside =>
            have other : c ≠ code '\n' := by
              rintro rfl
              exact absurd inside (by decide)
            refine (place₁.putBuffer i _).bind fun dev place₂ => Ensures.any.bind fun ended _ => ?_
            cases ended with
            | true => exact place₂.level_succ charEq other
            | false =>
                have copied := ih place₂ (i + 1)
                rwa [lineEnds_succ charEq, if_neg other, Nat.add_zero] at copied

/-- `copy_string` where no line end stands in the literal. -/
theorem Place.copyStringLoop (legal : Legal str) (place : dev.Place str pos count)
    (plain : ¬LineInLiteral (str.drop pos)) (fuel i : Nat) :
    Steady str (lineEnds str pos) count (Dev.copyStringLoop fuel i dev) := by
  induction fuel generalizing i dev pos with
  | zero => trivial
  | succ fuel ih =>
      -- a character has been put behind some that are no line ends
      have goOn {dev : Dev} {pos' : Nat} (n : Nat) (place : dev.Place str pos' count)
          (same : lineEnds str pos' = lineEnds str pos) (plain : ¬LineInLiteral (str.drop pos')) :
          Steady str (lineEnds str pos) count (do
            if ← dev.aklIoEof then return (n, dev)
            Dev.copyStringLoop fuel n dev) := by
        refine Ensures.any.bind fun ended _ => ?_
        cases ended with
        | true => exact ⟨pos', place, same⟩
        | false =>
            have copied := ih place plain n
            rwa [same] at copied
      refine place.getc.bind fun (c, dev) read => ?_
      obtain ⟨charEq, place₁, -⟩ := read
      dsimp only at charEq place₁ ⊢
      rw [legal.toChr charEq]
      split
      · next zero => exact place₁.level_succ charEq (by rw [zero]; decide)
      · next nonzero =>
          rw [legal.drop charEq nonzero] at plain
          have other : c ≠ code '\n' := by
            rintro rfl
            exact plain .newline
          have same : lineEnds str (pos + 1) = lineEnds str pos := by
            rw [lineEnds_succ charEq, if_neg other, Nat.add_zero]
          split
          · next escape =>
              subst escape
              refine place₁.getc.bind fun (c, dev) read => ?_
              obtain ⟨charEq₁, place₂, -⟩ := read
              dsimp only at charEq₁ place₂ ⊢
              rw [legal.toChr charEq₁]
              -- the escaped character may be the NUL
              have other₁ : c ≠ code '\n' := by
                rintro rfl
                rw [legal.drop charEq₁ (by decide)] at plain
                exact plain .escapedNewline
              have same₁ : lineEnds str (pos + 1 + 1) = lineEnds str pos := by
                rw [lineEnds_succ charEq₁, if_neg other₁, Nat.add_zero, same]
              have plain₁ : ¬LineInLiteral (str.drop (pos + 1 + 1)) := by
                intro within
                rcases legal.charAt charEq₁ with ⟨-, empty⟩ | ⟨-, dropEq⟩
                · rw [← List.drop_drop, empty, List.drop_nil] at within
                  cases within
                · rw [dropEq] at plain
                  exact plain (.escaped within)
              split
              · refine (place₂.putBuffer i _).bind fun dev place₃ => ?_
                exact goOn (i + 1) place₃ same₁ plain₁
              · refine (place₂.putBuffer i _).bind fun dev place₃ => ?_
                refine (place₃.putBuffer (i + 1) _).bind fun dev place₄ => ?_
                exact goOn (i + 2) place₄ same₁ plain₁
          · next notEscape =>
              split
              · next notQuote =>
                  refine (place₁.putBuffer i _).bind fun dev place₂ => ?_
                  exact goOn (i + 1) place₂ same fun within =>
                    plain (.plain notEscape notQuote within)
              · exact ⟨pos + 1, place₁, same⟩

theorem Place.lexNumber (legal : Legal str) (place : dev.Place str (pos + 1) count) (op ch : Chr) :
    Steady str (lineEnds str pos) count (dev.lexNumber op ch) := by
  refine (place.ungetc ch).bind fun (_, dev) place => ?_
  exact (place.copyNumber legal op).bind fun (_, dev) level => level

theorem Place.lexString (legal : Legal str) (place : dev.Place str pos count)
    (plain : ¬LineInLiteral (str.drop pos)) :
    Steady str (lineEnds str pos) count dev.lexString := by
  refine place.getc.bind fun (c, dev) read => ?_
  obtain ⟨charEq, place₁, -⟩ := read
  dsimp only at charEq place₁ ⊢
  rw [legal.toChr charEq]
  split
  · next quote => exact place₁.level_succ charEq (by rw [quote]; decide)
  · refine (place₁.ungetc c).bind fun (_, dev) place₂ => ?_
    exact (place₂.copyStringLoop legal plain _ 0).bind fun (_, dev) level => level

theorem Place.lexOpen (legal : Legal str) (place : dev.Place str pos count) :
    Steady str (lineEnds str pos) count dev.lexOpen := by
  have moved : Place { dev with iodColumn := dev.iodCharCount + 1 } str pos count :=
    ⟨place.source, place.line⟩
  refine moved.getc.bind fun (c, dev) read => ?_
  obtain ⟨charEq, place₁, -⟩ := read
  dsimp only at charEq place₁ ⊢
  rw [legal.toChr charEq]
  split
  · next close => exact place₁.level_succ charEq (by rw [close]; decide)
  · exact (place₁.ungetc c).bind fun (_, dev) place₂ => place₂.level

/-- The text of an atom only decides about the token. -/
theorem steady_atomToken {lines : Nat} {x : Except Fault (Nat × Dev)}
    (copied : Steady str lines count x) :
    Steady str lines count (do
      let (_, dev) ← x
      if strcasecmpEq dev.bufferText ("NIL".toList.map code) then return (Token.tNIL, dev)
      else if strcasecmpEq dev.bufferText ("T".toList.map code) then return (Token.tTRUE, dev)
      else return (Token.tATOM, dev)) := by
  refine copied.bind ?_
  rintro ⟨_, dev⟩ level
  dsimp only
  split
  · exact level
  · split
    · exact level
    · exact level

/-- With a sign pending, the character in front of the last one read is no line
end. -/
theorem Place.lexAtom (legal : Legal str) (place : dev.Place str (pos + 1) count)
    (signed : op = 0 ∨ IsSign op ∧ 0 < pos ∧ ∃ c, charAt str (pos - 1) = .ok c ∧ c ≠ code '\n')
    (ch : Chr) :
    Steady str (lineEnds str pos) count (dev.lexAtom op ch) := by
  unfold Dev.lexAtom
  rcases signed with rfl | ⟨isSign, inside, c, charEq, other⟩
  · have noSign : ¬((0 : Chr) = code '+' ∨ (0 : Chr) = code '-') := by decide
    rw [if_neg noSign]
    refine (place.ungetc ch).bind ?_
    rintro ⟨_, dev⟩ place₁
    apply steady_atomToken
    exact place₁.copyAtomLoop legal _ 0
  · have isSign' : op = code '+' ∨ op = code '-' := isSign
    rw [if_pos isSign']
    obtain ⟨before, rfl⟩ : ∃ n, pos = n + 1 := ⟨pos - 1, by omega⟩
    refine (place.ungetc op).bind ?_
    rintro ⟨_, dev⟩ place₁
    refine (place₁.ungetc ch).bind ?_
    rintro ⟨_, dev⟩ place₂
    apply steady_atomToken
    have copied := place₂.copyAtomLoop legal dev.rounds 0
    rw [Nat.add_sub_cancel] at charEq
    rwa [lineEnds_succ charEq, if_neg other, Nat.add_zero]

/-- The skipped part of a shebang line has no line end before its last character. -/
theorem Place.skipShebang (legal : Legal str) (place : dev.Place str pos count) (fuel : Nat) :
    Ensures (fun p => ∃ line pos', p.2.Place str (pos' + 1) count ∧ charAt str pos' = .ok p.1 ∧
        lineEnds str pos' = lineEnds str pos ∧ (p.1 = 0 ∨ p.1 = code '\n') ∧
        (∀ ch ∈ line, ch ≠ code '\n') ∧ str.drop pos = line ++ str.drop pos')
      (Dev.skipShebang fuel dev) := by
  induction fuel generalizing dev pos with
  | zero => trivial
  | succ fuel ih =>
      refine place.getc.bind fun (c, dev) read => ?_
      obtain ⟨charEq, place₁, -⟩ := read
      dsimp only at charEq place₁ ⊢
      rw [legal.toChr charEq]
      split
      · next ends => exact ⟨[], pos, place₁, charEq, rfl, ends, by simp, rfl⟩
      · next inside =>
          obtain ⟨nonzero, other⟩ := not_or.mp inside
          refine (ih place₁).mono fun p found => ?_
          obtain ⟨line, pos', place', charEq', same, ends, plain, dropEq⟩ := found
          refine ⟨c :: line, pos', place', charEq', ?_, ends, ?_, ?_⟩
          · rw [same, lineEnds_succ charEq, if_neg other, Nat.add_zero]
          · exact fun ch mem => (List.mem_cons.mp mem).elim (fun equal => equal ▸ other) (plain ch)
          · rw [legal.drop charEq nonzero, dropEq, List.cons_append]

/-- A comment that is not ended by a line end runs up to the end of the string. -/
theorem Place.skipComment (legal : Legal str) (place : dev.Place str pos count) (fuel : Nat) :
    Ensures (fun p => if p.1 then p.2.Level str (lineEnds str pos) count
        else ∃ line r, (∀ ch ∈ line, ch ≠ code '\n') ∧ str.drop pos = line ++ code '\n' :: r)
      (Dev.skipComment fuel dev) := by
  induction fuel generalizing dev pos with
  | zero => trivial
  | succ fuel ih =>
      refine place.getc.bind fun (c, dev) read => ?_
      obtain ⟨charEq, place₁, -⟩ := read
      dsimp only at charEq place₁ ⊢
      rw [legal.toChr charEq]
      split
      · next newline =>
          subst newline
          exact ⟨[], _, by simp, legal.drop charEq (by decide)⟩
      · next other =>
          refine Ensures.any.bind fun ended _ => ?_
          cases ended with
          | true => exact place₁.level_succ charEq other
          | false =>
              refine (ih place₁).mono fun (ended, dev) found => ?_
              have same : lineEnds str (pos + 1) = lineEnds str pos := by
                rw [lineEnds_succ charEq, if_neg other, Nat.add_zero]
              cases ended with
              | true =>
                  rw [same] at found
                  exact found
              | false =>
                  obtain ⟨line, r, plain, dropEq⟩ := found
                  rcases legal.charAt charEq with ⟨-, empty⟩ | ⟨-, dropEq'⟩
                  · rw [← List.drop_drop, empty, List.drop_nil] at dropEq
                    exact absurd dropEq (by simp)
                  · refine ⟨c :: line, r, ?_, by rw [dropEq', dropEq, List.cons_append]⟩
                    intro ch mem
                    exact (List.mem_cons.mp mem).elim (fun equal => equal ▸ other) (plain ch)

/-- The count of the device is one more than the number of line ends it has read. -/
def Counted (dev : Dev) (str : List Chr) : Prop :=
  ∃ pos, dev.iodSource = .string str pos ∧ dev.iodLineCount = UInt32.ofNat (1 + lineEnds str pos)

theorem Level.counted (level : dev.Level str ends count)
    (countEq : count = UInt32.ofNat (1 + ends)) :
    dev.Counted str := by
  obtain ⟨pos, place, endsEq⟩ := level
  refine ⟨pos, place.source, ?_⟩
  rw [place.line, countEq, endsEq]

/-- What stands in front of the place when a sign is pending: if it is a line end,
there is no atom behind it. -/
structure SignBehind (dev : Dev) (str : List Chr) (pos : Nat) (op : Chr) : Prop where
  sign : IsSign op
  inside : 0 < pos
  char : ∃ c, charAt str (pos - 1) = .ok c ∧
    (c = code '\n' → dev.iodCharCount = 0 ∧
      ∀ ch ∈ (str.drop pos).head?, classOf ch = .atom → ch = code '#')

theorem Place.newline (place : dev.Place str pos count) :
    Place { dev with iodLineCount := dev.iodLineCount + 1, iodCharCount := 0 } str pos
      (count + 1) :=
  ⟨place.source, by rw [place.line]⟩

theorem not_skipsTo_nil {col : Column} {op : Chr} : ¬SkipsTo Miscounts col op [] := by
  intro skips
  cases skips with
  | here found => cases found

theorem succ_line (n : Nat) : UInt32.ofNat n + 1 = UInt32.ofNat (n + 1) := by
  rw [UInt32.ofNat_add]
  rfl

/-- The loop of `akl_lex` keeps the count right where it meets no line end that is
miscounted. -/
theorem Place.lexLoop (legal : Legal str) (place : dev.Place str pos count)
    (behind : op = 0 ∨ SignBehind dev str pos op)
    (safe : ¬SkipsTo Miscounts dev.column op (str.drop pos))
    (counted : count = UInt32.ofNat (1 + lineEnds str pos)) (fuel : Nat) :
    Ensures (fun p => p.2.Counted str) (Dev.lexLoop fuel op dev) := by
  induction fuel generalizing op dev pos count with
  | zero => trivial
  | succ fuel ih =>
      refine place.getc.bind ?_
      rintro ⟨c, dev₁⟩ read
      obtain ⟨charEq, place₁, countEq⟩ := read
      dsimp only at charEq place₁ countEq ⊢
      have columnEq : dev₁.column = dev.column.next := by
        rw [Dev.column, countEq]
        rfl
      rw [legal.toChr charEq]
      split
      · next zero =>
          exact (place₁.level_succ charEq (by rw [zero]; decide)).counted counted
      · next nonzero =>
          have dropEq := legal.drop charEq nonzero
          rw [dropEq] at safe
          by_cases first : dev₁.iodCharCount = 1 ∧ c = code '#'
          · -- a shebang line ends with the NUL or with a line end that is counted
            rw [if_pos first]
            obtain ⟨firstEq, rfl⟩ := first
            have startEq : dev.iodCharCount = 0 := by
              rw [countEq] at firstEq
              simpa using firstEq
            rw [Dev.column, startEq] at safe
            refine (place₁.skipShebang legal _).bind ?_
            rintro ⟨ch, dev₂⟩ found
            obtain ⟨line, pos', place₂, charEq₂, same, ends, plain, dropEq₂⟩ := found
            dsimp only at place₂ charEq₂ ends ⊢
            have same₁ : lineEnds str pos' = lineEnds str pos := by
              rw [same, lineEnds_succ charEq, if_neg (by decide), Nat.add_zero]
            rcases ends with rfl | rfl
            · have empty : str.drop (pos' + 1) = [] := by
                rcases legal.charAt charEq₂ with ⟨-, empty⟩ | ⟨stringChar, -⟩
                · rw [← List.drop_drop, empty, List.drop_nil]
                · exact absurd rfl stringChar.ne_zero
              have notNewline : (0 : Chr) ≠ code '\n' := by decide
              refine ih place₂ ?_ ?_ ?_
              · exact behind.imp id fun sign =>
                  ⟨sign.sign, Nat.succ_pos pos', 0, charEq₂,
                    fun newline => absurd newline notNewline⟩
              · rw [empty]
                exact not_skipsTo_nil
              · rw [lineEnds_succ charEq₂, if_neg notNewline, same₁, counted, Nat.add_zero]
            · have dropEq₃ := legal.drop charEq₂ (by decide)
              rw [dropEq₂, dropEq₃] at safe
              refine ih (place₂.newline) ?_ (fun skips => safe (.shebang plain skips)) ?_
              · refine behind.imp id fun sign =>
                  ⟨sign.sign, Nat.succ_pos pos', _, charEq₂, fun _ => ⟨rfl, fun ch mem kind => ?_⟩⟩
                by_contra notHash
                obtain ⟨r, restEq⟩ := List.head?_eq_some_iff.mp mem
                rw [restEq] at safe
                exact safe (.here (.shebang sign.sign plain kind notHash))
              · rw [lineEnds_succ charEq₂, if_pos rfl, same₁, counted, succ_line, Nat.add_assoc]
          · rw [if_neg first]
            dsimp only [bind, Except.bind]
            by_cases newline : c = code '\n'
            · subst newline
              refine ih place₁.newline ?_ (fun skips => safe (.newline skips)) ?_
              · refine behind.imp id fun sign =>
                  ⟨sign.sign, Nat.succ_pos pos, _, charEq, fun _ => ⟨rfl, fun ch mem kind => ?_⟩⟩
                by_contra notHash
                obtain ⟨r, restEq⟩ := List.head?_eq_some_iff.mp mem
                rw [restEq] at safe
                exact safe (.here (.pushedBack sign.sign kind notHash))
              · rw [lineEnds_succ charEq, if_pos rfl, counted, succ_line, Nat.add_assoc]
            · have same : lineEnds str (pos + 1) = lineEnds str pos := by
                rw [lineEnds_succ charEq, if_neg newline, Nat.add_zero]
              have counted₁ : count = UInt32.ofNat (1 + lineEnds str (pos + 1)) := by
                rw [same, counted]
              have level {dev₂ : Dev} (place₂ : dev₂.Place str (pos + 1) count) :
                  dev₂.Counted str := place₂.level.counted counted₁
              have steady {x : Except Fault (Token × Dev)}
                  (steady : Steady str (lineEnds str (pos + 1)) count x) :
                  Ensures (fun p => p.2.Counted str) x :=
                steady.mono fun _ level => level.counted counted₁
              -- the recursive call behind a character that is skipped
              have skipped {op' : Chr} {dev₂ : Dev} (place₂ : dev₂.Place str (pos + 1) count)
                  (signed : op' = 0 ∨ IsSign op')
                  (safe₂ : ¬SkipsTo Miscounts dev₂.column op' (str.drop (pos + 1))) :
                  Ensures (fun p => p.2.Counted str) (Dev.lexLoop fuel op' dev₂) :=
                ih place₂ (signed.imp id fun isSign =>
                  ⟨isSign, Nat.succ_pos pos, c, charEq, fun equal => absurd equal newline⟩)
                  safe₂ counted₁
              have signed : op = 0 ∨ IsSign op := behind.imp id SignBehind.sign
              cases kind : classOf c with
              | endOfFile => exact level place₁
              | newline => exact absurd (CharClass.is_of_eq kind) newline
              | sign =>
                  have isSign : IsSign c := CharClass.is_of_eq kind
                  dsimp only
                  split
                  · exact (place₁.strcpy _).bind fun dev place₂ => level place₂
                  · next none =>
                      obtain rfl : op = 0 := by simpa using none
                      exact skipped place₁ (.inr isSign)
                        fun skips => safe (.sign isSign (columnEq ▸ skips))
              | digit =>
                  refine (place₁.lexNumber legal op c).mono fun _ level => ?_
                  exact level.counted counted
              | delimiter =>
                  have place₁' : Place { dev₁ with iodColumn := dev₁.iodCharCount + 1 } str
                      (pos + 1) count := ⟨place₁.source, place₁.line⟩
                  dsimp only
                  split
                  · refine (place₁'.strcpy _).bind fun dev place₂ => ?_
                    split
                    · refine (place₂.ungetc c).bind ?_
                      rintro ⟨_, dev⟩ place₃
                      exact place₃.level.counted counted
                    · exact level place₂
                  · next none =>
                      obtain rfl : op = 0 := by simpa using none
                      split
                      · exact level place₁'
                      · next notClose =>
                          rcases CharClass.is_of_eq kind with rfl | close
                          · exact skipped place₁' (.inl rfl)
                              fun skips => safe (.blank (columnEq ▸ skips))
                          · exact absurd close notClose
              | doubleQuote =>
                  cases CharClass.is_of_eq kind
                  exact steady (place₁.lexString legal fun within => safe (.here (.literal within)))
              | opening => exact steady (place₁.lexOpen legal)
              | quote => exact level place₁
              | semicolon =>
                  cases CharClass.is_of_eq kind
                  refine (place₁.skipComment legal _).bind ?_
                  rintro ⟨ended, dev⟩ found
                  cases ended with
                  | true => exact Level.counted found counted₁
                  | false =>
                      obtain ⟨line, r, plain, restEq⟩ := found
                      rw [restEq] at safe
                      exact absurd (.here (.comment plain)) safe
              | atom =>
                  refine (place₁.lexAtom legal ?_ c).mono fun _ level => level.counted counted
                  refine behind.imp id fun sign => ⟨sign.sign, sign.inside, ?_⟩
                  obtain ⟨before, beforeEq, only⟩ := sign.char
                  refine ⟨before, beforeEq, fun isNewline => ?_⟩
                  obtain ⟨startEq, onlyHash⟩ := only isNewline
                  refine first ⟨by rw [countEq, startEq]; rfl, ?_⟩
                  exact onlyHash c (by rw [dropEq]; rfl) kind
              | other =>
                  exact skipped place₁ signed fun skips => safe (.other kind (columnEq ▸ skips))

/-- The next call of `akl_lex` comes to a line end that it miscounts. -/
def Miscounting (dev : Dev) (str : List Chr) : Prop :=
  ∃ pos, dev.iodSource = .string str pos ∧ SkipsTo Miscounts dev.column 0 (str.drop pos)

/-- One call keeps the count right. -/
theorem Counted.aklLex (counted : dev.Counted str) (legal : Legal str)
    (safe : ¬dev.Miscounting str) : Ensures (fun p => p.2.Counted str) dev.aklLex := by
  obtain ⟨pos, source, countEq⟩ := counted
  have started : dev.started.Place str pos (UInt32.ofNat (1 + lineEnds str pos)) ∧
      dev.started.column = dev.column := by
    unfold Dev.started
    split
    · exact ⟨⟨source, countEq⟩, rfl⟩
    · exact ⟨⟨source, countEq⟩, rfl⟩
  unfold Dev.aklLex
  dsimp only
  split
  · exact ⟨pos, started.1.source, started.1.line⟩
  · refine started.1.lexLoop legal (.inl rfl) ?_ rfl _
    rw [started.2]
    exact fun skips => safe ⟨pos, source, skips⟩

/-- The count of the device is one more than the number of line ends in front of
its place in the string. -/
def RightLine (dev : Dev) (str : List Chr) : Prop :=
  ∃ pos, dev.iodSource = .string str pos ∧
    dev.iodLineCount.toNat = 1 + (str.take pos).count (code '\n')

theorem Counted.right (counted : dev.Counted str) (few : 1 + str.count (code '\n') < 2 ^ 32) :
    dev.RightLine str := by
  obtain ⟨pos, source, countEq⟩ := counted
  refine ⟨pos, source, ?_⟩
  have fewer : lineEnds str pos ≤ str.count (code '\n') :=
    (List.take_sublist pos str).count_le _
  rw [countEq, UInt32.toNat_ofNat_of_lt' (by rw [UInt32.size]; omega)]
  rfl

/-- Some calls of `akl_lex`, each of which comes to no line end that it miscounts. -/
theorem Counted.lexCalls (legal : Legal str) {n : Nat} (counted : dev.Counted str)
    (safe : ∀ k < n, ∀ toks dev', Dev.lexCalls k dev = .ok (toks, dev') → ¬dev'.Miscounting str) :
    Ensures (fun p => p.2.Counted str) (Dev.lexCalls n dev) := by
  induction n generalizing dev with
  | zero => exact counted
  | succ n ih =>
      have lexed := counted.aklLex legal (safe 0 (Nat.succ_pos n) [] dev rfl)
      unfold Dev.lexCalls
      cases lexEq : dev.aklLex with
      | error fault => trivial
      | ok p =>
          obtain ⟨tok, dev₁⟩ := p
          have counted₁ : dev₁.Counted str := lexed.ok lexEq
          refine (ih counted₁ fun k below toks dev' calls => ?_).bind fun _ counted => counted
          exact safe (k + 1) (Nat.succ_lt_succ below) _ dev' (lexCalls_succ lexEq calls)

end Dev

/-- The line number is right after every call of a run whose calls come to no line
end in a comment, in a string literal, or between a sign and an atom.  Nothing is asked of the
calls behind, such as the one that comes to the end of the input. -/
theorem line_numbers_right (fresh : Nat → Chr) (text : List Chr) (column : UInt32)
    (backlog : Token) (legal : Legal text) (few : 1 + text.count (code '\n') < 2 ^ 32) (n : Nat)
    (safe : ∀ k < n, ∀ toks dev, Dev.lexCalls k (aklNewStringDevice fresh text column backlog) =
      .ok (toks, dev) → ¬dev.Miscounting text) {toks : List Token} {dev : Dev}
    (calls : Dev.lexCalls n (aklNewStringDevice fresh text column backlog) = .ok (toks, dev)) :
    dev.RightLine text := by
  have start : (aklNewStringDevice fresh text column backlog).Counted text := ⟨0, rfl, rfl⟩
  exact ((start.lexCalls legal safe).ok calls).right few

/-- A parenthesis on the second line. -/
theorem line_numbers_right_open :
    ∃ dev, Dev.lexCalls 1 (aklNewStringDevice (fun _ => 0) [code '\n', code '('] 0 .tEOF) =
        .ok ([.tLBRACE], dev) ∧ dev.RightLine [code '\n', code '('] := by
  obtain ⟨dev, calls⟩ : ∃ dev,
      Dev.lexCalls 1 (aklNewStringDevice (fun _ => 0) [code '\n', code '('] 0 .tEOF) =
        .ok ([.tLBRACE], dev) := ⟨_, rfl⟩
  refine ⟨dev, calls, line_numbers_right _ _ _ _ ?_ (by decide) 1 ?_ calls⟩
  · simp [Legal, IsStringChar, code]
  · rintro k below toks dev' calls' ⟨pos, source, skips⟩
    obtain rfl : k = 0 := by omega
    cases calls'
    cases source
    cases skips with
    | here found =>
        cases found with
        | pushedBack pending => exact pending.ne_zero rfl
    | newline next => cases next.found (by decide)
    | other kind => exact absurd kind (by decide)
    | sign isSign =>
        have other : ¬(code '\n' = code '+' ∨ code '\n' = code '-') := by decide
        exact other isSign

/-- The line end of a comment is not counted. -/
theorem comment_line_uncounted :
    ∃ dev, Dev.lexCalls 1
        (aklNewStringDevice (fun _ => 0) [code ';', code '\n', code '('] 0 .tEOF) =
        .ok ([.tLBRACE], dev) ∧ ¬dev.RightLine [code ';', code '\n', code '('] := by
  obtain ⟨dev, calls, source, line⟩ : ∃ dev,
      Dev.lexCalls 1 (aklNewStringDevice (fun _ => 0) [code ';', code '\n', code '('] 0 .tEOF) =
        .ok ([.tLBRACE], dev) ∧
      dev.iodSource = .string [code ';', code '\n', code '('] 3 ∧ dev.iodLineCount = 1 :=
    ⟨_, rfl, rfl, rfl⟩
  refine ⟨dev, calls, ?_⟩
  rintro ⟨pos, source', right⟩
  cases source.symm.trans source'
  rw [line] at right
  exact absurd right (by decide)

end AkLisp
