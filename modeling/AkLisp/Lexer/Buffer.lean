import AkLisp.Lexer.Scan
import AkLisp.Outcome.Results

/-!
# The lexer and its buffer

`akl_lex` allocates the buffer of a device that has none, and no operation of
the lexer gives it back; so the lexer never writes through a null buffer, and
behind a token there is a buffer to fetch its text from.  A property of the source
that outlasts reading and pushing back a character outlasts the lexer, too.
-/

namespace AkLisp

open Outcome

namespace Source

/-- The property outlasts reading and pushing back a character. -/
structure Kept (S : Source → Prop) : Prop where
  getc : ∀ {s ch s'}, S s → s.getc = .ok (ch, s') → S s'
  ungetc : ∀ {s c ch s'}, S s → s.ungetc c = .ok (ch, s') → S s'

theorem kept_true : Kept fun _ => True :=
  ⟨fun _ _ => trivial, fun _ _ => trivial⟩

theorem charAt_cases (str : List Chr) (pos : Nat) :
    (∃ ch, charAt str pos = .ok ch) ∨ charAt str pos = .error .outOfBounds := by
  unfold charAt
  split
  · exact .inl ⟨_, rfl⟩
  · exact .inr rfl

theorem getc_ne (s : Source) : s.getc ≠ .error .nullDeref := by
  cases s with
  | file pending eofSeen => cases pending <;> simp [Source.getc]
  | string str pos =>
      rcases charAt_cases str pos with ⟨ch, charEq⟩ | charEq
      · simp [Source.getc, charEq, bind, Except.bind, pure, Except.pure]
      · simp [Source.getc, charEq, bind, Except.bind]

theorem ungetc_ne (s : Source) (c : Chr) : s.ungetc c ≠ .error .nullDeref := by
  cases s with
  | file pending eofSeen =>
      by_cases isEof : c = eof
      · simp [Source.ungetc, isEof]
      · simp [Source.ungetc, isEof]
  | string str pos =>
      cases pos with
      | zero => simp [Source.ungetc]
      | succ pos =>
          rcases charAt_cases str pos with ⟨ch, charEq⟩ | charEq
          · simp [Source.ungetc, charEq, bind, Except.bind, pure, Except.pure]
          · simp [Source.ungetc, charEq, bind, Except.bind]

end Source

namespace Dev

/-- The device has a buffer. -/
def HasBuffer (dev : Dev) : Prop := dev.iodBuffer ≠ none

/-- A computation of the lexer dereferences no null pointer and leaves a buffer. -/
abbrev Sound {α : Type} (x : Except Fault (α × Dev)) : Prop :=
  Avoids .nullDeref (fun r => r.2.HasBuffer) x

/-- The device has a buffer, and its source has the property. -/
structure Usable (dev : Dev) (S : Source → Prop) : Prop where
  buffer : dev.HasBuffer
  source : S dev.iodSource

/-- A computation of the lexer dereferences no null pointer and leaves the device
usable. -/
abbrev Keeps (S : Source → Prop) {α : Type} (x : Except Fault (α × Dev)) : Prop :=
  Avoids .nullDeref (fun r => r.2.Usable S) x

variable {dev : Dev} {S : Source → Prop}

theorem Usable.getc (has : dev.Usable S) (kept : Source.Kept S) : Keeps S dev.aklIoGetc := by
  unfold Dev.aklIoGetc
  cases getcEq : dev.iodSource.getc with
  | error f => exact fun equal => dev.iodSource.getc_ne (equal ▸ getcEq)
  | ok p => exact ⟨has.buffer, kept.getc has.source getcEq⟩

theorem Usable.ungetc (has : dev.Usable S) (kept : Source.Kept S) (ch : Chr) :
    Keeps S (dev.aklIoUngetc ch) := by
  unfold Dev.aklIoUngetc
  cases ungetcEq : dev.iodSource.ungetc ch with
  | error f => exact fun equal => dev.iodSource.ungetc_ne ch (equal ▸ ungetcEq)
  | ok p => exact ⟨has.buffer, kept.ungetc has.source ungetcEq⟩

theorem avoids_eof (dev : Dev) : Avoids .nullDeref (fun _ => True) dev.aklIoEof := by
  unfold Dev.aklIoEof
  cases dev.iodSource with
  | file pending eofSeen => trivial
  | string str pos =>
      simp only [Source.eof?, charAt]
      cases (str ++ [0])[pos]? with
      | none => exact Fault.noConfusion
      | some ch => trivial

theorem Usable.putBuffer (has : dev.Usable S) (pos : Nat) (ch : Chr) :
    Avoids .nullDeref (Usable · S) (dev.putBuffer pos ch) := by
  unfold Dev.putBuffer
  cases buffer : dev.iodBuffer with
  | none => exact absurd buffer has.buffer
  | some block =>
      dsimp only
      generalize (if block.length ≤ pos + 1 then _ else block) = grown
      split
      · exact ⟨Option.some_ne_none _, has.source⟩
      · exact Fault.noConfusion

theorem Usable.strcpy (has : dev.Usable S) (text : List Chr) :
    Avoids .nullDeref (Usable · S) (dev.strcpy text) := by
  unfold Dev.strcpy
  cases buffer : dev.iodBuffer with
  | none => exact absurd buffer has.buffer
  | some block =>
      dsimp only
      split
      · exact ⟨Option.some_ne_none _, has.source⟩
      · exact Fault.noConfusion

theorem Usable.copyNumberLoop (has : dev.Usable S) (kept : Source.Kept S) (fuel i : Nat) :
    Keeps S (Dev.copyNumberLoop fuel i dev) := by
  induction fuel generalizing i dev with
  | zero => exact Fault.noConfusion
  | succ fuel ih =>
      refine (has.getc kept).bind fun (ch, dev) has => ?_
      dsimp only
      split
      · exact has
      · split
        · refine (has.putBuffer i _).bind fun dev has => dev.avoids_eof.bind fun ended _ => ?_
          cases ended with
          | true => exact has
          | false => exact ih has (i + 1)
        · exact (has.ungetc kept ch).bind fun (_, dev) has => has

theorem Usable.copyNumber (has : dev.Usable S) (kept : Source.Kept S) (op : Chr) :
    Keeps S (dev.copyNumber op) := by
  unfold Dev.copyNumber
  split
  · exact (has.putBuffer 0 op).bind fun dev has => has.copyNumberLoop kept _ 1
  · exact has.copyNumberLoop kept _ 0

theorem Usable.copyStringLoop (has : dev.Usable S) (kept : Source.Kept S) (fuel i : Nat) :
    Keeps S (Dev.copyStringLoop fuel i dev) := by
  -- a character has been put, and the loop goes on unless the input has ended
  have put (fuel : Nat) (ih : ∀ {dev : Dev}, dev.Usable S → ∀ i,
      Keeps S (Dev.copyStringLoop fuel i dev)) (n : Nat) (dev : Dev) (has : dev.Usable S) :
      Keeps S (do if ← dev.aklIoEof then return (n, dev) else Dev.copyStringLoop fuel n dev) := by
    refine dev.avoids_eof.bind fun ended _ => ?_
    cases ended with
    | true => exact has
    | false => exact ih has n
  induction fuel generalizing i dev with
  | zero => exact Fault.noConfusion
  | succ fuel ih =>
      refine (has.getc kept).bind fun (c, dev) has => ?_
      dsimp only
      split
      · exact has
      · split
        · refine (has.getc kept).bind fun (c, dev) has => ?_
          dsimp only
          split
          · exact (has.putBuffer i _).bind fun dev has => put fuel (fun has i => ih has i) _ dev has
          · refine (has.putBuffer i _).bind fun dev has => ?_
            exact (has.putBuffer (i + 1) _).bind fun dev has =>
              put fuel (fun has i => ih has i) _ dev has
        · split
          · exact (has.putBuffer i _).bind fun dev has => put fuel (fun has i => ih has i) _ dev has
          · exact has

theorem Usable.copyAtomLoop (has : dev.Usable S) (kept : Source.Kept S) (fuel i : Nat) :
    Keeps S (Dev.copyAtomLoop fuel i dev) := by
  induction fuel generalizing i dev with
  | zero => exact Fault.noConfusion
  | succ fuel ih =>
      refine (has.getc kept).bind fun (c, dev) has => ?_
      dsimp only
      split
      · exact has
      · split
        · exact (has.ungetc kept _).bind fun (_, dev) has => has
        · refine (has.putBuffer i _).bind fun dev has => dev.avoids_eof.bind fun ended _ => ?_
          cases ended with
          | true => exact has
          | false => exact ih has (i + 1)

theorem Usable.skipShebang (has : dev.Usable S) (kept : Source.Kept S) (fuel : Nat) :
    Keeps S (Dev.skipShebang fuel dev) := by
  induction fuel generalizing dev with
  | zero => exact Fault.noConfusion
  | succ fuel ih =>
      refine (has.getc kept).bind fun (c, dev) has => ?_
      dsimp only
      split
      · exact has
      · exact ih has

theorem Usable.skipComment (has : dev.Usable S) (kept : Source.Kept S) (fuel : Nat) :
    Keeps S (Dev.skipComment fuel dev) := by
  induction fuel generalizing dev with
  | zero => exact Fault.noConfusion
  | succ fuel ih =>
      refine (has.getc kept).bind fun (c, dev) has => ?_
      dsimp only
      split
      · exact has
      · refine dev.avoids_eof.bind fun ended _ => ?_
        cases ended with
        | true => exact has
        | false => exact ih has

theorem Usable.lexString (has : dev.Usable S) (kept : Source.Kept S) : Keeps S dev.lexString := by
  refine (has.getc kept).bind fun (c, dev) has => ?_
  dsimp only
  split
  · exact has
  · refine (has.ungetc kept _).bind fun (_, dev) has => ?_
    exact (has.copyStringLoop kept _ 0).bind fun (_, dev) has => has

theorem Usable.lexOpen (has : dev.Usable S) (kept : Source.Kept S) : Keeps S dev.lexOpen := by
  have moved : Usable { dev with iodColumn := dev.iodCharCount + 1 } S :=
    ⟨has.buffer, has.source⟩
  refine (moved.getc kept).bind fun (c, dev) has => ?_
  dsimp only
  split
  · exact has
  · exact (has.ungetc kept _).bind fun (_, dev) has => has

theorem Usable.lexAtom (has : dev.Usable S) (kept : Source.Kept S) (op ch : Chr) :
    Keeps S (dev.lexAtom op ch) := by
  refine Avoids.bindIte (has.ungetc kept op) (y := .ok (0, dev)) has fun (_, dev) has => ?_
  refine (has.ungetc kept ch).bind fun (_, dev) has => ?_
  refine (has.copyAtomLoop kept _ 0).bind fun (_, dev) has => ?_
  dsimp only
  split
  · exact has
  · split <;> exact has

theorem Usable.lexLoop (has : dev.Usable S) (kept : Source.Kept S) (fuel : Nat) (op : Chr) :
    Keeps S (Dev.lexLoop fuel op dev) := by
  induction fuel generalizing op dev with
  | zero => exact Fault.noConfusion
  | succ fuel ih =>
      refine (has.getc kept).bind fun (c, dev) has => ?_
      dsimp only
      split
      · exact has
      · refine Avoids.bindIte (has.skipShebang kept _) (y := .ok (toChr c, dev)) has
          fun (ch, dev) has => ?_
        dsimp only
        cases classOf ch with
        | endOfFile => exact has
        | newline =>
            have moved : Usable
                { dev with iodLineCount := dev.iodLineCount + 1, iodCharCount := 0 } S :=
              ⟨has.buffer, has.source⟩
            exact ih moved op
        | sign =>
            dsimp only
            split
            · exact (has.strcpy _).bind fun dev has => has
            · exact ih has ch
        | digit =>
            refine (has.ungetc kept ch).bind fun (_, dev) has => ?_
            exact (has.copyNumber kept op).bind fun (_, dev) has => has
        | delimiter =>
            have moved : Usable { dev with iodColumn := dev.iodCharCount + 1 } S :=
              ⟨has.buffer, has.source⟩
            dsimp only
            split
            · refine (moved.strcpy _).bind fun dev has => ?_
              split
              · exact (has.ungetc kept ch).bind fun (_, dev) has => has
              · exact has
            · split
              · exact moved
              · exact ih moved op
        | doubleQuote => exact has.lexString kept
        | opening => exact has.lexOpen kept
        | quote => exact has
        | semicolon =>
            refine (has.skipComment kept _).bind fun (ended, dev) has => ?_
            cases ended with
            | true => exact has
            | false => exact ih has op
        | atom => exact has.lexAtom kept op ch
        | other => exact ih has op

theorem started_hasBuffer (dev : Dev) : dev.started.HasBuffer := by
  unfold started
  split
  · exact Option.some_ne_none _
  · next has =>
      intro none
      rw [none] at has
      exact has rfl

theorem started_usable (dev : Dev) (holds : S dev.iodSource) : dev.started.Usable S := by
  refine ⟨dev.started_hasBuffer, ?_⟩
  unfold started
  split
  · exact holds
  · exact holds

/-- `akl_lex` dereferences no null pointer and leaves the device usable. -/
theorem aklLex_keeps (dev : Dev) (kept : Source.Kept S) (holds : S dev.iodSource) :
    Keeps S dev.aklLex := by
  have has := dev.started_usable holds
  unfold Dev.aklLex
  dsimp only
  split
  · exact ⟨has.buffer, has.source⟩
  · exact has.lexLoop kept _ 0

/-- `akl_lex` dereferences no null pointer and leaves a buffer. -/
theorem aklLex_hasBuffer (dev : Dev) : Sound dev.aklLex :=
  (dev.aklLex_keeps Source.kept_true trivial).mono fun _ usable => usable.buffer

/-- Where there is a buffer, its text is fetched without dereferencing a null
pointer. -/
theorem HasBuffer.takeText (has : dev.HasBuffer) : dev.takeText ≠ .error .nullDeref := by
  unfold Dev.takeText
  cases buffer : dev.iodBuffer with
  | none => exact absurd buffer has
  | some block =>
      dsimp only
      split <;> simp

end Dev

end AkLisp
