import AkLisp.Lexer.Cut
import AkLisp.Lexer.FileEnd
import AkLisp.Lexer.Progress
import Mathlib.Data.List.TakeWhile

/-!
# Where files and strings go apart

At each place where a file and a string may differ they do: the calls of `akl_lex`
return different tokens or buffers, leave different texts to be read, or one of
them does not return.  So the two devices are in step exactly if no call comes to
such a place.
-/

namespace AkLisp

open Outcome

namespace Dev

variable {dev dev' : Dev} {col col' : Column} {r r' p done str : List Chr} {c ch op : Chr}

/-- There is only one text a device is about to read. -/
theorem At.unique (at_ : dev.At col r) (at' : dev.At col' r') : r = r' := by
  have source := at_.source
  have source' := at'.source
  cases sourceEq : dev.iodSource with
  | file pending eofSeen =>
      rw [sourceEq] at source source'
      exact source.1.symm.trans source'.1
  | string str pos =>
      rw [sourceEq] at source source'
      rcases source with ⟨before, strEq, posEq⟩
      rcases source' with ⟨before', strEq', posEq'⟩
      exact (List.append_inj (strEq.symm.trans strEq') (posEq.symm.trans posEq')).2

theorem At.usable (at_ : dev.At col r) {S : Source → Prop} (holds : S dev.iodSource) :
    dev.Usable S := by
  rcases at_.room with ⟨block, buffer, -⟩
  exact ⟨by simp [HasBuffer, buffer], holds⟩

/-- A round of the loop of `akl_lex` reads a character and branches on its class. -/
theorem At.round (at_ : dev.At col (c :: r)) {S : Source → Prop} (kept : Source.Kept S)
    (holds : S dev.iodSource) {fuel : Nat} (enough : (c :: r).length < fuel) (op : Chr)
    (plain : c ≠ code '#') :
    ∃ dev₁ fuel₁, dev₁.Past col c r ∧ dev₁.Usable S ∧ r.length < fuel₁ ∧
      lexLoop fuel op dev = lexBranch fuel₁ op c dev₁ := by
  rcases at_.getc with ⟨dev₁, getcEq, past, -⟩
  have legal := past.chars c List.mem_cons_self
  obtain ⟨fuel, rfl⟩ : ∃ n, fuel = n + 1 := ⟨fuel - 1, by omega⟩
  refine ⟨dev₁, fuel, past, ((at_.usable holds).getc kept).ok getcEq, by simpa using enough, ?_⟩
  rw [lexLoop_succ, getcEq]
  simp only [bind, Except.bind, legal.toChr, if_neg legal.ne_zero, plain, and_false, if_false]

/-- The device reads a file. -/
def IsFile : Source → Prop
  | .file _ _ => True
  | .string _ _ => False

theorem kept_isFile : Source.Kept IsFile where
  getc := by
    intro s c s' isFile getcEq
    cases s with
    | string str pos => exact False.elim isFile
    | file pending eofSeen =>
        cases pending with
        | nil =>
            cases getcEq
            trivial
        | cons ch pending =>
            cases getcEq
            trivial
  ungetc := by
    intro s x c s' isFile ungetcEq
    cases s with
    | string str pos => exact False.elim isFile
    | file pending eofSeen =>
        simp only [Source.ungetc] at ungetcEq
        split at ungetcEq
        · cases ungetcEq
          trivial
        · cases ungetcEq
          trivial

theorem At.onFile (at_ : dev.At col r) (isFile : IsFile dev.iodSource) : dev.OnFile r := by
  refine ⟨?_, at_.room, at_.backlog⟩
  have source := at_.source
  cases sourceEq : dev.iodSource with
  | string str pos =>
      rw [sourceEq] at isFile
      exact False.elim isFile
  | file pending eofSeen =>
      rw [sourceEq] at source
      rcases source with ⟨rfl, seen, -⟩
      exact ⟨eofSeen, rfl, seen⟩

theorem OnFile.unique (onFile : dev.OnFile r) (at_ : dev.At col r') : r = r' := by
  rcases onFile.source with ⟨seen, source, -⟩
  have source' := at_.source
  rw [source] at source'
  exact source'.1

end Dev

open Dev in
/-- The loop of `akl_lex` goes on at the place it skips to. -/
theorem SkipsTo.reaches {stop : Column → Chr → List Chr → Prop} {col : Column} {op : Chr}
    {r : List Chr} (skips : SkipsTo stop col op r) {dev : Dev} (at_ : dev.At col r)
    {S : Source → Prop} (kept : Source.Kept S) (holds : S dev.iodSource) {fuel : Nat}
    (enough : r.length < fuel) :
    ∃ col' op' r' dev' fuel', stop col' op' r' ∧ dev'.At col' r' ∧ S dev'.iodSource ∧
      r'.length < fuel' ∧ lexLoop fuel op dev = lexLoop fuel' op' dev' := by
  induction skips generalizing dev fuel with
  | here found => exact ⟨_, _, _, dev, fuel, found, at_, holds, enough, rfl⟩
  | newline next ih =>
      rcases at_.round kept holds enough _ (by decide) with
        ⟨dev₁, fuel, past, usable₁, enough₁, stepEq⟩
      have kind : classOf (code '\n') = .newline := by decide
      rw [stepEq, lexBranch, kind]
      exact ih past.at.newline usable₁.source enough₁
  | @shebang op line r inside next ih =>
      rcases at_.getc with ⟨dev₁, getcEq, past, -⟩
      have usable₁ := ((at_.usable holds).getc kept).ok getcEq
      simp only [List.length_cons, List.length_append] at enough
      obtain ⟨fuel, rfl⟩ : ∃ n, fuel = n + 1 := ⟨fuel - 1, by omega⟩
      have rounds := past.at.rounds
      simp only [List.length_append] at rounds
      rcases past.at.skipShebang inside (show line.length < dev₁.rounds by omega) with
        ⟨dev₂, skipEq, at₂, -⟩
      have holds₂ := ((usable₁.skipShebang kept _).ok skipEq).source
      have legal := past.chars _ List.mem_cons_self
      have first : dev₁.iodCharCount = 1 := by simpa using past.column 0 rfl
      have kind : classOf (code '\n') = .newline := by decide
      have stepEq : lexLoop (fuel + 1) op dev = lexLoop fuel op
          { dev₂ with iodLineCount := dev₂.iodLineCount + 1, iodCharCount := 0 } := by
        rw [lexLoop, getcEq]
        simp only [bind, Except.bind, legal.toChr, if_neg legal.ne_zero, first, and_true, if_true,
          skipEq, kind]
      rw [stepEq]
      exact ih at₂.newline holds₂ (by omega)
  | @comment col op line r inside next ih =>
      rcases at_.round kept holds enough op (by decide) with
        ⟨dev₁, fuel, past, usable₁, enough₁, stepEq⟩
      simp only [List.length_append, List.length_cons] at enough₁
      have rounds := past.at.rounds
      simp only [List.length_append] at rounds
      rcases past.at.skipComment inside (show line.length < dev₁.rounds by omega) with
        ⟨dev₂, skipEq, at₂, -⟩
      have holds₂ := ((usable₁.skipComment kept _).ok skipEq).source
      have kind : classOf (code ';') = .semicolon := by decide
      rw [stepEq, lexBranch, kind]
      simp only [skipEq, bind, Except.bind, Bool.false_eq_true, if_false]
      exact ih at₂ holds₂ (by omega)
  | other kind next ih =>
      rcases at_.round kept holds enough _ (ne_hash_of_class (by rw [kind]; decide)) with
        ⟨dev₁, fuel, past, usable₁, enough₁, stepEq⟩
      rw [stepEq, lexBranch, kind]
      exact ih past.at usable₁.source enough₁
  | blank next ih =>
      rcases at_.round kept holds enough _ (by decide) with
        ⟨dev₁, fuel, past, usable₁, enough₁, stepEq⟩
      have kind : classOf (code ' ') = .delimiter := by decide
      have notClose : code ' ' ≠ code ')' := by decide
      rw [stepEq, lexBranch, kind]
      simp only [ne_eq, not_true, if_false, if_neg notClose]
      exact ih (past.at.withColumn (dev₁.iodCharCount + 1)) usable₁.source enough₁
  | sign isSign next ih =>
      rcases at_.round kept holds enough _ isSign.not_hash with
        ⟨dev₁, fuel, past, usable₁, enough₁, stepEq⟩
      rw [stepEq, lexBranch, isSign.classOf]
      simp only [ne_eq, not_true, if_false]
      exact ih past.at usable₁.source enough₁

namespace Dev

variable {dev dev' : Dev} {col col' : Column} {r r' p done str : List Chr} {c ch op : Chr}
    {k : UInt32}

theorem Holds.bufferText (holds : dev.Holds done) (nonempty : done ≠ [])
    (noNul : ∀ c ∈ done, c ≠ 0) : dev.bufferText = done := by
  rcases holds with ⟨block, buffer, filled⟩
  rw [Dev.bufferText, buffer, Option.getD_some, (filled.takeWhile nonempty noNul).1]

/-- Reading a character of a file: the end is not seen by that. -/
theorem OnFile.read (onFile : dev.OnFile (c :: p)) (holds : dev.Holds done) :
    ∃ dev₁, dev.aklIoGetc = .ok (c, dev₁) ∧ dev₁.OnFile p ∧ dev₁.Holds done ∧
      dev₁.aklIoEof = .ok false := by
  rcases onFile.source with ⟨seen, source, atEnd⟩
  cases seen with
  | true => cases atEnd rfl
  | false =>
      refine ⟨{ dev with iodSource := .file p false, iodCharCount := dev.iodCharCount + 1 }, ?_,
        ⟨⟨false, rfl, Bool.noConfusion⟩, onFile.room, onFile.backlog⟩, holds, rfl⟩
      rw [aklIoGetc, source]
      rfl

/-- Reading on at the end of a file. -/
theorem OnFile.read_nil (onFile : dev.OnFile []) (holds : dev.Holds done) :
    ∃ dev₁, dev.aklIoGetc = .ok (AkLisp.eof, dev₁) ∧ dev₁.OnFile [] ∧ dev₁.Holds done ∧
      dev₁.aklIoEof = .ok true := by
  rcases onFile.getc_nil.exists with ⟨⟨a, dev₁⟩, getcEq, isEof, onFile₁, bufferEq, seen⟩
  obtain rfl : a = AkLisp.eof := isEof
  exact ⟨dev₁, getcEq, onFile₁, holds.of_buffer bufferEq, seen⟩

/-- An ASCII character that is pushed back is read again. -/
theorem OnFile.unread (onFile : dev.OnFile p) (ascii : IsAscii c) :
    ∃ x dev₁, dev.aklIoUngetc c = .ok (x, dev₁) ∧ dev₁.OnFile (c :: p) ∧
      dev₁.iodBuffer = dev.iodBuffer := by
  rcases (onFile.ungetc c).exists with ⟨⟨x, dev₁⟩, ungetcEq, onFile₁, bufferEq⟩
  have notEof : c ≠ AkLisp.eof := by
    rintro rfl
    exact absurd ascii.1 (by decide)
  have byteEq : c % 256 = c := by
    unfold IsAscii at ascii
    grind
  rw [if_neg notEof, byteEq] at onFile₁
  exact ⟨x, dev₁, ungetcEq, onFile₁, bufferEq⟩

/-- What `copy_atom` puts behind an atom in a file: `EOF` as a character, if the atom
runs up to the end. -/
def atomTail (r : List Chr) : List Chr := if atomRest r = [] then [AkLisp.eof] else []

/-- `copy_atom` on a file. -/
theorem OnFile.copiesAtom (onFile : dev.OnFile r) (ascii : ∀ c ∈ r, IsAscii c)
    (holds : dev.Holds done) {fuel : Nat} (enough : r.length < fuel) :
    ∃ n dev', Dev.copyAtomLoop fuel done.length dev = .ok (n, dev') ∧ dev'.OnFile (atomRest r) ∧
      dev'.Holds (done ++ ((atomName r).map tolower ++ atomTail r)) := by
  induction r generalizing dev done fuel with
  | nil =>
      obtain ⟨fuel, rfl⟩ : ∃ n, fuel = n + 1 := ⟨fuel - 1, by omega⟩
      rcases onFile.read_nil holds with ⟨dev₁, getcEq, onFile₁, holds₁, -⟩
      rcases onFile.read_nil holds with ⟨dev₁', getcEq', -, -, eofEq⟩
      cases getcEq.symm.trans getcEq'
      rcases (onFile₁.put holds₁ (tolower (toChr AkLisp.eof))).exists with
        ⟨dev₂, putEq, onFile₂, holds₂, eofEq₂⟩
      have inner : toChr AkLisp.eof ≠ 0 ∧ endsAtom (toChr AkLisp.eof) = false := by decide
      refine ⟨done.length + 1, dev₂, ?_, onFile₂, holds₂⟩
      simp only [Dev.copyAtomLoop, getcEq, bind, Except.bind, if_neg inner.1, inner.2,
        Bool.false_eq_true, if_false, putEq, eofEq₂, eofEq, if_true, pure, Except.pure]
  | cons c r ih =>
      simp only [List.length_cons] at enough
      obtain ⟨fuel, rfl⟩ : ∃ n, fuel = n + 1 := ⟨fuel - 1, by omega⟩
      have legal := (ascii c (by simp)).isStringChar
      rcases onFile.read holds with ⟨dev₁, getcEq, onFile₁, holds₁, eofEq⟩
      cases ends : endsAtom c with
      | true =>
          rcases onFile₁.unread (ascii c (by simp)) with ⟨x, dev₂, ungetcEq, onFile₂, bufferEq⟩
          have nameEq : atomName (c :: r) = [] := by simp [atomName, ends]
          have restEq : atomRest (c :: r) = c :: r := by simp [atomRest, ends]
          refine ⟨done.length, dev₂, ?_, by rwa [restEq], ?_⟩
          · simp only [Dev.copyAtomLoop, getcEq, bind, Except.bind, legal.toChr,
              if_neg legal.ne_zero, ends, if_true, ungetcEq, pure, Except.pure]
          · simpa [nameEq, atomTail, restEq] using holds₁.of_buffer bufferEq
      | false =>
          rcases (onFile₁.put holds₁ (tolower c)).exists with
            ⟨dev₂, putEq, onFile₂, holds₂, eofEq₂⟩
          rcases ih onFile₂ (fun c mem => ascii c (List.mem_cons_of_mem _ mem)) holds₂
            (show r.length < fuel by omega) with ⟨n, dev', loopEq, onFile', holds'⟩
          have nameEq : atomName (c :: r) = c :: atomName r := by simp [atomName, ends]
          have restEq : atomRest (c :: r) = atomRest r := by simp [atomRest, ends]
          rw [List.length_append, List.length_singleton] at loopEq
          refine ⟨n, dev', ?_, by rwa [restEq], ?_⟩
          · simp only [Dev.copyAtomLoop, getcEq, bind, Except.bind, legal.toChr,
              if_neg legal.ne_zero, ends, putEq, eofEq₂, eofEq, Bool.false_eq_true, if_false,
              loopEq]
          · simpa [nameEq, atomTail, restEq] using holds'

/-- The string behind an opening quote is not closed. -/
def Unclosed (raw : List Chr) : Prop :=
  ∀ body text r, raw = body ++ code '"' :: r → ¬StringBody body text

theorem Unclosed.head {raw : List Chr} (unclosed : Unclosed (c :: raw)) : c ≠ code '"' := by
  rintro rfl
  exact unclosed [] [] raw rfl .nil

theorem Unclosed.plain {raw : List Chr} (unclosed : Unclosed (c :: raw))
    (notEscape : c ≠ code '\\') : Unclosed raw :=
  fun body text r equal isBody => unclosed (c :: body) (c :: text) r (by rw [equal]; rfl)
    (.plain notEscape unclosed.head isBody)

theorem Unclosed.escape {raw : List Chr} (unclosed : Unclosed (code '\\' :: c :: raw)) :
    Unclosed raw := by
  intro body text r equal isBody
  by_cases quote : c = code '"'
  · subst quote
    exact unclosed (code '\\' :: code '"' :: body) (code '"' :: text) r (by rw [equal]; rfl)
      (.quote isBody)
  · exact unclosed (code '\\' :: c :: body) (code '\\' :: c :: text) r (by rw [equal]; rfl)
      (.escape quote isBody)

/-- `copy_string` on a file, in a string that is not closed, puts `EOF` into the
buffer as a character. -/
theorem OnFile.copiesString {raw : List Chr} (onFile : dev.OnFile raw) (unclosed : Unclosed raw)
    (ascii : ∀ c ∈ raw, IsAscii c) (holds : dev.Holds done) (noNul : ∀ c ∈ done, c ≠ 0)
    {fuel : Nat} (enough : raw.length < fuel) :
    ∃ n dev', Dev.copyStringLoop fuel done.length dev = .ok (n, dev') ∧
      AkLisp.eof ∈ dev'.bufferText := by
  induction lengthEq : raw.length using Nat.strong_induction_on
    generalizing raw dev done fuel with
  | _ n ih =>
    obtain ⟨fuel, rfl⟩ : ∃ n, fuel = n + 1 := ⟨fuel - 1, by omega⟩
    have eofChar : toChr AkLisp.eof = AkLisp.eof ∧ AkLisp.eof ≠ 0 ∧ AkLisp.eof ≠ code '\\' ∧
      AkLisp.eof ≠ code '"' := by decide
    have escapeChar : toChr (code '\\') = code '\\' ∧ code '\\' ≠ 0 := by decide
    -- the loop ends with the character that stands for `EOF`
    have ended {dev₂ : Dev} {done₂ : List Chr} (holds₂ : dev₂.Holds (done₂ ++ [AkLisp.eof]))
        (noNul₂ : ∀ c ∈ done₂, c ≠ 0) : AkLisp.eof ∈ dev₂.bufferText := by
      rw [holds₂.bufferText (by simp) (by simpa [or_imp, forall_and] using ⟨noNul₂, by decide⟩)]
      simp
    cases raw with
    | nil =>
        rcases onFile.read_nil holds with ⟨dev₁, getcEq, onFile₁, holds₁, eofEq⟩
        rcases (onFile₁.put holds₁ AkLisp.eof).exists with ⟨dev₂, putEq, -, holds₂, eofEq₂⟩
        refine ⟨done.length + 1, dev₂, ?_, ended holds₂ noNul⟩
        simp only [Dev.copyStringLoop, getcEq, bind, Except.bind, eofChar, if_false, ne_eq,
          not_false_eq_true, if_true, putEq, eofEq₂, eofEq, pure, Except.pure]
    | cons c raw =>
        simp only [List.length_cons] at enough lengthEq
        have legal := (ascii c (by simp)).isStringChar
        rcases onFile.read holds with ⟨dev₁, getcEq, onFile₁, holds₁, eofEq⟩
        by_cases escape : c = code '\\'
        · subst escape
          cases raw with
          | nil =>
              rcases onFile₁.read_nil holds₁ with ⟨dev₂, getcEq₂, onFile₂, holds₂, eofEq₂⟩
              rcases (onFile₂.put holds₂ (code '\\')).exists with
                ⟨dev₃, putEq, onFile₃, holds₃, eofEq₃⟩
              rcases (onFile₃.put holds₃ AkLisp.eof).exists with ⟨dev₄, putEq₂, -, holds₄, eofEq₄⟩
              rw [List.length_append, List.length_singleton] at putEq₂
              refine ⟨done.length + 2, dev₄, ?_, ended holds₄ ?_⟩
              · simp only [Dev.copyStringLoop, getcEq, bind, Except.bind, escapeChar, if_false,
                  if_true, getcEq₂, eofChar, putEq, putEq₂, eofEq₄, eofEq₃, eofEq₂, pure,
                  Except.pure]
              · simpa [or_imp, forall_and] using ⟨noNul, by decide⟩
          | cons c raw =>
              simp only [List.length_cons] at enough lengthEq
              have legal₂ := (ascii c (by simp)).isStringChar
              have ascii₂ : ∀ c ∈ raw, IsAscii c := fun c mem => ascii c (by simp [mem])
              rcases onFile₁.read holds₁ with ⟨dev₂, getcEq₂, onFile₂, holds₂, eofEq₂⟩
              by_cases quote : c = code '"'
              · rcases (onFile₂.put holds₂ c).exists with ⟨dev₃, putEq, onFile₃, holds₃, eofEq₃⟩
                rcases ih raw.length (by omega) onFile₃ unclosed.escape ascii₂ holds₃
                  (by simpa [or_imp, forall_and] using ⟨noNul, legal₂.ne_zero⟩)
                  (show raw.length < fuel by omega) rfl with ⟨n, dev', loopEq, found⟩
                rw [List.length_append, List.length_singleton] at loopEq
                refine ⟨n, dev', ?_, found⟩
                simp only [Dev.copyStringLoop, getcEq, bind, Except.bind, escapeChar, if_false,
                  if_true, getcEq₂, legal₂.toChr, if_pos quote, putEq, eofEq₃, eofEq₂,
                  Bool.false_eq_true, loopEq]
              · rcases (onFile₂.put holds₂ (code '\\')).exists with
                  ⟨dev₃, putEq, onFile₃, holds₃, eofEq₃⟩
                rcases (onFile₃.put holds₃ c).exists with ⟨dev₄, putEq₂, onFile₄, holds₄, eofEq₄⟩
                rcases ih raw.length (by omega) onFile₄ unclosed.escape ascii₂ holds₄
                  (by simpa [or_imp, forall_and] using ⟨noNul, by decide, legal₂.ne_zero⟩)
                  (show raw.length < fuel by omega) rfl with ⟨n, dev', loopEq, found⟩
                simp only [List.length_append, List.length_singleton] at loopEq putEq₂
                refine ⟨n, dev', ?_, found⟩
                simp only [Dev.copyStringLoop, getcEq, bind, Except.bind, escapeChar, if_false,
                  if_true, getcEq₂, legal₂.toChr, if_neg quote, putEq, putEq₂, eofEq₄, eofEq₃,
                  eofEq₂, Bool.false_eq_true, loopEq]
        · rcases (onFile₁.put holds₁ c).exists with ⟨dev₂, putEq, onFile₂, holds₂, eofEq₂⟩
          rcases ih raw.length (by omega) onFile₂ (unclosed.plain escape)
            (fun c mem => ascii c (by simp [mem])) holds₂
            (by simpa [or_imp, forall_and] using ⟨noNul, legal.ne_zero⟩)
            (show raw.length < fuel by omega) rfl with ⟨n, dev', loopEq, found⟩
          rw [List.length_append, List.length_singleton] at loopEq
          refine ⟨n, dev', ?_, found⟩
          simp only [Dev.copyStringLoop, getcEq, bind, Except.bind, legal.toChr,
            if_neg legal.ne_zero, if_neg escape, ne_eq, unclosed.head, not_false_eq_true, if_true,
            putEq, eofEq₂, eofEq, Bool.false_eq_true, if_false, loopEq]

/-- `copy_string` on a string reads its NUL or puts no `EOF` into the buffer. -/
theorem Within.copiesString {before raw : List Chr} (within : dev.Within before raw)
    (unclosed : Unclosed raw) (ascii : ∀ c ∈ raw, IsAscii c) (holds : dev.Holds done)
    (legal : ∀ c ∈ done, IsAscii c) (fuel : Nat) :
    Ensures (fun p => p.2.Spent (before ++ raw) ∨ AkLisp.eof ∉ p.2.bufferText)
      (Dev.copyStringLoop fuel done.length dev) := by
  induction fuel generalizing dev before raw done with
  | zero => trivial
  | succ fuel ih =>
      -- the loop goes on or ends behind characters of the text
      have goes {dev₂ : Dev} {before₂ raw₂ done₂ : List Chr} (within₂ : dev₂.Within before₂ raw₂)
          (equal : before₂ ++ raw₂ = before ++ raw) (suffix : raw₂ <:+ raw)
          (unclosed₂ : Unclosed raw₂) (holds₂ : dev₂.Holds done₂)
          (legal₂ : ∀ c ∈ done₂, IsAscii c) (nonempty : done₂ ≠ []) :
          Ensures (fun p => p.2.Spent (before ++ raw) ∨ AkLisp.eof ∉ p.2.bufferText)
            (do if ← dev₂.aklIoEof then return (done₂.length, dev₂)
                else Dev.copyStringLoop fuel done₂.length dev₂) := by
        cases raw₂ with
        | nil =>
            simp only [within₂.eof_nil, bind, Except.bind, if_true]
            refine .inr ?_
            rw [holds₂.bufferText nonempty fun c mem => (legal₂ c mem).isStringChar.ne_zero]
            exact fun mem => absurd (legal₂ _ mem).1 (by decide)
        | cons c raw₂ =>
            simp only [within₂.eof_cons, bind, Except.bind, Bool.false_eq_true, if_false]
            rw [← equal]
            exact ih within₂ unclosed₂ (fun c mem => ascii c (suffix.mem mem)) holds₂ legal₂
      cases raw with
      | nil =>
          rcases within.getc_nil with ⟨dev₁, getcEq, spent, -⟩
          have zeroEq : toChr 0 = 0 := by decide
          simp only [Dev.copyStringLoop, getcEq, bind, Except.bind, zeroEq, if_true]
          exact .inl (by simpa using spent)
      | cons c raw =>
          have legalC := ascii c (by simp)
          have notZero := legalC.isStringChar.ne_zero
          rcases within.getc with ⟨dev₁, getcEq, within₁, -, bufferEq⟩
          have holds₁ := holds.of_buffer bufferEq
          simp only [Dev.copyStringLoop, getcEq, bind, Except.bind, legalC.isStringChar.toChr,
            if_neg notZero]
          by_cases escape : c = code '\\'
          · subst escape
            simp only [if_true]
            cases raw with
            | nil =>
                -- the NUL is read behind the escape character, and the end is looked for behind it
                rcases within₁.getc_nil with ⟨dev₂, getcEq₂, spent, bufferEq₂⟩
                have holds₂ := holds₁.of_buffer bufferEq₂
                rcases holds₂ with ⟨block, buffer, filled⟩
                rcases putBuffer_filled buffer filled (code '\\') with ⟨block₁, putEq, filled₁⟩
                rcases @Dev.putBuffer_filled { dev₂ with iodBuffer := some block₁ } _ _ rfl filled₁
                  (toChr 0) with ⟨block₂, putEq₂, -⟩
                rw [List.length_append, List.length_singleton] at putEq₂
                have notQuote : toChr 0 ≠ code '"' := by decide
                have eofEq : Dev.aklIoEof { dev₂ with iodBuffer := some block₂ } =
                  .error .outOfBounds := spent.eof
                simp only [getcEq₂, if_neg notQuote, putEq, putEq₂, eofEq]
                trivial
            | cons c' raw =>
                have legalC' := ascii c' (by simp)
                rcases within₁.getc with ⟨dev₂, getcEq₂, within₂, -, bufferEq₂⟩
                have holds₂ := holds₁.of_buffer bufferEq₂
                have suffix : raw <:+ code '\\' :: c' :: raw :=
                  (List.suffix_cons _ _).trans (List.suffix_cons _ _)
                simp only [getcEq₂, legalC'.isStringChar.toChr]
                by_cases quote : c' = code '"'
                · rcases within₂.put holds₂ c' with ⟨dev₃, putEq, within₃, holds₃⟩
                  simp only [if_pos quote, putEq]
                  have loop := goes within₃ (by simp) suffix unclosed.escape holds₃
                    (by simpa [or_imp, forall_and] using ⟨legal, legalC'⟩) (by simp)
                  rwa [List.length_append, List.length_singleton] at loop
                · rcases within₂.put holds₂ (code '\\') with ⟨dev₃, putEq, within₃, holds₃⟩
                  rcases within₃.put holds₃ c' with ⟨dev₄, putEq₂, within₄, holds₄⟩
                  rw [List.length_append, List.length_singleton] at putEq₂
                  simp only [if_neg quote, putEq, putEq₂]
                  have loop := goes within₄ (by simp) suffix unclosed.escape holds₄
                    (by simpa [or_imp, forall_and] using ⟨legal, legalC, legalC'⟩) (by simp)
                  rwa [List.length_append, List.length_append, List.length_singleton,
                    List.length_singleton] at loop
          · rcases within₁.put holds₁ c with ⟨dev₂, putEq, within₂, holds₂⟩
            simp only [if_neg escape, ne_eq, unclosed.head, not_false_eq_true, if_true, putEq]
            have loop := goes within₂ (by simp) (List.suffix_cons _ _) (unclosed.plain escape)
              holds₂ (by simpa [or_imp, forall_and] using ⟨legal, legalC⟩) (by simp)
            rwa [List.length_append, List.length_singleton] at loop

/-- A shebang line that the end of the file ends is skipped for ever. -/
theorem OnFile.skipsForever (onFile : dev.OnFile r) (ascii : ∀ c ∈ r, IsAscii c)
    (inside : ∀ c ∈ r, c ≠ code '\n') (fuel : Nat) : Dev.skipShebang fuel dev = .error .hang := by
  induction fuel generalizing dev r with
  | zero => rfl
  | succ fuel ih =>
      cases r with
      | nil =>
          rcases onFile.getc_nil.exists with ⟨⟨c, dev₁⟩, getcEq, isEof, onFile₁, -⟩
          obtain rfl : c = AkLisp.eof := isEof
          have goes : ¬(toChr AkLisp.eof = 0 ∨ toChr AkLisp.eof = code '\n') := by decide
          simp only [Dev.skipShebang, getcEq, bind, Except.bind, if_neg goes]
          exact ih onFile₁ ascii inside
      | cons c r =>
          rcases onFile.getc.exists with ⟨⟨c', dev₁⟩, getcEq, chEq, onFile₁, -⟩
          obtain rfl : c' = c := chEq
          have legal := (ascii c' (by simp)).isStringChar
          have goes : ¬(c' = 0 ∨ c' = code '\n') := not_or.mpr ⟨legal.ne_zero, inside c' (by simp)⟩
          simp only [Dev.skipShebang, getcEq, bind, Except.bind, legal.toChr, if_neg goes]
          exact ih onFile₁ (fun c mem => ascii c (by simp [mem]))
            fun c mem => inside c (by simp [mem])

/-- In a string it is skipped together with the NUL. -/
theorem Within.skipsNul {before : List Chr} (within : dev.Within before r)
    (inside : ∀ c ∈ r, c ≠ code '\n') (fuel : Nat) :
    Ensures (fun p => p.1 = 0 ∧ p.2.Spent (before ++ r)) (Dev.skipShebang fuel dev) := by
  induction fuel generalizing dev before r with
  | zero => trivial
  | succ fuel ih =>
      cases r with
      | nil =>
          rcases within.getc_nil with ⟨dev₁, getcEq, spent, -⟩
          have stops : toChr 0 = 0 := by decide
          simp only [Dev.skipShebang, getcEq, bind, Except.bind, stops, true_or, if_true]
          exact ⟨rfl, by simpa using spent⟩
      | cons c r =>
          rcases within.getc with ⟨dev₁, getcEq, within₁, -, -⟩
          have legal := within.chars c (by simp)
          have goes : ¬(c = 0 ∨ c = code '\n') := not_or.mpr ⟨legal.ne_zero, inside c (by simp)⟩
          simp only [Dev.skipShebang, getcEq, bind, Except.bind, legal.toChr, if_neg goes]
          have loop := ih within₁ fun c mem => inside c (by simp [mem])
          rwa [List.append_assoc, List.singleton_append] at loop

/-- The computation does not return. -/
def Stuck {α : Type} (x : Except Fault α) : Prop := ∃ fault, x = .error fault

theorem Stuck.not_left {x y : Except Fault (Token × Dev)} (stuck : Stuck x) : ¬CallsAlike x y := by
  rintro ⟨tok, dev, dev', first, -⟩
  rcases stuck with ⟨fault, error⟩
  cases first.symm.trans error

theorem Stuck.not_right {x y : Except Fault (Token × Dev)} (stuck : Stuck y) : ¬CallsAlike x y := by
  rintro ⟨tok, dev, dev', -, second, -⟩
  rcases stuck with ⟨fault, error⟩
  cases second.symm.trans error

/-- Calls that are alike, where both of them are known to return. -/
theorem CallsAlike.returned {x y : Except Fault (Token × Dev)} (alike : CallsAlike x y)
    {tok tok' : Token} (fileEq : x = .ok (tok, dev)) (stringEq : y = .ok (tok', dev'))
    (notEof : tok ≠ .tEOF) :
    dev.bufferText = dev'.bufferText ∧ ∃ col col' r, dev.At col r ∧ dev'.At col' r := by
  subst fileEq stringEq
  rcases alike with ⟨tok, dev, dev', ⟨⟩, ⟨⟩, same⟩
  exact same notEof

/-- A shebang line that is not ended, on a file. -/
theorem OnFile.stuck_shebang (onFile : dev.OnFile (code '#' :: r)) (first : dev.iodCharCount = 0)
    (ascii : ∀ c ∈ r, IsAscii c) (inside : ∀ c ∈ r, c ≠ code '\n') (fuel : Nat) (op : Chr) :
    Stuck (Dev.lexLoop fuel op dev) := by
  cases fuel with
  | zero => exact ⟨_, rfl⟩
  | succ fuel =>
      rcases onFile.getc.exists with ⟨⟨c, dev₁⟩, getcEq, chEq, onFile₁, -, countEq⟩
      obtain rfl : c = code '#' := chEq
      have notZero : toChr (code '#') ≠ 0 := by decide
      have shebang : dev₁.iodCharCount = 1 ∧ toChr (code '#') = code '#' :=
        ⟨by rw [countEq, first]; rfl, by decide⟩
      rw [lexLoop_succ, getcEq]
      simp only [bind, Except.bind, if_neg notZero, if_pos shebang,
        onFile₁.skipsForever ascii inside]
      exact ⟨_, rfl⟩

/-- A shebang line that is not ended, in a string. -/
theorem Within.stuck_shebang {before : List Chr} (within : dev.Within before (code '#' :: r))
    (first : dev.iodCharCount = 0) (inside : ∀ c ∈ r, c ≠ code '\n') (fuel : Nat) (op : Chr) :
    Stuck (Dev.lexLoop fuel op dev) := by
  cases fuel with
  | zero => exact ⟨_, rfl⟩
  | succ fuel =>
      rcases within.getc with ⟨dev₁, getcEq, within₁, columnEq, -⟩
      have notZero : toChr (code '#') ≠ 0 := by decide
      have shebang : dev₁.iodCharCount = 1 ∧ toChr (code '#') = code '#' := by
        refine ⟨?_, by decide⟩
        have countEq : some dev₁.iodCharCount = some (dev.iodCharCount + 1) := columnEq
        rw [Option.some.inj countEq, first]
        rfl
      rw [lexLoop_succ, getcEq]
      simp only [bind, Except.bind, if_neg notZero, if_pos shebang]
      cases skipEq : Dev.skipShebang dev₁.rounds dev₁ with
      | error fault => exact ⟨_, rfl⟩
      | ok p =>
          rcases p with ⟨c, dev₂⟩
          rcases (within₁.skipsNul inside dev₁.rounds).ok skipEq with ⟨zero, spent⟩
          obtain rfl : c = 0 := zero
          have kind : classOf 0 = .other := by decide
          simp only [Dev.lexBranch, kind]
          cases fuel with
          | zero => exact ⟨_, rfl⟩
          | succ fuel =>
              rw [lexLoop_succ, spent.getc]
              exact ⟨_, rfl⟩

/-- A comment character at the very end of a string. -/
theorem Within.stuck_comment {before : List Chr} (within : dev.Within before [code ';'])
    (fuel : Nat) (op : Chr) : Stuck (Dev.lexLoop fuel op dev) := by
  cases fuel with
  | zero => exact ⟨_, rfl⟩
  | succ fuel =>
      rcases within.getc with ⟨dev₁, getcEq, within₁, -, -⟩
      rcases within₁.getc_nil with ⟨dev₂, getcEq₂, spent, -⟩
      have legal := within.chars (code ';') (by simp)
      have notNewline : toChr 0 ≠ code '\n' := by decide
      rw [lexLoop_round _ _ getcEq legal.toChr legal.ne_zero
        (show classOf (code ';') = .semicolon by decide) (by simp [code])]
      rw [within₁.rounds, Dev.skipComment]
      simp only [getcEq₂, bind, Except.bind, if_neg notNewline, spent.eof]
      exact ⟨_, rfl⟩

/-- The branch of an atom. -/
theorem At.lexLoop_atom (at_ : dev.At (some k) (ch :: r)) (kind : classOf ch = .atom)
    (plain : ch = code '#' → k ≠ 0) (fuel : Nat) (op : Chr) :
    ∃ dev₁, dev.aklIoGetc = .ok (ch, dev₁) ∧
      Dev.lexLoop (fuel + 1) op dev = dev₁.lexAtom op ch := by
  rcases at_.getc with ⟨dev₁, getcEq, past, -⟩
  have legal := past.chars ch List.mem_cons_self
  refine ⟨dev₁, getcEq, ?_⟩
  rw [lexLoop_round _ _ getcEq legal.toChr legal.ne_zero kind]
  rintro ⟨first, hash⟩
  have countEq := past.column k rfl
  exact plain hash (by simpa using countEq.symm.trans first)

/-- What stands in front of the end of an atom in a file: the sign that is pushed
back first comes behind the first character. -/
def fileAtom (op ch : Chr) (r : List Chr) : List Chr := if op = 0 then ch :: r else ch :: op :: r

theorem OnFile.lexesAtom (at_ : dev.At (some k) (ch :: r)) (onFile : dev.OnFile (ch :: r))
    (ascii : ∀ c ∈ ch :: r, IsAscii c) (kind : classOf ch = .atom) (plain : ch = code '#' → k ≠ 0)
    (signed : op = 0 ∨ IsSign op) {fuel : Nat} (enough : r.length < fuel) :
    ∃ dev', Dev.lexLoop fuel op dev = .ok (AkLisp.atomToken dev'.bufferText, dev') ∧
      dev'.OnFile (atomRest (fileAtom op ch r)) ∧
      dev'.bufferText =
        (atomName (fileAtom op ch r)).map tolower ++ atomTail (fileAtom op ch r) := by
  obtain ⟨fuel, rfl⟩ : ∃ n, fuel = n + 1 := ⟨fuel - 1, by omega⟩
  rcases at_.lexLoop_atom kind plain fuel op with ⟨dev₁, getcEq, loopEq⟩
  rcases onFile.getc.exists with ⟨⟨c, dev₁'⟩, getcEq', chEq, onFile₁, -⟩
  obtain rfl : c = ch := chEq
  cases getcEq.symm.trans getcEq'
  have first : endsAtom c = false := CharClass.is_of_eq kind
  -- `copy_atom` starts at the character and the sign behind it
  have copied {dev₂ : Dev} {s : List Chr} (onFile₂ : dev₂.OnFile (c :: s))
      (ascii₂ : ∀ c' ∈ c :: s, IsAscii c')
      (stepEq : ∀ n dev', dev₂.copyAtom = .ok (n, dev') →
        dev₁.lexAtom op c = .ok (AkLisp.atomToken dev'.bufferText, dev')) :
      ∃ dev', dev₁.lexAtom op c = .ok (AkLisp.atomToken dev'.bufferText, dev') ∧
        dev'.OnFile (atomRest (c :: s)) ∧
        dev'.bufferText = (atomName (c :: s)).map tolower ++ atomTail (c :: s) := by
    rcases onFile₂.copiesAtom ascii₂ onFile₂.holds
      (show (c :: s).length < dev₂.rounds by rw [onFile₂.rounds]; omega) with
      ⟨n, dev', copyEq, onFile', holds'⟩
    refine ⟨dev', stepEq n dev' copyEq, onFile', holds'.bufferText ?_ ?_⟩
    · simp [atomName, first]
    · intro c' mem
      rw [List.nil_append] at mem
      rcases List.mem_append.mp mem with name | tail
      · rcases List.mem_map.mp name with ⟨a, inside, rfl⟩
        exact tolower_ne_zero (ascii₂ a ((List.takeWhile_sublist _).mem inside)).isStringChar
      · unfold atomTail at tail
        split at tail
        · rw [List.mem_singleton.mp tail]
          decide
        · cases tail
  rw [loopEq]
  rcases signed with rfl | isSign
  · rcases onFile₁.unread (ascii c (by simp)) with ⟨x, dev₂, ungetcEq, onFile₂, -⟩
    rw [fileAtom, if_pos rfl]
    exact copied onFile₂ ascii fun n dev' copyEq => lexAtom_plain ⟨x, ungetcEq⟩ copyEq
  · have signAscii : IsAscii op := by rcases isSign with rfl | rfl <;> exact ⟨by decide, by decide⟩
    rcases onFile₁.unread signAscii with ⟨x, dev₂, ungetcEq, onFile₂, -⟩
    rcases onFile₂.unread (ascii c (by simp)) with ⟨y, dev₃, ungetcEq₃, onFile₃, -⟩
    rw [fileAtom, if_neg isSign.ne_zero]
    refine copied onFile₃ ?_ fun n dev' copyEq =>
      lexAtom_signed isSign ⟨x, ungetcEq⟩ ⟨y, ungetcEq₃⟩ copyEq
    intro c' mem
    rcases List.mem_cons.mp mem with rfl | mem
    · exact ascii c' (by simp)
    · rcases List.mem_cons.mp mem with rfl | mem
      · exact signAscii
      · exact ascii c' (by simp [mem])

/-- In a string `copy_atom` starts one character further back when a sign is
pending, or the call goes back behind the start of the string. -/
theorem Within.lexesAtom {before : List Chr} (within : dev.Within before (ch :: r))
    (at_ : dev.At (some k) (ch :: r)) (kind : classOf ch = .atom) (plain : ch = code '#' → k ≠ 0)
    (signed : op = 0 ∨ IsSign op) {fuel : Nat} (enough : r.length < fuel) :
    Stuck (Dev.lexLoop fuel op dev) ∨ ∃ s dev', (op = 0 → s = ch :: r) ∧
      (op ≠ 0 → ∃ last, s = last :: ch :: r) ∧
      Dev.lexLoop fuel op dev = .ok (atomToken dev'.bufferText, dev') ∧
      dev'.At none (atomRest s) ∧ dev'.bufferText = atomText dev.bufferText (atomName s) := by
  obtain ⟨fuel, rfl⟩ : ∃ n, fuel = n + 1 := ⟨fuel - 1, by omega⟩
  rcases at_.lexLoop_atom kind plain fuel op with ⟨dev₁, getcEq, loopEq⟩
  rcases within.getc with ⟨dev₁', getcEq', within₁, -, bufferEq⟩
  cases getcEq.symm.trans getcEq'
  rw [loopEq]
  rcases signed with rfl | isSign
  · rcases within₁.ungetc ch with ⟨dev₂, ungetcEq, within₂, bufferEq₂⟩
    rcases within₂.cut_name (List.cons_ne_nil ch r) with ⟨n, dev₃, copyEq, placed, textEq⟩
    rcases placed with ⟨before', -, within₃⟩
    refine .inr ⟨ch :: r, dev₃, fun _ => rfl, fun nonzero => absurd rfl nonzero,
      lexAtom_plain ⟨_, ungetcEq⟩ copyEq, within₃.at, ?_⟩
    rw [textEq, bufferText_congr (bufferEq₂.trans bufferEq)]
  · rcases within₁.ungetc op with ⟨dev₂, ungetcEq, within₂, bufferEq₂⟩
    rcases List.eq_nil_or_concat before with rfl | ⟨front, last, rfl⟩
    · have backward : dev₂.aklIoUngetc ch = .error .outOfBounds := by
        simp only [aklIoUngetc, within₂.source]
        rfl
      have isSign' : op = code '+' ∨ op = code '-' := isSign
      refine .inl ⟨.outOfBounds, ?_⟩
      simp only [Dev.lexAtom, if_pos isSign', ungetcEq, backward, bind, Except.bind]
    · rw [List.concat_eq_append] at within₂
      rcases within₂.ungetc ch with ⟨dev₃, ungetcEq₃, within₃, bufferEq₃⟩
      rcases within₃.cut_name (List.cons_ne_nil last (ch :: r)) with
        ⟨n, dev₄, copyEq, ⟨before', -, within₄⟩, textEq⟩
      refine .inr ⟨last :: ch :: r, dev₄, fun zero => absurd zero isSign.ne_zero,
        fun _ => ⟨last, rfl⟩, lexAtom_signed isSign ⟨_, ungetcEq⟩ ⟨_, ungetcEq₃⟩ copyEq,
        within₄.at, ?_⟩
      rw [textEq, bufferText_congr (bufferEq₃.trans (bufferEq₂.trans bufferEq))]

/-- An atom ends in front of the next line. -/
theorem atomRest_length (line after : List Chr) :
    after.length < (atomRest (line ++ code '\n' :: after)).length := by
  induction line with
  | nil =>
      have ends : endsAtom (code '\n') = true := by decide
      simp [atomRest, ends]
  | cons c line ih =>
      cases ends : endsAtom c with
      | true => simp [atomRest, ends]; omega
      | false => simpa [atomRest, ends] using ih

theorem atomRest_length_le (r : List Chr) : (atomRest r).length ≤ r.length :=
  (List.dropWhile_sublist _).length_le

theorem Spent.not_at (spent : dev.Spent str) : ¬dev.At col r := by
  intro at_
  have source := at_.source
  rw [spent.source] at source
  rcases source with ⟨before, rfl, posEq⟩
  rw [List.length_append] at posEq
  omega

/-- The branch of a double quote. -/
theorem At.lexLoop_doubleQuote (at_ : dev.At col (code '"' :: r)) (fuel : Nat) (op : Chr) :
    ∃ dev₁, dev.aklIoGetc = .ok (code '"', dev₁) ∧
      Dev.lexLoop (fuel + 1) op dev = dev₁.lexString := by
  rcases at_.getc with ⟨dev₁, getcEq, past, -⟩
  have legal := past.chars _ List.mem_cons_self
  exact ⟨dev₁, getcEq, lexLoop_round _ _ getcEq legal.toChr legal.ne_zero
    (show classOf (code '"') = .doubleQuote by decide) (by simp [code])⟩

/-- A string that is not closed, on a file. -/
theorem OnFile.lexesString (at_ : dev.At col (code '"' :: r)) (onFile : dev.OnFile (code '"' :: r))
    (ascii : ∀ c ∈ r, IsAscii c) (unclosed : Unclosed r) {fuel : Nat} (enough : r.length < fuel)
    (op : Chr) :
    ∃ dev', Dev.lexLoop fuel op dev = .ok (.tSTRING, dev') ∧ AkLisp.eof ∈ dev'.bufferText := by
  obtain ⟨fuel, rfl⟩ : ∃ n, fuel = n + 1 := ⟨fuel - 1, by omega⟩
  rcases at_.lexLoop_doubleQuote fuel op with ⟨dev₁, getcEq, loopEq⟩
  rcases onFile.getc.exists with ⟨⟨c, dev₁'⟩, getcEq', chEq, onFile₁, -⟩
  cases getcEq.symm.trans getcEq'
  have copied {c x : Chr} {dev₂ dev₃ : Dev} (readEq : dev₁.aklIoGetc = .ok (c, dev₂))
      (notQuote : toChr c ≠ code '"') (backEq : dev₂.aklIoUngetc (toChr c) = .ok (x, dev₃))
      (onFile₃ : dev₃.OnFile r) :
      ∃ dev', dev₁.lexString = .ok (.tSTRING, dev') ∧ AkLisp.eof ∈ dev'.bufferText := by
    rcases onFile₃.copiesString unclosed ascii onFile₃.holds (by simp)
      (show r.length < dev₃.rounds by rw [onFile₃.rounds]; omega) with ⟨n, dev', copyEq, found⟩
    refine ⟨dev', ?_, found⟩
    rw [List.length_nil] at copyEq
    simp only [Dev.lexString, readEq, bind, Except.bind, if_neg notQuote, backEq, Dev.copyString,
      copyEq, pure, Except.pure]
  rw [loopEq]
  cases r with
  | nil =>
      rcases onFile₁.getc_nil.exists with ⟨⟨c, dev₂⟩, readEq, isEof, onFile₂, -⟩
      obtain rfl : c = AkLisp.eof := isEof
      have charEq : toChr AkLisp.eof = AkLisp.eof := by decide
      rcases (onFile₂.ungetc AkLisp.eof).exists with ⟨⟨x, dev₃⟩, backEq, onFile₃, -⟩
      rw [if_pos rfl] at onFile₃
      exact copied readEq (by decide) (charEq.symm ▸ backEq) onFile₃
  | cons c r =>
      rcases onFile₁.getc.exists with ⟨⟨c', dev₂⟩, readEq, chEq, onFile₂, -⟩
      obtain rfl : c' = c := chEq
      have legal := (ascii c' (by simp)).isStringChar
      rcases onFile₂.unread (ascii c' (by simp)) with ⟨x, dev₃, backEq, onFile₃, -⟩
      exact copied readEq (legal.toChr.symm ▸ unclosed.head) (legal.toChr.symm ▸ backEq) onFile₃

/-- The same in a string. -/
theorem Within.lexesString {before : List Chr} (within : dev.Within before (code '"' :: r))
    (ascii : ∀ c ∈ r, IsAscii c) (unclosed : Unclosed r) (fuel : Nat) (op : Chr) :
    Ensures (fun p => (∃ str, p.2.Spent str) ∨ AkLisp.eof ∉ p.2.bufferText)
      (Dev.lexLoop fuel op dev) := by
  cases fuel with
  | zero => trivial
  | succ fuel =>
      rcases within.at.lexLoop_doubleQuote fuel op with ⟨dev₁, getcEq, loopEq⟩
      rcases within.getc with ⟨dev₁', getcEq', within₁, -, -⟩
      cases getcEq.symm.trans getcEq'
      have copied {c x : Chr} {dev₂ dev₃ : Dev} (readEq : dev₁.aklIoGetc = .ok (c, dev₂))
          (notQuote : toChr c ≠ code '"') (backEq : dev₂.aklIoUngetc (toChr c) = .ok (x, dev₃))
          (within₃ : dev₃.Within (before ++ [code '"']) r) :
          Ensures (fun p => (∃ str, p.2.Spent str) ∨ AkLisp.eof ∉ p.2.bufferText)
            dev₁.lexString := by
        simp only [Dev.lexString, readEq, bind, Except.bind, if_neg notQuote, backEq,
          Dev.copyString]
        refine (within₃.copiesString unclosed ascii within₃.holds_nil (by simp)
          dev₃.rounds).bind fun p ends => ?_
        exact ends.imp_left fun spent => ⟨_, spent⟩
      rw [loopEq]
      cases r with
      | nil =>
          rcases within₁.getc_nil with ⟨dev₂, readEq, spent, -⟩
          rcases spent.ungetc (toChr 0) with ⟨dev₃, backEq, within₃, -⟩
          exact copied readEq (by decide) backEq within₃
      | cons c r =>
          rcases within₁.getc with ⟨dev₂, readEq, within₂, -, -⟩
          have legal := (ascii c (by simp)).isStringChar
          rcases within₂.ungetc (toChr c) with ⟨dev₃, backEq, within₃, -⟩
          exact copied readEq (legal.toChr.symm ▸ unclosed.head) backEq within₃

/-- Behind a token of a file there is not more left than in front of it. -/
theorem OnFile.lexLoop_le (onFile : dev.OnFile r) {fuel : Nat} (enough : r.length < fuel)
    {tok : Token} (lexEq : Dev.lexLoop fuel op dev = .ok (tok, dev')) (notEof : tok ≠ .tEOF)
    (at_ : dev'.At col p) : p.length ≤ r.length := by
  have scans := onFile.lexLoop enough op
  unfold Scans at scans
  split at scans
  · cases scans.symm.trans lexEq
  · rw [lexEq] at scans
    rcases scans with ⟨q, left⟩
    have less := left.less notEof
    have few := signs_le op
    rw [← left.onFile.unique at_]
    omega

/-- Behind a token of a string there is less left. -/
theorem Within.lexLoop_lt {before : List Chr} (within : dev.Within before r) {fuel : Nat}
    {tok : Token} (lexEq : Dev.lexLoop fuel 0 dev = .ok (tok, dev')) (notEof : tok ≠ .tEOF)
    (at_ : dev'.At col p) : p.length < r.length := by
  have takes := ensures_lexLoop within.source le_rfl (.inl rfl) fuel
  rcases takes.ok lexEq notEof with ⟨pos, source, further⟩
  have source' := at_.source
  rw [source] at source'
  rcases source' with ⟨before', strEq, posEq⟩
  have lengthEq := congrArg List.length strEq
  simp only [List.length_append] at lengthEq
  omega

/-- The device reads a file and the other one a string, both are about to read one
ASCII text, with these counts of characters. -/
structure Facing (dev dev' : Dev) (k k' : UInt32) (r : List Chr) : Prop where
  file : dev.At (some k) r
  string : dev'.At (some k') r
  isFile : IsFile dev.iodSource
  on : ∃ str, dev'.OnString str ∧ ∀ c ∈ str, IsAscii c

variable {k' : UInt32}

namespace Facing

theorem onFile (facing : dev.Facing dev' k k' r) : dev.OnFile r := facing.file.onFile facing.isFile

theorem within (facing : dev.Facing dev' k k' r) : ∃ before, dev'.Within before r := by
  rcases facing.on with ⟨str, on, ascii⟩
  rcases facing.string.within on fun c mem => (ascii c mem).isStringChar with ⟨before, -, within⟩
  exact ⟨before, within⟩

theorem ascii (facing : dev.Facing dev' k k' r) : ∀ c ∈ r, IsAscii c := by
  rcases facing.on with ⟨str, on, ascii⟩
  rcases facing.string.within on fun c mem => (ascii c mem).isStringChar with ⟨before, rfl, -⟩
  exact fun c mem => ascii c (List.mem_append_right _ mem)

theorem count (facing : dev.Facing dev' k k' r) : dev.iodCharCount = k := facing.file.column k rfl

theorem count' (facing : dev.Facing dev' k k' r) : dev'.iodCharCount = k' :=
  facing.string.column k' rfl

end Facing

/-- Behind a shebang line. -/
theorem skipsTo_nextLine {line after : List Chr} (inside : ∀ ch ∈ line, ch ≠ code '\n')
    (op : Chr) : SkipsTo (AtPlace (some 0) op after) (some 0) op
      (code '#' :: (line ++ code '\n' :: after)) :=
  .shebang inside (.here ⟨rfl, rfl, rfl⟩)

variable {fuel fuel' : Nat}

/-- An atom that runs up to the end. -/
theorem Facing.atomEnd (facing : dev.Facing dev' k k' (ch :: r)) (kind : classOf ch = .atom)
    (plain : ch = code '#' → k ≠ 0 ∧ k' ≠ 0) (inside : ∀ c ∈ r, endsAtom c = false)
    (enough : r.length < fuel) (enough' : r.length < fuel') :
    ¬CallsAlike (Dev.lexLoop fuel 0 dev) (Dev.lexLoop fuel' 0 dev') := by
  rcases facing.within with ⟨before, within⟩
  have first : endsAtom ch = false := CharClass.is_of_eq kind
  have nameEq : atomName (ch :: r) = ch :: r := by
    rw [atomName, List.takeWhile_eq_self_iff]
    simpa [first] using inside
  have restEq : atomRest (ch :: r) = [] := by
    rw [atomRest, List.dropWhile_eq_nil_iff]
    simpa [first] using inside
  rcases facing.onFile.lexesAtom facing.file facing.ascii kind (fun hash => (plain hash).1)
    (.inl rfl) enough with ⟨dev₁, lexEq, -, textEq⟩
  rcases within.lexesAtom facing.string kind (fun hash => (plain hash).2) (.inl rfl) enough' with
    stuck | ⟨s, dev₁', whole, -, lexEq', -, textEq'⟩
  · exact stuck.not_right
  · intro alike
    rw [fileAtom, if_pos rfl, nameEq, atomTail, if_pos restEq] at textEq
    rw [whole rfl, nameEq, atomText, if_neg (List.cons_ne_nil ch r)] at textEq'
    have lengthEq := congrArg List.length
      (textEq.symm.trans ((alike.returned lexEq lexEq' (atomToken_ne_eof _)).1.trans textEq'))
    simp at lengthEq

/-- The first two characters of the text of an atom. -/
theorem atomName_two {a b : Chr} (first : endsAtom a = false) (second : endsAtom b = false)
    (s : List Chr) : atomName (a :: b :: s) = a :: b :: atomName s := by
  simp [atomName, first, second]

/-- No character that starts an atom is a sign in lower case. -/
theorem tolower_ne_sign (kind : classOf ch = .atom) (isSign : IsSign op) :
    tolower ch ≠ tolower op := by
  have signEq : tolower op = op := by rcases isSign with rfl | rfl <;> decide
  rw [signEq]
  unfold tolower
  split
  · next upper =>
      have bounds := isupper_iff.mp upper
      rcases isSign with rfl | rfl
      · unfold code
        grind
      · unfold code
        grind
  · rintro rfl
    exact absurd (kind.symm.trans isSign.classOf) (by decide)

/-- A sign in front of an atom. -/
theorem Facing.signAtom (facing : dev.Facing dev' k k' (ch :: r)) (isSign : IsSign op)
    (kind : classOf ch = .atom) (plain : ch = code '#' → k ≠ 0 ∧ k' ≠ 0)
    (enough : r.length < fuel) (enough' : r.length < fuel') :
    ¬CallsAlike (Dev.lexLoop fuel op dev) (Dev.lexLoop fuel' op dev') := by
  rcases facing.within with ⟨before, within⟩
  have first : endsAtom ch = false := CharClass.is_of_eq kind
  have signInside : endsAtom op = false := by rcases isSign with rfl | rfl <;> decide
  rcases facing.onFile.lexesAtom facing.file facing.ascii kind (fun hash => (plain hash).1)
    (.inr isSign) enough with ⟨dev₁, lexEq, onFile₁, textEq⟩
  rw [fileAtom, if_neg isSign.ne_zero] at onFile₁ textEq
  rcases within.lexesAtom facing.string kind (fun hash => (plain hash).2) (.inr isSign) enough' with
    stuck | ⟨s, dev₁', -, further, lexEq', at₁', textEq'⟩
  · exact stuck.not_right
  · rcases further isSign.ne_zero with ⟨last, rfl⟩
    intro alike
    rcases alike.returned lexEq lexEq' (atomToken_ne_eof _) with ⟨sameText, col, col', left, fileAt,
      stringAt⟩
    cases ends : endsAtom last with
    | true =>
        -- the string is left where it is, the file is read further
        have restEq : atomRest (last :: ch :: r) = last :: ch :: r := by simp [atomRest, ends]
        have restEq' : atomRest (ch :: op :: r) = atomRest r := by
          simp [atomRest, first, signInside]
        have leftEq := (onFile₁.unique fileAt).trans (at₁'.unique stringAt).symm
        rw [restEq, restEq'] at leftEq
        have shorter := atomRest_length_le r
        rw [leftEq, List.length_cons, List.length_cons] at shorter
        omega
    | false =>
        -- the second characters are the sign and the character behind it
        rw [atomName_two first signInside] at textEq
        rw [atomName_two ends first, atomText, if_neg (List.cons_ne_nil _ _)] at textEq'
        have equal := textEq.symm.trans (sameText.trans textEq')
        simp only [List.map_cons, List.cons_append, List.cons.injEq] at equal
        exact tolower_ne_sign kind isSign equal.2.1.symm

/-- A string that runs up to the end. -/
theorem Facing.stringEnd (facing : dev.Facing dev' k k' (code '"' :: r)) (unclosed : Unclosed r)
    (enough : r.length < fuel) (op : Chr) :
    ¬CallsAlike (Dev.lexLoop fuel op dev) (Dev.lexLoop fuel' op dev') := by
  rcases facing.within with ⟨before, within⟩
  have ascii : ∀ c ∈ r, IsAscii c := fun c mem => facing.ascii c (by simp [mem])
  rcases facing.onFile.lexesString facing.file ascii unclosed enough op with ⟨dev₁, lexEq, found⟩
  rintro ⟨tok, dev₂, dev₂', fileEq, stringEq, alike⟩
  cases lexEq.symm.trans fileEq
  rcases alike Token.noConfusion with ⟨sameText, col, col', left, -, stringAt⟩
  rcases (within.lexesString ascii unclosed fuel' op).ok stringEq with ⟨str, spent⟩ | notFound
  · exact spent.not_at stringAt
  · exact notFound (sameText ▸ found)

theorem hash_atom : classOf (code '#') = .atom := by decide

/-- A `#` that starts a shebang line for the file only: the atom of the string ends
in front of the next line, the token of the file behind its start. -/
theorem Facing.fileHash (facing : dev.Facing dev' 0 k' (code '#' :: r)) (later : k' ≠ 0)
    (signed : op = 0 ∨ IsSign op) (enough : (code '#' :: r).length < fuel)
    (enough' : (code '#' :: r).length < fuel') :
    ¬CallsAlike (Dev.lexLoop fuel op dev) (Dev.lexLoop fuel' op dev') := by
  rcases facing.within with ⟨before, within⟩
  rcases split_line r with inside | ⟨line, after, rfl, inside⟩
  · have ascii : ∀ c ∈ r, IsAscii c := fun c mem => facing.ascii c (by simp [mem])
    exact (facing.onFile.stuck_shebang facing.count ascii inside fuel op).not_left
  · rcases (skipsTo_nextLine inside op).reaches facing.file kept_isFile facing.isFile enough with
      ⟨_, _, _, dev₁, fuel₁, ⟨rfl, rfl, rfl⟩, at₁, isFile₁, enough₁, loopEq⟩
    rcases within.lexesAtom facing.string hash_atom (fun _ => later) signed
      (Nat.lt_of_succ_lt enough') with stuck | ⟨s, dev₁', whole, further, lexEq', at₁', -⟩
    · exact stuck.not_right
    · rintro ⟨tok, dev₂, dev₂', fileEq, stringEq, same⟩
      rcases Prod.mk.inj (Except.ok.inj (lexEq'.symm.trans stringEq)) with ⟨rfl, rfl⟩
      rcases same (atomToken_ne_eof _) with ⟨-, col, col', left, fileAt, stringAt⟩
      rw [loopEq] at fileEq
      have notMore := (at₁.onFile isFile₁).lexLoop_le enough₁ fileEq (atomToken_ne_eof _) fileAt
      rw [← at₁'.unique stringAt] at notMore
      have more : after.length < (atomRest s).length := by
        rcases signed with rfl | isSign
        · rw [whole rfl]
          exact atomRest_length (code '#' :: line) after
        · rcases further isSign.ne_zero with ⟨last, rfl⟩
          exact atomRest_length (last :: code '#' :: line) after
      exact absurd notMore (Nat.not_le.mpr more)

/-- A `#` that starts a shebang line for the string only. -/
theorem Facing.stringHash (facing : dev.Facing dev' k 0 (code '#' :: r)) (later : k ≠ 0)
    (enough : (code '#' :: r).length < fuel) (enough' : (code '#' :: r).length < fuel') :
    ¬CallsAlike (Dev.lexLoop fuel 0 dev) (Dev.lexLoop fuel' 0 dev') := by
  rcases facing.within with ⟨before, within⟩
  rcases split_line r with inside | ⟨line, after, rfl, inside⟩
  · exact (within.stuck_shebang facing.count' inside fuel' 0).not_right
  · rcases facing.on with ⟨str, on, ascii⟩
    rcases (skipsTo_nextLine inside 0).reaches facing.string (kept_onString str) on enough' with
      ⟨_, _, _, dev₁', fuel₁, ⟨rfl, rfl, rfl⟩, at₁', on₁', enough₁, loopEq⟩
    rcases at₁'.within on₁' fun c mem => (ascii c mem).isStringChar with ⟨before₁, -, within₁⟩
    rcases facing.onFile.lexesAtom facing.file facing.ascii hash_atom (fun _ => later) (.inl rfl)
      (Nat.lt_of_succ_lt enough) with ⟨dev₁, lexEq, onFile₁, -⟩
    rintro ⟨tok, dev₂, dev₂', fileEq, stringEq, same⟩
    rcases Prod.mk.inj (Except.ok.inj (lexEq.symm.trans fileEq)) with ⟨rfl, rfl⟩
    rcases same (atomToken_ne_eof _) with ⟨-, col, col', left, fileAt, stringAt⟩
    rw [loopEq] at stringEq
    have less := within₁.lexLoop_lt stringEq (atomToken_ne_eof _) stringAt
    rw [← onFile₁.unique fileAt, fileAtom, if_pos rfl] at less
    exact absurd (atomRest_length (code '#' :: line) after) (Nat.lt_asymm less)

/-- At a place where they differ the calls on a file and on a string are not alike. -/
theorem Facing.differs (facing : dev.Facing dev' k k' r) (differs : Differs k k' op r)
    (signed : op = 0 ∨ IsSign op) (enough : r.length < fuel) (enough' : r.length < fuel') :
    ¬CallsAlike (Dev.lexLoop fuel op dev) (Dev.lexLoop fuel' op dev') := by
  cases differs with
  | signAtom pending kind plain =>
      exact facing.signAtom pending kind plain (Nat.lt_of_succ_lt enough)
        (Nat.lt_of_succ_lt enough')
  | atomEnd kind plain inside =>
      exact facing.atomEnd kind plain inside (Nat.lt_of_succ_lt enough) (Nat.lt_of_succ_lt enough')
  | stringEnd unclosed => exact facing.stringEnd unclosed (Nat.lt_of_succ_lt enough) op
  | commentEmpty =>
      rcases facing.within with ⟨before, within⟩
      exact (within.stuck_comment fuel' op).not_right
  | shebangEnd inside =>
      rcases facing.within with ⟨before, within⟩
      exact (within.stuck_shebang facing.count' inside fuel' op).not_right
  | hash one early =>
      by_cases zero : k = 0
      · subst zero
        exact facing.fileHash (one.mp rfl) signed enough enough'
      · obtain rfl : k' = 0 := Classical.not_not.mp fun later => zero (one.mpr later)
        obtain rfl : op = 0 := early zero
        exact facing.stringHash zero enough enough'

end Dev

/-- What a loop of `akl_lex` skips to has no sign pending or one that it met. -/
theorem SkipsTo.signed {col col' : Column} {op op' : Chr} {r r' : List Chr}
    (skips : SkipsTo (AtPlace col' op' r') col op r) (signed : op = 0 ∨ IsSign op) :
    op' = 0 ∨ IsSign op' := by
  induction skips with
  | here found =>
      rcases found with ⟨-, rfl, -⟩
      exact signed
  | newline _ ih | shebang _ _ ih | comment _ _ ih | other _ _ ih => exact ih signed
  | blank _ ih => exact ih (.inl rfl)
  | sign isSign _ ih => exact ih (.inr isSign)

open Dev in
/-- A call of `akl_lex` that comes to such a place. -/
theorem Dev.Facing.comesTo {dev dev' : Dev} {k k' : UInt32} {r : List Chr}
    (facing : dev.started.Facing dev'.started k k' r) (comes : ComesTo Differs k k' 0 r) :
    ¬CallsAlike dev.aklLex dev'.aklLex := by
  rcases comes with ⟨l, l', op, r', file, string, differs⟩
  rcases facing.on with ⟨str, on, ascii⟩
  rcases file.reaches facing.file kept_isFile facing.isFile
    (show r.length < dev.started.rounds by rw [facing.file.rounds]; omega) with
    ⟨_, _, _, dev₁, fuel, ⟨rfl, rfl, rfl⟩, at₁, isFile₁, enough, loopEq⟩
  rcases string.reaches facing.string (kept_onString str) on
    (show r.length < dev'.started.rounds by rw [facing.string.rounds]; omega) with
    ⟨_, _, _, dev₁', fuel', ⟨rfl, rfl, rfl⟩, at₁', on₁', enough', loopEq'⟩
  have facing₁ : dev₁.Facing dev₁' l l' r' := ⟨at₁, at₁', isFile₁, str, on₁', ascii⟩
  have apart := facing₁.differs differs (file.signed (.inl rfl)) enough enough'
  rw [← loopEq, ← loopEq'] at apart
  simpa only [Dev.aklLex, facing.file.backlog, facing.string.backlog, ne_eq, not_true, if_false]
    using apart

open Dev in
/-- A token leaves the two devices in front of one text again. -/
theorem Dev.Facing.token {dev dev' dev₁ dev₁' : Dev} {k k' l l' : UInt32} {r r' : List Chr}
    {tok : Token} {w : Option (List Chr)} (facing : dev.started.Facing dev'.started k k' r)
    (lexes : LexesBoth k k' 0 r tok w l l' r') (notEof : tok ≠ .tEOF)
    (lexEq : dev.aklLex = .ok (tok, dev₁)) (lexEq' : dev'.aklLex = .ok (tok, dev₁')) :
    dev₁.started.Facing dev₁'.started l l' r' := by
  rcases facing.file.aklLex lexes.file with ⟨dev₂, fileEq, delivered⟩
  rcases facing.string.aklLex lexes.string with ⟨dev₂', stringEq, delivered'⟩
  cases lexEq.symm.trans fileEq
  cases lexEq'.symm.trans stringEq
  have at₁ := (delivered notEof).at_
  have at₁' := (delivered' notEof).at_
  have isFile := facing.isFile
  rcases facing.on with ⟨str, on, ascii⟩
  rw [started_source] at isFile
  rw [OnString, started_source] at on
  rw [at₁.started, at₁'.started]
  exact ⟨at₁, at₁', ((dev.aklLex_keeps kept_isFile isFile).ok lexEq).source, str,
    ((dev'.aklLex_keeps (kept_onString str) on).ok lexEq').source, ascii⟩

/-- Devices that are in step come to no place where they differ. -/
theorem Dev.InStep.alike {k k' l l' : UInt32} {r r' : List Chr}
    {toks : List (Token × Option (List Chr))} (tokenizes : TokenizesBoth k k' r toks l l' r')
    {dev dev' : Dev} {yielded : List (Token × List Chr)} (inStep : dev.InStep dev' yielded)
    (facing : dev.started.Facing dev'.started k k' r) : ¬ComesTo Differs l l' 0 r' := by
  induction tokenizes generalizing dev dev' yielded with
  | done => exact fun comes => facing.comesTo comes inStep.callsAlike
  | token lexes notEof _ ih =>
      rcases facing.file.aklLex lexes.file with ⟨dev₁, lexEq, -⟩
      rcases facing.string.aklLex lexes.string with ⟨dev₁', lexEq', -⟩
      cases inStep with
      | ended endEq =>
          rcases Prod.mk.inj (Except.ok.inj (lexEq.symm.trans endEq)) with ⟨ended, -⟩
          exact absurd ended notEof
      | token tokEq tokEq' _ _ _ others =>
          rcases Prod.mk.inj (Except.ok.inj (lexEq.symm.trans tokEq)) with ⟨rfl, -⟩
          exact ih others (facing.token lexes notEof tokEq tokEq')

/-- A fresh file device, whatever the count of characters it starts with, and a
fresh string device over the same ASCII text yield the same tokens with the same
buffer contents up to the first `tEOF`, if no call of `akl_lex` comes to a place
of the text where the devices may differ.  They are in step only if none comes to
a place where they differ. -/
theorem sources_interchangeable (fresh : Nat → Chr) (text : List Chr)
    (ascii : ∀ ch ∈ text, IsAscii ch) (charCount column column' : UInt32)
    (backlog backlog' : Token) :
    ((∀ toks k k' r, TokenizesBoth charCount 0 text toks k k' r → ¬ComesTo MayDiffer k k' 0 r) →
      ∃ toks, (aklNewFileDevice fresh text charCount column backlog).Tokens toks ∧
        (aklNewStringDevice fresh text column' backlog').Tokens toks ∧
        (aklNewFileDevice fresh text charCount column backlog).InStep
          (aklNewStringDevice fresh text column' backlog') toks) ∧
    ∀ yielded, (aklNewFileDevice fresh text charCount column backlog).InStep
        (aklNewStringDevice fresh text column' backlog') yielded →
      ∀ toks k k' r, TokenizesBoth charCount 0 text toks k k' r → ¬ComesTo Differs k k' 0 r := by
  have file := aklNewFileDevice_at fresh ascii charCount column backlog
  have string := aklNewStringDevice_at fresh (fun ch mem => (ascii ch mem).isStringChar) column'
    backlog'
  have notEof : ∀ ch ∈ text, ch ≠ eof := by
    rintro ch mem rfl
    exact absurd (ascii eof mem).1 (by decide)
  constructor
  · intro alike
    rcases Dev.InStep.of_alike file string notEof rfl alike with ⟨toks, inStep⟩
    exact ⟨toks, inStep.tokens.1, inStep.tokens.2, inStep⟩
  · intro yielded inStep toks k k' r tokenizes
    exact inStep.alike tokenizes ⟨file, string, trivial, text, ⟨0, rfl⟩, ascii⟩

/-- Without a sign in the text no sign is pending. -/
theorem SkipsTo.pending_mem {col col' : Column} {op op' : Chr} {r r' : List Chr}
    (skips : SkipsTo (AtPlace col' op' r') col op r) : op' = op ∨ op' ∈ r := by
  induction skips with
  | here found => exact .inl found.2.1
  | newline _ ih | blank _ ih | other _ _ ih =>
      exact ih.imp_right fun mem => List.mem_cons_of_mem _ mem
  | shebang _ _ ih | comment _ _ ih => exact ih.imp_right fun mem => by simp [mem]
  | sign _ _ ih =>
      rcases ih with rfl | mem
      · exact .inr List.mem_cons_self
      · exact .inr (List.mem_cons_of_mem _ mem)

theorem TokenizesBoth.suffix {k k' l l' : UInt32} {r r' : List Chr}
    {toks : List (Token × Option (List Chr))} (tokenizes : TokenizesBoth k k' r toks l l' r') :
    r' <:+ r := by
  induction tokenizes with
  | done => exact List.suffix_rfl
  | token lexes _ _ ih => exact ih.trans lexes.file.suffix

theorem ComesRound.sign_mem {k k' : UInt32} {r : List Chr} (comes : ComesTo ComesRound k k' 0 r) :
    ∃ ch ∈ r, IsSign ch := by
  rcases comes with ⟨l, l', op, r', file, -, -, -, isSign, -⟩
  rcases file.pending_mem with rfl | mem
  · exact absurd rfl isSign.ne_zero
  · exact ⟨op, mem, isSign⟩

/-- Devices that take the same tokens off a text up to its end are in step. -/
theorem Dev.InStep.of_tokenizes {k k' l l' m m' : UInt32} {r r' s : List Chr}
    {toks : List (Token × Option (List Chr))} {w : Option (List Chr)}
    (tokenizes : TokenizesBoth k k' r toks l l' r') (ended : LexesBoth l l' 0 r' .tEOF w m m' s)
    {dev dev' : Dev} (at_ : dev.started.At (some k) r) (at' : dev'.started.At (some k') r)
    (textEq : dev.started.bufferText = dev'.started.bufferText) :
    ∃ yielded, dev.InStep dev' yielded := by
  induction tokenizes generalizing dev dev' with
  | done =>
      rcases at_.aklLex ended.file with ⟨dev₁, lexEq, -⟩
      rcases at'.aklLex ended.string with ⟨dev₁', lexEq', -⟩
      exact ⟨[], .ended lexEq lexEq'⟩
  | @token _ _ _ _ _ _ _ r₁ _ _ _ _ lexes notEof _ ih =>
      rcases lexes.aklLex notEof at_ at' textEq with
        ⟨dev₁, dev₁', lexEq, lexEq', textEq₁, at₁, at₁'⟩
      rcases ih ended (at₁.started.symm ▸ at₁) (at₁'.started.symm ▸ at₁')
        (by rw [at₁.started, at₁'.started, textEq₁]) with ⟨yielded, inStep⟩
      exact ⟨_, .token lexEq lexEq' notEof textEq₁ ⟨_, _, r₁, at₁, at₁'⟩ inStep⟩

/-- The text `x #y ` with a blank behind it. -/
def hashText : List Chr := "x #y ".toList.map code

/-- Two atoms, the `#` being no first character for either device. -/
theorem hashText_tokenizes : TokenizesBoth 5 0 hashText
    [(.tATOM, some [code 'x']), (.tATOM, some [code '#', code 'y'])] 9 4 [code ' '] := by
  have atomX (k : UInt32) : Lexes (some k) 0 hashText .tATOM (some [code 'x']) (some (k + 1))
      [code ' ', code '#', code 'y', code ' '] :=
    @Lexes.atom (some k) (code 'x') [] (code ' ') [code '#', code 'y', code ' '] (by decide)
      (fun hash => absurd hash (by decide)) (by simp) (by decide)
  have atomY (k : UInt32) (later : k + 1 + 1 ≠ 1) : Lexes (some k) 0
      [code ' ', code '#', code 'y', code ' '] .tATOM (some [code '#', code 'y'])
      (some (k + 1 + 1 + 1)) [code ' '] :=
    .blank (@Lexes.atom (some (k + 1)) (code '#') [code 'y'] (code ' ') [] (by decide)
      (fun _ => ⟨k + 1, rfl, later⟩) (by simp; decide) (by decide))
  exact .token ⟨atomX 5, atomX 0⟩ (by decide) (.token ⟨atomY 6 (by decide), atomY 1 (by decide)⟩
    (by decide) .done)

/-- A file that starts with a count of 5 and a string with the text `x #y `: no call
comes to a place where they may differ. -/
theorem sources_interchangeable_hash :
    (∀ toks k k' r, TokenizesBoth 5 0 hashText toks k k' r → ¬ComesTo MayDiffer k k' 0 r) ∧
      ∃ toks, (aklNewFileDevice (fun _ => 0) hashText 5 0 .tEOF).Tokens toks ∧
        (aklNewStringDevice (fun _ => 0) hashText 0 .tEOF).Tokens toks ∧
        (aklNewFileDevice (fun _ => 0) hashText 5 0 .tEOF).InStep
          (aklNewStringDevice (fun _ => 0) hashText 0 .tEOF) toks := by
  have ascii : ∀ ch ∈ hashText, IsAscii ch := by unfold IsAscii; decide
  rcases sources_interchangeable (fun _ => 0) hashText ascii 5 0 0 .tEOF .tEOF with ⟨same, apart⟩
  have ended : LexesBoth 9 4 0 [code ' '] .tEOF none 10 5 [] := ⟨.blank .ended, .blank .ended⟩
  rcases Dev.InStep.of_tokenizes hashText_tokenizes ended
    (aklNewFileDevice_at (fun _ => 0) ascii 5 0 .tEOF)
    (aklNewStringDevice_at (fun _ => 0) (fun ch mem => (ascii ch mem).isStringChar) 0 .tEOF) rfl
    with ⟨yielded, inStep⟩
  have alike : ∀ toks k k' r, TokenizesBoth 5 0 hashText toks k k' r →
      ¬ComesTo MayDiffer k k' 0 r := by
    rintro toks k k' r tokenizes ⟨l, l', op, r', file, string, differs | round⟩
    · exact apart yielded inStep toks k k' r tokenizes ⟨l, l', op, r', file, string, differs⟩
    · rcases ComesRound.sign_mem ⟨l, l', op, r', file, string, round⟩ with ⟨ch, mem, isSign⟩
      have noSign : ∀ ch ∈ hashText, ¬(ch = code '+' ∨ ch = code '-') := by decide
      exact noSign ch (tokenizes.suffix.mem mem) isSign
  exact ⟨alike, same alike⟩

/-- The first token of a device. -/
theorem Dev.Tokens.head {dev : Dev} {toks : List (Token × List Chr)} (tokens : dev.Tokens toks)
    {tok : Token} {text : List Chr} (notEof : tok ≠ .tEOF)
    (lexed : dev.aklLex.map (fun p => (p.1, p.2.bufferText)) = .ok (tok, text)) :
    toks.head? = some (tok, text) := by
  cases tokens with
  | ended lexEq =>
      rw [lexEq] at lexed
      cases lexed
      exact absurd rfl notEof
  | token lexEq =>
      rw [lexEq] at lexed
      cases lexed
      rfl

set_option maxRecDepth 8000 in
/-- The text `-x` with a blank behind it is the atom `x-` in a file and the atom
`-x` in a string. -/
theorem sources_differ :
    ¬∃ toks, (aklNewFileDevice (fun _ => 0) [code '-', code 'x', code ' '] 0 0 .tEOF).Tokens toks ∧
      (aklNewStringDevice (fun _ => 0) [code '-', code 'x', code ' '] 0 .tEOF).Tokens toks := by
  rintro ⟨toks, file, string⟩
  have inFile : toks.head? = some (.tATOM, [code 'x', code '-']) :=
    file.head (by decide) (by rfl)
  have inString : toks.head? = some (.tATOM, [code '-', code 'x']) :=
    string.head (by decide) (by rfl)
  exact absurd (inFile.symm.trans inString) (by decide)

end AkLisp
