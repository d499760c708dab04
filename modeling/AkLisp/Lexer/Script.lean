import AkLisp.Compiler.Endings
import AkLisp.Lexer.Cut

/-!
# Texts as they are written

A text is a sequence of written tokens with blanks, line ends and comments between them.
Where each token ends in front of what follows it, `akl_lex` delivers these tokens and
then the end, whatever stands between them.
-/

namespace AkLisp

instance : DecidablePred IsAscii := fun ch => inferInstanceAs (Decidable (0 < ch ∧ ch < 128))

/-- What can stand between two tokens. -/
inductive Filler where
  | blank
  | newline
  | comment (line : List Chr) (inside : ∀ ch ∈ line, ch ≠ code '\n')
  /-- a character that `akl_lex` passes over -/
  | other (ch : Chr) (kind : classOf ch = .other)

def Filler.text : Filler → List Chr
  | .blank => [code ' ']
  | .newline => [code '\n']
  | .comment line _ => code ';' :: (line ++ [code '\n'])
  | .other ch _ => [ch]

/-- A token as it is written. -/
inductive Written where
  | opening
  | close
  /-- an empty list -/
  | nil
  | quote (ch : Chr) (kind : classOf ch = .quote)
  | emptyString
  | string (raw text : List Chr) (body : StringBody raw text) (nonempty : raw ≠ [])
  | number (first : Chr) (others : List Chr) (digit : classOf first = .digit)
      (inside : ∀ ch ∈ others, isValidInNumber ch = true)
  | signed (op first : Chr) (others : List Chr) (isSign : IsSign op)
      (digit : classOf first = .digit) (inside : ∀ ch ∈ others, isValidInNumber ch = true)
  | atom (first : Chr) (others : List Chr) (kind : classOf first = .atom)
      (plain : first ≠ code '#') (inside : ∀ ch ∈ others, endsAtom ch = false)
  /-- a sign by itself -/
  | sign (op : Chr) (isSign : IsSign op)
  /-- two signs; the first one is read for both -/
  | signs (op ch : Chr) (pending : IsSign op) (isSign : IsSign ch)

namespace Written

def text : Written → List Chr
  | opening => [code '(']
  | close => [code ')']
  | nil => [code '(', code ')']
  | quote ch _ => [ch]
  | emptyString => [code '"', code '"']
  | string raw _ _ _ => code '"' :: (raw ++ [code '"'])
  | number first others _ _ => first :: others
  | signed op first others _ _ _ => op :: first :: others
  | atom first others _ _ _ => first :: others
  | sign op _ => [op]
  | signs op ch _ _ => [op, ch]

/-- The token with the text that is fetched for it. -/
def lexeme : Written → Lexeme
  | opening => openLexeme
  | close => closeLexeme
  | nil | emptyString => ⟨.tNIL, []⟩
  | quote _ _ => quoteLexeme
  | string _ text _ _ => ⟨.tSTRING, text⟩
  | number first others _ _ => ⟨.tNUMBER, first :: others⟩
  | signed op first others _ _ _ => ⟨.tNUMBER, op :: first :: others⟩
  | atom first others _ _ _ =>
      let name := (first :: others).map tolower
      deliveredLexeme (atomToken name, some name)
  | sign op _ => ⟨.tATOM, [op]⟩
  | signs op _ _ _ => ⟨.tATOM, [op, op]⟩

/-- The token ends in front of the text. -/
def EndsAt (r : List Chr) : Written → Prop
  | opening => r.head? ≠ some (code ')')
  | number _ _ _ _ | signed _ _ _ _ _ _ => ∀ ch ∈ r.head?, isValidInNumber ch = false
  | atom _ _ _ _ _ => ∃ ch ∈ r.head?, endsAtom ch = true
  | sign _ _ => r.head? = some (code ' ') ∨ r.head? = some (code ')')
  | close | nil | quote _ _ | emptyString | string _ _ _ _ | signs _ _ _ _ => True

instance (r : List Chr) (w : Written) : Decidable (w.EndsAt r) := by
  cases w <;> unfold EndsAt <;> infer_instance

end Written

/-- Tokens with what stands in front of each of them, and behind the last one. -/
inductive Script where
  | ending (gap : List Filler)
  | token (gap : List Filler) (written : Written) (others : Script)

namespace Script

def text : Script → List Chr
  | ending gap => gap.flatMap Filler.text
  | token gap written others => gap.flatMap Filler.text ++ (written.text ++ others.text)

def lexemes : Script → List Lexeme
  | ending _ => []
  | token _ written others => written.lexeme :: others.lexemes

/-- Each token ends in front of what follows it. -/
def Fits : Script → Prop
  | ending _ => True
  | token _ written others => written.EndsAt others.text ∧ others.Fits

instance decidableFits : (script : Script) → Decidable script.Fits
  | ending _ => inferInstanceAs (Decidable True)
  | token _ written others =>
      have := decidableFits others
      inferInstanceAs (Decidable (written.EndsAt others.text ∧ others.Fits))

/-- A blank in front of every token and behind the last one. -/
def spaced : List Written → Script
  | [] => ending [.blank]
  | written :: others => token [.blank] written (spaced others)

theorem head?_spaced (ws : List Written) : (spaced ws).text.head? = some (code ' ') := by
  cases ws <;> rfl

theorem lexemes_spaced (ws : List Written) : (spaced ws).lexemes = ws.map Written.lexeme := by
  induction ws with
  | nil => rfl
  | cons w ws ih => rw [spaced, lexemes, ih, List.map_cons]

/-- Every token ends in front of a blank. -/
theorem spaced_fits (ws : List Written) : (spaced ws).Fits := by
  induction ws with
  | nil => trivial
  | cons w ws ih =>
      refine ⟨?_, ih⟩
      have head := head?_spaced ws
      cases w with
      | opening =>
          rw [Written.EndsAt, head]
          decide
      | number | signed =>
          rw [Written.EndsAt, head]
          decide
      | atom =>
          rw [Written.EndsAt, head]
          decide
      | sign => exact .inl head
      | close | nil | quote | emptyString | string | signs => trivial

end Script

/-- The text is read as these tokens, the last of which is the end. -/
inductive ReadAs : Column → List Chr → List Lexeme → Prop where
  | ended {col r col' r'} (lexes : Lexes col 0 r .tEOF none col' r') : ReadAs col r [endLexeme]
  | token {col r tok w col₁ r₁ ls} (lexes : Lexes col 0 r tok w col₁ r₁) (notEof : tok ≠ .tEOF)
      (others : ReadAs col₁ r₁ ls) : ReadAs col r (deliveredLexeme (tok, w) :: ls)

section

variable {col col₀ : Column} {r r₀ : List Chr} {ls : List Lexeme}

theorem ReadAs.skip (readAs : ReadAs col r ls)
    (skips : ∀ {tok w col' r'}, Lexes col 0 r tok w col' r' → Lexes col₀ 0 r₀ tok w col' r') :
    ReadAs col₀ r₀ ls := by
  cases readAs with
  | ended lexes => exact .ended (skips lexes)
  | token lexes notEof others => exact .token (skips lexes) notEof others

/-- What stands in front of a token is passed over. -/
theorem Filler.readAs (filler : Filler) (behind : ∀ col, ReadAs col r ls) (col : Column) :
    ReadAs col (filler.text ++ r) ls := by
  cases filler with
  | blank => exact (behind col.next).skip .blank
  | newline => exact (behind (some 0)).skip .newline
  | comment line inside =>
      have textEq : (Filler.comment line inside).text ++ r =
          code ';' :: (line ++ code '\n' :: r) := by
        simp [Filler.text]
      rw [textEq]
      exact (behind (col.advance (line.length + 2))).skip (.comment inside)
  | other ch kind => exact (behind col.next).skip (.other kind)

theorem fillers_readAs (gap : List Filler) (behind : ∀ col, ReadAs col r ls) (col : Column) :
    ReadAs col (gap.flatMap Filler.text ++ r) ls := by
  induction gap generalizing col with
  | nil => exact behind col
  | cons filler gap ih =>
      rw [List.flatMap_cons, List.append_assoc]
      exact filler.readAs ih col

/-- A blank in front of a token is passed over. -/
theorem Lexes.of_blank {tok : Token} {w : Option (List Chr)} {col' : Column} {r' : List Chr}
    (lexes : Lexes col 0 (code ' ' :: r) tok w col' r') : Lexes col.next 0 r tok w col' r' := by
  generalize blank : code ' ' :: r = text, op : (0 : Chr) = op' at lexes
  cases lexes with
  | ended => cases blank
  | blank next =>
      cases blank
      exact next
  | signs pending | signBlank pending | signClose pending =>
      exact absurd op.symm pending.ne_zero
  | other kind | quote kind | number kind | atom kind =>
      rw [← (List.cons.inj blank).1] at kind
      cases kind
  | sign isSign =>
      rcases isSign with plus | minus
      · exact absurd ((List.cons.inj blank).1.trans plus) (by decide)
      · exact absurd ((List.cons.inj blank).1.trans minus) (by decide)
  | newline | shebang | comment | commentEnded | close | emptyString | string | nil | opening =>
      exact absurd (List.cons.inj blank).1 (by decide)

theorem ReadAs.of_blank (readAs : ReadAs col (code ' ' :: r) ls) : ReadAs col.next r ls :=
  readAs.skip Lexes.of_blank

/-- A token is delivered where it ends. -/
theorem Written.readAs {w : Written} (ends : w.EndsAt r) (behind : ∀ col, ReadAs col r ls)
    (col : Column) : ReadAs col (w.text ++ r) (w.lexeme :: ls) := by
  cases w with
  | opening => exact .token (.opening ends) (by decide) (behind _)
  | close => exact .token .close (by decide) (behind _)
  | nil => exact .token .nil (by decide) (behind _)
  | quote ch kind => exact .token (.quote kind) (by decide) (behind _)
  | emptyString => exact .token .emptyString (by decide) (behind _)
  | string raw text body nonempty =>
      have textEq : (Written.string raw text body nonempty).text ++ r =
          code '"' :: (raw ++ code '"' :: r) := by
        simp [Written.text]
      rw [textEq]
      exact .token (.string body nonempty) (by decide) (behind _)
  | number first others digit inside =>
      exact .token (.number digit inside ends) (by decide) (behind _)
  | signed op first others isSign digit inside =>
      have lexes : Lexes col.next op (first :: (others ++ r)) .tNUMBER
          (some (signText op ++ first :: others)) _ r := .number digit inside ends
      have textEq : signText op = [op] := if_neg isSign.ne_zero
      rw [textEq] at lexes
      exact .token (.sign isSign lexes) (by decide) (behind _)
  | atom first others kind plain inside =>
      rcases ends with ⟨e, head, ends⟩
      rcases r with _ | ⟨c, r⟩
      · cases head
      cases head
      exact .token (.atom kind (absurd · plain) inside ends) (atomToken_ne_eof _) (behind _)
  | sign op isSign =>
      rcases r with _ | ⟨c, r⟩
      · rcases ends with blank | close
        · cases blank
        · cases close
      · rcases ends with blank | close
        · cases blank
          exact .token (.sign isSign (.signBlank isSign)) (by decide) (behind _).of_blank
        · cases close
          exact .token (.sign isSign (.signClose isSign)) (by decide) (behind _)
  | signs op ch pending isSign =>
      exact .token (.sign pending (.signs pending isSign)) (by decide) (behind _)

/-- A text is read as the tokens it was written for. -/
theorem Script.readAs {script : Script} (fits : script.Fits) (col : Column) :
    ReadAs col script.text (script.lexemes ++ [endLexeme]) := by
  induction script generalizing col with
  | ending gap =>
      rw [Script.text, ← List.append_nil (gap.flatMap Filler.text)]
      exact fillers_readAs gap (fun col => .ended .ended) col
  | token gap written others ih =>
      exact fillers_readAs gap (written.readAs fits.1 (ih fits.2)) col

end

end AkLisp
