import AkLisp.Source.Proper

/-!
# What code ends with

The instructions of an expression are appended to the code of the function that is
compiled, and an `if`, a `when` or a `while` ends with a label for whatever comes
next.  `Ends` says of the tokens of an expression whether the last thing it leaves
there is an instruction or such a label, and whether it evaluates to a function the
compiler has just built.
-/

namespace AkLisp

/-- The last thing that is left at the end of the code. -/
inductive Ending where
  /-- nothing is appended -/
  | kept
  | instr
  | label
  deriving DecidableEq

/-- The last thing that two parts leave, one after the other. -/
def Ending.followed : Ending → Ending → Ending
  | first, .kept => first
  | _, second => second

/-- What is left behind its operands by a special form. -/
def SForm.ending (operands : List Lexeme) : SForm → Ending
  | .sif | .when | .swhile => .label
  | .lambda => .kept
  | .defun | .set => if operands.head?.map Lexeme.tok = some .tATOM then .instr else .kept

/-- The special form evaluates to a function. -/
def SForm.returns (operands : List Lexeme) : SForm → Bool
  | .sif | .when | .swhile | .set => false
  | .lambda => true
  | .defun => operands.head?.map Lexeme.tok = some .tATOM

/-- What is done at the closing parenthesis of a list. -/
inductive ListEnd where
  /-- a call, or the push of a `NIL` -/
  | instr
  /-- the list evaluates to a function -/
  | function
  | nothing
  deriving DecidableEq

def ListEnd.ending : ListEnd → Ending
  | .instr => .instr
  | .function | .nothing => .kept

def ListEnd.returns : ListEnd → Bool
  | .function => true
  | .instr | .nothing => false

/-- The end of a list with a special form at its head. -/
def ListEnd.ofForm (returns : Bool) : ListEnd := if returns then .function else .nothing

/-- The end of a list behind an inner list, which may evaluate to a function. -/
def ListEnd.behind (close : ListEnd) (atHead returns : Bool) : ListEnd :=
  if atHead && returns then .function else close

/-- A function an inner list evaluates to is pushed unless the list is the head. -/
def Ending.ofInner (atHead returns : Bool) : Ending :=
  if returns && !atHead then .instr else .kept

/-- What is read: one expression, or the rest of a list and what is done at its end. -/
inductive EndPart where
  | operand
  | items (atHead : Bool) (close : ListEnd)

/-- The tokens of a part of the code in which every special form finds its operands,
what they leave at the end of the code, and whether they evaluate to a function. -/
inductive Ends : EndPart → List Lexeme → FormNames → FormNames → Ending → Bool → Prop where
  | leaf {l n} (leaf : l.tok.isLeaf = true) : Ends .operand [l] n n .instr false
  | quoted {q ls n} (tok : q.tok = .tQUOTE) (datum : DatumTokens ls) :
      Ends .operand (q :: ls) n n .instr false
  | list {l ls n n' e v} (tok : l.tok = .tLBRACE) (inside : Ends (.items true .instr) ls n n' e v) :
      Ends .operand (l :: ls) n n' e v
  | close {atHead c q b l n} (mark : QuoteMark q b) (tok : l.tok = .tRBRACE) :
      Ends (.items atHead c) (q ++ [l]) n n c.ending c.returns
  | headForm {c q b l form ms ls n n₁ n' e v} (mark : QuoteMark q b) (tok : l.tok = .tATOM)
      (special : n (aklGetOrCreateSymbol l.text) = some form)
      (operands : HasOperands (.operands form) ms n n₁)
      (others : Ends (.items false (.ofForm (form.returns ms))) ls n₁ n' e v) :
      Ends (.items true c) (q ++ l :: (ms ++ ls)) n n' ((form.ending ms).followed e) v
  | headName {c q b l ls n n' e v} (mark : QuoteMark q b) (tok : l.tok = .tATOM)
      (ordinary : n (aklGetOrCreateSymbol l.text) = none)
      (others : Ends (.items false .instr) ls n n' e v) :
      Ends (.items true c) (q ++ l :: ls) n n' e v
  | itemLeaf {atHead c q b l ls n n' e v} (mark : QuoteMark q b) (leaf : l.tok.isLeaf = true)
      (notHead : atHead = true → l.tok ≠ .tATOM) (others : Ends (.items false c) ls n n' e v) :
      Ends (.items atHead c) (q ++ l :: ls) n n' (Ending.instr.followed e) v
  | itemQuoted {atHead c q l items ls n n' e v} (mark : q.tok = .tQUOTE) (tok : l.tok = .tLBRACE)
      (inside : DataTokens items) (others : Ends (.items false c) ls n n' e v) :
      Ends (.items atHead c) (q :: l :: (items ++ ls)) n n' (Ending.instr.followed e) v
  | itemList {atHead c l items ls n n₁ n' e v e' v'} (tok : l.tok = .tLBRACE)
      (inside : Ends (.items true .instr) items n n₁ e v)
      (others : Ends (.items false (c.behind atHead v)) ls n₁ n' e' v') :
      Ends (.items atHead c) (l :: (items ++ ls)) n n'
        ((e.followed (.ofInner atHead v)).followed e') v'

/-- What the expressions of a program leave at the end of the code of the main function. -/
inductive ProgramEnds : List (List Lexeme) → FormNames → Ending → Prop where
  | nil {n} : ProgramEnds [] n .kept
  | cons {ts tss n n' e v e'} (first : Ends .operand ts n n' e v)
      (others : ProgramEnds tss n' e') : ProgramEnds (ts :: tss) n (e.followed e')

/-- Code in which every special form finds its operands has an ending. -/
theorem HasOperands.ends {part : CodePart} {ts : List Lexeme} {n n' : FormNames}
    (hasOperands : HasOperands part ts n n') :
    match part with
    | .operand => ∃ e v, Ends .operand ts n n' e v
    | .items atHead => ∀ c, ∃ e v, Ends (.items atHead c) ts n n' e v
    | .operands _ => True := by
  induction hasOperands with
  | leaf leaf => exact ⟨_, _, .leaf leaf⟩
  | quoted tok datum => exact ⟨_, _, .quoted tok datum⟩
  | list tok inside ih =>
      obtain ⟨e, v, ends⟩ := ih .instr
      exact ⟨e, v, .list tok ends⟩
  | close mark tok => exact fun c => ⟨_, _, .close mark tok⟩
  | headForm mark tok special operands others _ ih =>
      intro c
      obtain ⟨e, v, ends⟩ := ih _
      exact ⟨_, v, .headForm mark tok special operands ends⟩
  | headName mark tok ordinary others ih =>
      intro c
      obtain ⟨e, v, ends⟩ := ih .instr
      exact ⟨e, v, .headName mark tok ordinary ends⟩
  | itemLeaf mark leaf notHead others ih =>
      intro c
      obtain ⟨e, v, ends⟩ := ih c
      exact ⟨_, v, .itemLeaf mark leaf notHead ends⟩
  | itemQuoted mark tok inside others ih =>
      intro c
      obtain ⟨e, v, ends⟩ := ih c
      exact ⟨_, v, .itemQuoted mark tok inside ends⟩
  | itemList tok inside others ihInside ih =>
      intro c
      obtain ⟨e, v, ends⟩ := ihInside .instr
      obtain ⟨e', v', ends'⟩ := ih _
      exact ⟨_, v', .itemList tok ends ends'⟩
  | _ => trivial

/-- An expression has tokens. -/
theorem Ends.nonempty {ts : List Lexeme} {n n' : FormNames} {e : Ending} {v : Bool}
    (ends : Ends .operand ts n n' e v) : ts ≠ [] := by
  cases ends <;> exact List.cons_ne_nil _ _

/-! ### Expressions -/

/-- The last thing an expression leaves. -/
def Form.ending : Form → Ending
  | .sif _ _ _ | .when _ _ | .swhile _ _ => .label
  | .lambda _ _ => .kept
  | _ => .instr

/-- The last thing that expressions leave one after the other. -/
def programEnding : List Form → Ending
  | [] => .kept
  | e :: es => e.ending.followed (programEnding es)

end AkLisp
