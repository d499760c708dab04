import AkLisp.Reader.Datum
import AkLisp.Compiler.Compile

/-!
# Source expressions

An expression of the language as it is written, with its tokens.  Names are not
resolved yet, and nothing restricts how expressions are nested.
-/

namespace AkLisp

/-- A constant that stands for itself. -/
inductive Literal where
  | number (text : List Chr)
  | string (text : List Chr)
  | nil
  | true
  deriving DecidableEq

/-- The datum a constant is read as. -/
def Literal.datum : Literal → Datum
  | .number text => .number text
  | .string text => .string text
  | .nil => .nil
  | .true => .true

mutual

/-- An expression. -/
inductive Form where
  | literal (c : Literal)
  | quoted (x : Datum)
  /-- a variable or a parameter -/
  | name (text : List Chr)
  | call (head : List Chr) (args : Forms)
  | sif (c a b : Form)
  | set (name : List Chr) (e : Form)
  | when (c a : Form)
  | swhile (c a : Form)
  | defun (name : List Chr) (params : List (List Chr)) (body : Form)
  | lambda (params : List (List Chr)) (body : Form)

/-- The arguments of a call. -/
inductive Forms where
  | nil
  | cons (e : Form) (es : Forms)

end

/-- The number of arguments. -/
def Forms.length : Forms → Nat
  | .nil => 0
  | .cons _ es => es.length + 1

/-- The name of a special form. -/
def SForm.text : SForm → List Chr
  | .sif => [code 'i', code 'f']
  | .lambda => [code 'l', code 'a', code 'm', code 'b', code 'd', code 'a']
  | .when => [code 'w', code 'h', code 'e', code 'n']
  | .swhile => [code 'w', code 'h', code 'i', code 'l', code 'e']
  | .defun => [code 'd', code 'e', code 'f', code 'u', code 'n', code '!']
  | .set => [code 's', code 'e', code 't', code '!']

/-- The symbol of a special form. -/
def SForm.symbol (form : SForm) : Symbol := aklGetOrCreateSymbol form.text

/-- The token of a name. -/
def atomLexeme (text : List Chr) : Lexeme := ⟨.tATOM, text⟩

/-- The tokens of a parameter list; an empty one is a single token. -/
def paramTokens : List (List Chr) → List Lexeme
  | [] => [⟨.tNIL, []⟩]
  | params => openLexeme :: (params.map atomLexeme ++ [closeLexeme])

mutual

/-- The tokens of an expression. -/
def Form.tokens : Form → List Lexeme
  | .literal c => c.datum.tokens
  | .quoted x => quoteLexeme :: x.tokens
  | .name text => [atomLexeme text]
  | .call head args => openLexeme :: atomLexeme head :: args.tokens
  | .sif c a b =>
      openLexeme :: atomLexeme SForm.sif.text ::
        ((c.tokens ++ (a.tokens ++ b.tokens)) ++ [closeLexeme])
  | .set name e =>
      openLexeme :: atomLexeme SForm.set.text :: ((atomLexeme name :: e.tokens) ++ [closeLexeme])
  | .when c a =>
      openLexeme :: atomLexeme SForm.when.text :: ((c.tokens ++ a.tokens) ++ [closeLexeme])
  | .swhile c a =>
      openLexeme :: atomLexeme SForm.swhile.text :: ((c.tokens ++ a.tokens) ++ [closeLexeme])
  | .defun name params body =>
      openLexeme :: atomLexeme SForm.defun.text ::
        ((atomLexeme name :: (paramTokens params ++ body.tokens)) ++ [closeLexeme])
  | .lambda params body =>
      openLexeme :: atomLexeme SForm.lambda.text ::
        ((paramTokens params ++ body.tokens) ++ [closeLexeme])

/-- The tokens of the arguments of a call with the closing parenthesis. -/
def Forms.tokens : Forms → List Lexeme
  | .nil => [closeLexeme]
  | .cons e es => e.tokens ++ es.tokens

end

/-- An expression that defines a function. -/
def Form.IsDefinition : Form → Prop
  | .defun _ _ _ | .lambda _ _ => True
  | _ => False

instance : DecidablePred Form.IsDefinition := fun form => by
  cases form <;> unfold Form.IsDefinition <;> infer_instance

/-- A name. -/
def Form.IsName : Form → Prop
  | .name _ => True
  | _ => False

/-- A string constant, which behind a parameter list would be taken for a
documentation string. -/
def Form.IsString : Form → Prop
  | .literal (.string _) => True
  | _ => False

mutual

/-- Every call has a name out of `functions` at its head, and every definition
binds a name that is not the one of a special form, and has a body that is not a
string. -/
def Form.WellFormed (functions : Symbol → Prop) : Form → Prop
  | .literal _ | .quoted _ | .name _ => True
  | .call head args => functions (aklGetOrCreateSymbol head) ∧ args.WellFormed functions
  | .sif c a b => c.WellFormed functions ∧ a.WellFormed functions ∧ b.WellFormed functions
  | .set _ e => e.WellFormed functions
  | .when c a | .swhile c a => c.WellFormed functions ∧ a.WellFormed functions
  | .defun name _ body =>
      (∀ form : SForm, form.symbol ≠ aklGetOrCreateSymbol name) ∧ ¬body.IsString ∧
        body.WellFormed functions
  | .lambda _ body => ¬body.IsString ∧ body.WellFormed functions

def Forms.WellFormed (functions : Symbol → Prop) : Forms → Prop
  | .nil => True
  | .cons e es => e.WellFormed functions ∧ es.WellFormed functions

end

mutual

/-- Somewhere in the expression a function is given a name. -/
def Form.Defines : Form → Prop
  | .literal _ | .quoted _ | .name _ => False
  | .call _ args => args.Defines
  | .sif c a b => c.Defines ∨ a.Defines ∨ b.Defines
  | .set _ e => e.Defines
  | .when c a | .swhile c a => c.Defines ∨ a.Defines
  | .defun _ _ _ => True
  | .lambda _ body => body.Defines

def Forms.Defines : Forms → Prop
  | .nil => False
  | .cons e es => e.Defines ∨ es.Defines

end

end AkLisp
