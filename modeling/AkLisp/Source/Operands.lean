import AkLisp.Reader.Reads

/-!
# Forms that have their operands

The tokens of a list are read by the loop of `akl_compile_list` and, where the
head is the name of a special form, by this form.  `HasOperands` says of the
tokens behind an opening parenthesis, up to the closing one, that every special
form read as code finds as many operands in its own list as it takes.  Which
names stand for special forms may change from one token to the next, because
`defun!` binds a name before the body is read.
-/

namespace AkLisp

/-- Which special forms the names stand for. -/
abbrev FormNames := Symbol → Option SForm

/-- A token that stands for a value by itself. -/
def Token.isLeaf : Token → Bool
  | .tATOM | .tNUMBER | .tSTRING | .tNIL | .tTRUE => true
  | _ => false

/-- A token that is neither a parenthesis nor the end of the input. -/
def Token.isPlain (tok : Token) : Bool := tok.isLeaf || tok == .tQUOTE

/-- The tokens of the elements of a list of data with the closing parenthesis. -/
inductive DataTokens : List Lexeme → Prop where
  | close {q b l} (mark : QuoteMark q b) (tok : l.tok = .tRBRACE) : DataTokens (q ++ [l])
  | leaf {q b l ls} (mark : QuoteMark q b) (leaf : l.tok.isLeaf = true)
      (others : DataTokens ls) : DataTokens (q ++ l :: ls)
  | inner {q b l items ls} (mark : QuoteMark q b) (tok : l.tok = .tLBRACE)
      (inside : DataTokens items) (others : DataTokens ls) :
      DataTokens (q ++ l :: (items ++ ls))

/-- The tokens of a datum. -/
inductive DatumTokens : List Lexeme → Prop where
  | leaf {l} (leaf : l.tok.isLeaf = true) : DatumTokens [l]
  | list {l items} (tok : l.tok = .tLBRACE) (inside : DataTokens items) :
      DatumTokens (l :: items)

/-- The tokens of a parameter list without a list in it, or one token in its
place. -/
inductive ParamTokens : List Lexeme → Prop where
  | single {l} (plain : l.tok.isPlain = true) : ParamTokens [l]
  | list {l items r} (tok : l.tok = .tLBRACE) (plain : ∀ i ∈ items, i.tok.isPlain = true)
      (close : r.tok = .tRBRACE) : ParamTokens (l :: (items ++ [r]))

/-- The tokens between a parameter list and a body that begins with `first`.  A
string there is a documentation string, and the token behind it is dropped. -/
inductive DocTokens : List Lexeme → Lexeme → Prop where
  | absent {first} (notString : first.tok ≠ .tSTRING) : DocTokens [] first
  | present {str dropped first} (tok : str.tok = .tSTRING) (plain : dropped.tok.isPlain = true) :
      DocTokens [str, dropped] first

/-- What is read. -/
inductive CodePart where
  /-- one expression -/
  | operand
  /-- the rest of a list, from its head on or behind it -/
  | items (atHead : Bool)
  /-- what a special form takes behind its name -/
  | operands (form : SForm)

/-- The tokens of a part of the code in which every special form finds its
operands, with the special forms before and behind it. -/
inductive HasOperands : CodePart → List Lexeme → FormNames → FormNames → Prop where
  | leaf {l n} (leaf : l.tok.isLeaf = true) : HasOperands .operand [l] n n
  | quoted {q ls n} (tok : q.tok = .tQUOTE) (datum : DatumTokens ls) :
      HasOperands .operand (q :: ls) n n
  | list {l ls n n'} (tok : l.tok = .tLBRACE) (inside : HasOperands (.items true) ls n n') :
      HasOperands .operand (l :: ls) n n'
  | close {atHead q b l n} (mark : QuoteMark q b) (tok : l.tok = .tRBRACE) :
      HasOperands (.items atHead) (q ++ [l]) n n
  | headForm {q b l form ms ls n n₁ n'} (mark : QuoteMark q b) (tok : l.tok = .tATOM)
      (special : n (aklGetOrCreateSymbol l.text) = some form)
      (operands : HasOperands (.operands form) ms n n₁)
      (others : HasOperands (.items false) ls n₁ n') :
      HasOperands (.items true) (q ++ l :: (ms ++ ls)) n n'
  | headName {q b l ls n n'} (mark : QuoteMark q b) (tok : l.tok = .tATOM)
      (ordinary : n (aklGetOrCreateSymbol l.text) = none)
      (others : HasOperands (.items false) ls n n') :
      HasOperands (.items true) (q ++ l :: ls) n n'
  | itemLeaf {atHead q b l ls n n'} (mark : QuoteMark q b) (leaf : l.tok.isLeaf = true)
      (notHead : atHead = true → l.tok ≠ .tATOM)
      (others : HasOperands (.items false) ls n n') :
      HasOperands (.items atHead) (q ++ l :: ls) n n'
  | itemQuoted {atHead q l items ls n n'} (mark : q.tok = .tQUOTE) (tok : l.tok = .tLBRACE)
      (inside : DataTokens items) (others : HasOperands (.items false) ls n n') :
      HasOperands (.items atHead) (q :: l :: (items ++ ls)) n n'
  | itemList {atHead l items ls n n₁ n'} (tok : l.tok = .tLBRACE)
      (inside : HasOperands (.items true) items n n₁)
      (others : HasOperands (.items false) ls n₁ n') :
      HasOperands (.items atHead) (l :: (items ++ ls)) n n'
  | sif {tc ta tb n n₁ n₂ n'} (cond : HasOperands .operand tc n n₁)
      (body : HasOperands .operand ta n₁ n₂) (other : HasOperands .operand tb n₂ n') :
      HasOperands (.operands .sif) (tc ++ (ta ++ tb)) n n'
  | when {tc ta n n₁ n'} (cond : HasOperands .operand tc n n₁)
      (body : HasOperands .operand ta n₁ n') : HasOperands (.operands .when) (tc ++ ta) n n'
  | swhile {tc ta n n₁ n'} (cond : HasOperands .operand tc n n₁)
      (body : HasOperands .operand ta n₁ n') : HasOperands (.operands .swhile) (tc ++ ta) n n'
  | set {l ts n n'} (tok : l.tok = .tATOM) (rhs : HasOperands .operand ts n n') :
      HasOperands (.operands .set) (l :: ts) n n'
  /-- the form is given up behind its first token -/
  | setOther {l n} (plain : l.tok.isPlain = true) (notAtom : l.tok ≠ .tATOM) :
      HasOperands (.operands .set) [l] n n
  | lambda {tp doc first tb n n'} (params : ParamTokens tp) (docstring : DocTokens doc first)
      (body : HasOperands .operand (first :: tb) n n') :
      HasOperands (.operands .lambda) (tp ++ (doc ++ first :: tb)) n n'
  | defun {l tp doc first tb n n'} (tok : l.tok = .tATOM) (params : ParamTokens tp)
      (docstring : DocTokens doc first)
      (body : HasOperands .operand (first :: tb)
        (Function.update n (aklGetOrCreateSymbol l.text) none) n') :
      HasOperands (.operands .defun) (l :: (tp ++ (doc ++ first :: tb))) n n'
  /-- the form is given up behind its first token -/
  | defunOther {l n} (plain : l.tok.isPlain = true) (notAtom : l.tok ≠ .tATOM) :
      HasOperands (.operands .defun) [l] n n

/-- The tokens behind the name of a function, or behind a `lambda`, up to the end
of the list, when no body is among them. -/
inductive LacksBody : List Lexeme → Prop where
  | params : LacksBody []
  | body {tp} (params : ParamTokens tp) : LacksBody tp
  | dropped {tp str} (params : ParamTokens tp) (tok : str.tok = .tSTRING) :
      LacksBody (tp ++ [str])
  | docstring {tp str dropped} (params : ParamTokens tp) (tok : str.tok = .tSTRING)
      (plain : dropped.tok.isPlain = true) : LacksBody (tp ++ [str, dropped])

/-- The tokens behind the name of a special form up to the end of the list, when
the form takes more operands than these. -/
inductive LacksOperand : SForm → List Lexeme → FormNames → FormNames → Prop where
  | first {form n} : LacksOperand form [] n n
  | sifSecond {tc n n'} (cond : HasOperands .operand tc n n') : LacksOperand .sif tc n n'
  | sifThird {tc ta n n₁ n'} (cond : HasOperands .operand tc n n₁)
      (body : HasOperands .operand ta n₁ n') : LacksOperand .sif (tc ++ ta) n n'
  | when {tc n n'} (cond : HasOperands .operand tc n n') : LacksOperand .when tc n n'
  | swhile {tc n n'} (cond : HasOperands .operand tc n n') : LacksOperand .swhile tc n n'
  | set {l n} (tok : l.tok = .tATOM) : LacksOperand .set [l] n n
  | lambda {ts n} (lacks : LacksBody ts) : LacksOperand .lambda ts n n
  | defun {l ts n} (tok : l.tok = .tATOM) (lacks : LacksBody ts) :
      LacksOperand .defun (l :: ts) n (Function.update n (aklGetOrCreateSymbol l.text) none)

/-- A list that ends while the special form at its head still takes operands. -/
inductive ComesShort : List Lexeme → FormNames → Prop where
  | form {q b l form ts r n n'} (mark : QuoteMark q b) (tok : l.tok = .tATOM)
      (special : n (aklGetOrCreateSymbol l.text) = some form)
      (lacks : LacksOperand form ts n n') (close : r.tok = .tRBRACE) :
      ComesShort (q ++ l :: (ts ++ [r])) n

end AkLisp
