import AkLisp.Compiler.Compile
import AkLisp.Reader.Reads

/-!
# The compiler as a relation

`Translates` says which tokens a part of the compiler takes and what it does to
the state, without a device and without a bound on the recursion.  There is one
rule for each way through `akl_compile_next`, through the loop of
`akl_compile_list` and through a special form that ends without a fault and
before the end of the input.
-/

namespace AkLisp

/-- A part of the compiler. -/
inductive FrontTask where
  /-- `akl_compile_next` -/
  | next (cx : CompContext)
  /-- the loop of `akl_compile_list` -/
  | loop (cx : CompContext) (loc : ListLocals)
  /-- a special form behind its name -/
  | form (cx : CompContext) (form : SForm)

/-- Append a parameter to a user function. -/
def CompState.addArg (s : CompState Unit) (func : FRef) (sym : Symbol) : CompState Unit :=
  s.modifyUfun func fun ufun => { ufun with ufArgs := ufun.ufArgs ++ [sym] }

/-- The state in which `akl_parse_token` has made a value of an atom. -/
abbrev CompState.withSymbol (s : CompState Unit) (sym : Symbol) (isQuoted : Bool) :
    CompState Unit :=
  s.withData (s.data.newValue ⟨.symbol sym, isQuoted, false⟩).2

/-- The loop of `akl_parse_params`. -/
inductive ParamLoop (func : FRef) :
    List Lexeme → CompState Unit → CompState Unit → Prop where
  | close {l s} (tok : l.tok = .tRBRACE) : ParamLoop func [l] s s
  | atom {l ls s s'} (tok : l.tok = .tATOM)
      (others : ParamLoop func ls (s.addArg func (aklGetOrCreateSymbol l.text)) s') :
      ParamLoop func (l :: ls) s s'
  | skip {l ls s s'} (notClose : l.tok ≠ .tRBRACE) (notAtom : l.tok ≠ .tATOM)
      (others : ParamLoop func ls s s') : ParamLoop func (l :: ls) s s'

/-- `akl_parse_params`. -/
inductive Params (fname : String) (func : FRef) :
    List Lexeme → CompState Unit → CompState Unit → Prop where
  | empty {l s} (tok : l.tok = .tNIL) : Params fname func [l] s s
  | list {l ls s s'} (tok : l.tok = .tLBRACE) (others : ParamLoop func ls s s') :
      Params fname func (l :: ls) s s'
  | missing {l s} (notNil : l.tok ≠ .tNIL) (notList : l.tok ≠ .tLBRACE) :
      Params fname func [l] s (s.aklRaiseError .error
        ("Expected an argument list for function definition '" ++ fname ++ "'"))

/-- The tokens between the parameters and the body, which begins with `first`:
none, or a documentation string and the one token behind it. -/
inductive Docstring : List Lexeme → Lexeme → Prop where
  | absent {first} (notString : first.tok ≠ .tSTRING) (notEof : first.tok ≠ .tEOF) :
      Docstring [] first
  | present {str dropped first} (tok : str.tok = .tSTRING) : Docstring [str, dropped] first

/-- `set!` pushes a function its operand evaluates to. -/
def pushFunction (cx : CompContext) (s : CompState Unit) : Option FRef → CompState Unit
  | none => s
  | some fn =>
      aklBuildPush cx (s.withData (s.data.newFunctionValue fn).2)
        (some (s.data.newFunctionValue fn).1)

/-- The state behind the name and the parameters of a definition. -/
def bindFunction (s : CompState Unit) (sym : Symbol) (fval : VRef) : CompState Unit :=
  s.withData (s.data.aklSetGlobalVar sym fval)

/-- The push of the defined name. -/
def pushName (cx : CompContext) (s : CompState Unit) (sym : Symbol) : CompState Unit :=
  aklBuildPush cx (s.withData (s.data.newSymValue sym).2) (some (s.data.newSymValue sym).1)

/-- The tokens a part of the compiler takes, the function it returns, and the
states before and after. -/
inductive Translates [Libc] :
    FrontTask → List Lexeme → CompState Unit → Option FRef → CompState Unit → Prop where
  | nextLeaf {cx l leaf} {s : CompState Unit} (leafEq : l.leaf? = some leaf) :
      Translates (.next cx) [l] s none
        (aklBuildPush cx (s.withData (s.data.newValue (leafValue leaf false)).2)
          (some s.data.values.length))
  | nextQuoted {cx q l ls v d'} {s : CompState Unit} (tok : q.tok = .tQUOTE)
      (reads : ReadsValue (l :: ls) true s.data v d') :
      Translates (.next cx) (q :: l :: ls) s none (aklBuildPush cx (s.withData d') (some v))
  | nextClose {cx l} {s : CompState Unit} (tok : l.tok = .tRBRACE) :
      Translates (.next cx) [l] s none (aklBuildPush cx s none)
  | nextList {cx l ls s fn s'} (tok : l.tok = .tLBRACE)
      (list : Translates (.loop cx .init) ls s fn s') : Translates (.next cx) (l :: ls) s fn s'
  | close {cx loc q b l} {s : CompState Unit} (mark : QuoteMark q b) (tok : l.tok = .tRBRACE) :
      Translates (.loop cx loc) (q ++ [l]) s (compileEnd cx loc s).1 (compileEnd cx loc s).2
  | headName {cx loc q b l ls sym pfSt fun_} {s : CompState Unit} {fn s'} (mark : QuoteMark q b)
      (first : loc.felem = true) (tok : l.tok = .tATOM)
      (symEq : aklGetOrCreateSymbol l.text = sym)
      (fetched : prefetchFunction (s.withSymbol sym b) sym = (pfSt, fun_))
      (callable : pfSt = .normal ∨ pfSt = .notFound)
      (others : Translates (.loop cx { loc with pfSt, fun_, felem := false, sym := some sym }) ls
        (s.withSymbol sym b) fn s') :
      Translates (.loop cx loc) (q ++ l :: ls) s fn s'
  | headOther {cx loc q b l ls sym fun_} {s : CompState Unit} {fn s'} (mark : QuoteMark q b)
      (first : loc.felem = true) (tok : l.tok = .tATOM)
      (symEq : aklGetOrCreateSymbol l.text = sym)
      (fetched : prefetchFunction (s.withSymbol sym b) sym = (.notFn, fun_))
      (others : Translates (.loop cx { loc with pfSt := .notFn, fun_, felem := false }) ls
        (s.withSymbol sym b) fn s') :
      Translates (.loop cx loc) (q ++ l :: ls) s fn s'
  | headForm {cx loc q b l ms ls sym f form} {s : CompState Unit} {fun_ s₁ fn s'}
      (mark : QuoteMark q b) (first : loc.felem = true) (tok : l.tok = .tATOM)
      (symEq : aklGetOrCreateSymbol l.text = sym)
      (fetched : prefetchFunction (s.withSymbol sym b) sym = (.sform, some f))
      (formEq : s.sform? f = some form)
      (operands : Translates (.form cx form) ms
        (s.withSymbol sym b) fun_ s₁)
      (others :
        Translates (.loop cx { loc with pfSt := .sform, fun_, felem := false }) ls s₁ fn s') :
      Translates (.loop cx loc) (q ++ l :: (ms ++ ls)) s fn s'
  | atom {cx loc q b l ls sym} {s : CompState Unit} {fn s'} (mark : QuoteMark q b)
      (later : loc.felem = false) (tok : l.tok = .tATOM)
      (symEq : aklGetOrCreateSymbol l.text = sym)
      (others : Translates (.loop cx loc.countArg) ls
        (compileAtom cx b s.data.values.length sym
          (s.withSymbol sym b)) fn s') :
      Translates (.loop cx loc) (q ++ l :: ls) s fn s'
  | leaf {cx loc q b l leaf ls} {s : CompState Unit} {fn s'} (mark : QuoteMark q b)
      (leafEq : l.leaf? = some leaf) (notAtom : l.tok ≠ .tATOM)
      (others : Translates (.loop cx loc.countArg) ls
        (aklBuildPush cx (s.withData (s.data.newValue (leafValue leaf true)).2)
          (some s.data.values.length)) fn s') :
      Translates (.loop cx loc) (q ++ l :: ls) s fn s'
  | quotedList {cx loc q l items ls v d'} {s : CompState Unit} {fn s'} (mark : q.tok = .tQUOTE)
      (tok : l.tok = .tLBRACE) (reads : ReadsValue (l :: items) true s.data v d')
      (others : Translates (.loop cx loc.countArg) ls
        (aklBuildPush cx (s.withData d') (some v)) fn s') :
      Translates (.loop cx loc) (q :: l :: (items ++ ls)) s fn s'
  | inner {cx loc l items ls s f s₁ fn s'} (tok : l.tok = .tLBRACE)
      (inside : Translates (.loop cx .init) items s f s₁)
      (others : Translates (.loop cx (compileInner cx loc f s₁).1) ls
        (compileInner cx loc f s₁).2 fn s') :
      Translates (.loop cx loc) (l :: (items ++ ls)) s fn s'
  | when {cx tc ta s loff s₁ fc s₂ fa s₃} (labels : aklNewLabels cx s 1 = (loff, s₁))
      (cond : Translates (.next cx) tc s₁ fc s₂)
      (body : Translates (.next cx) ta
        (aklBuildJump cx s₂ .jmpFalse ⟨cx.cxCompFunc, loff⟩) fa s₃) :
      Translates (.form cx .when) (tc ++ ta) s none
        (aklBuildLabel cx s₃ ⟨cx.cxCompFunc, loff⟩)
  | sif {cx tc ta tb s loff s₁ fc s₂ fa s₃ fb s₄} (labels : aklNewLabels cx s 2 = (loff, s₁))
      (cond : Translates (.next cx) tc s₁ fc s₂)
      (body : Translates (.next cx) ta
        (aklBuildJump cx s₂ .jmpFalse ⟨cx.cxCompFunc, loff + 1⟩) fa s₃)
      (other : Translates (.next cx) tb
        (aklBuildLabel cx (aklBuildJump cx s₃ .jmp ⟨cx.cxCompFunc, loff⟩)
          ⟨cx.cxCompFunc, loff + 1⟩) fb s₄) :
      Translates (.form cx .sif) (tc ++ (ta ++ tb)) s none
        (aklBuildLabel cx s₄ ⟨cx.cxCompFunc, loff⟩)
  | swhile {cx tc ta s loff s₁ fc s₂ fa s₃} (labels : aklNewLabels cx s 2 = (loff, s₁))
      (cond : Translates (.next cx) tc (aklBuildLabel cx s₁ ⟨cx.cxCompFunc, loff⟩) fc s₂)
      (body : Translates (.next cx) ta
        (aklBuildJump cx s₂ .jmpFalse ⟨cx.cxCompFunc, loff + 1⟩) fa s₃) :
      Translates (.form cx .swhile) (tc ++ ta) s none
        (aklBuildLabel cx (aklBuildJump cx s₃ .jmp ⟨cx.cxCompFunc, loff⟩)
          ⟨cx.cxCompFunc, loff + 1⟩)
  | set {cx l ts s fn s₁} (tok : l.tok = .tATOM) (rhs : Translates (.next cx) ts s fn s₁) :
      Translates (.form cx .set) (l :: ts) s none
        (aklBuildSet cx (pushFunction cx s₁ fn) (aklGetOrCreateSymbol l.text))
  | setOther {cx l} {s : CompState Unit} (notAtom : l.tok ≠ .tATOM) :
      Translates (.form cx .set) [l] s none
        (s.aklRaiseError .error "Unexpected token, (need a valid atom for set!)")
  | lambda {cx tp doc first tb s func s₁ s₂ fb s₃} (new : aklNewUserFunction s = (func, s₁))
      (params : Params "lambda" func tp s₁ s₂) (docstring : Docstring doc first)
      (body : Translates (.next ⟨func, func⟩) (first :: tb) s₂ fb s₃) :
      Translates (.form cx .lambda) (tp ++ (doc ++ first :: tb)) s (some func) s₃
  | defun {cx l sym tp doc first tb s func s₁ s₂ fb s₃} (new : aklNewUserFunction s = (func, s₁))
      (tok : l.tok = .tATOM) (symEq : aklGetOrCreateSymbol l.text = sym)
      (params : Params sym.text func tp (s₁.withData (s₁.data.newFunctionValue func).2) s₂)
      (docstring : Docstring doc first)
      (body : Translates (.next ⟨func, func⟩) (first :: tb)
        (bindFunction s₂ sym (s₁.data.newFunctionValue func).1) fb s₃) :
      Translates (.form cx .defun) (l :: (tp ++ (doc ++ first :: tb))) s (some func)
        (pushName cx s₃ sym)
  | defunOther {cx l s func s₁} (new : aklNewUserFunction s = (func, s₁))
      (notAtom : l.tok ≠ .tATOM) :
      Translates (.form cx .defun) [l] s none
        ((s₁.withData (s₁.data.newFunctionValue func).2).aklRaiseError .error
          "Unexpected token, defun! needs a parameter list and a function body")

end AkLisp
