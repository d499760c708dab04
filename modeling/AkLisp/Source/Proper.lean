import AkLisp.Source.Form
import AkLisp.Source.Operands

/-!
# Expressions have their operands

The tokens of an expression are a part of the code in which every special form
finds its operands, as long as the special forms have their names and no call has
such a name at its head.
-/

namespace AkLisp

/-- The special forms have their names, and the names without one still have none. -/
structure FormNames.Suits (n₀ n : FormNames) : Prop where
  special : ∀ form : SForm, n form.symbol = some form
  ordinary : ∀ sym, n₀ sym = none → n sym = none

/-- `defun!` binds a name that is not the one of a special form. -/
theorem FormNames.Suits.update {n₀ n : FormNames} (suits : n₀.Suits n) {sym : Symbol}
    (notForm : ∀ form : SForm, form.symbol ≠ sym) : n₀.Suits (Function.update n sym none) where
  special := fun form => by
    rw [Function.update_of_ne (notForm form)]
    exact suits.special form
  ordinary := fun sym' none => by
    by_cases same : sym' = sym
    · rw [same, Function.update_self]
    · rw [Function.update_of_ne same]
      exact suits.ordinary sym' none

/-! ### Data and parameters -/

/-- The tokens of a datum in front of the other elements of a list. -/
theorem DatumTokens.inList {ts q ls : List Lexeme} {b : Bool} (tokens : DatumTokens ts)
    (mark : QuoteMark q b) (others : DataTokens ls) : DataTokens (q ++ (ts ++ ls)) := by
  cases tokens with
  | leaf leaf => exact .leaf mark leaf others
  | list tok inside => exact .inner mark tok inside others

mutual

theorem Datum.datumTokens : ∀ x : Datum, DatumTokens x.tokens
  | .number _ | .string _ | .atom _ | .nil | .true => .leaf rfl
  | .list items => .list rfl (Datums.dataTokens items)

theorem Datums.dataTokens : ∀ xs : Datums, DataTokens xs.tokens
  | .nil => .close .plain rfl
  | .cons isQuoted x xs =>
      (Datum.datumTokens x).inList (quoteMark_mark isQuoted) (Datums.dataTokens xs)

end

theorem paramTokens_tokens (params : List (List Chr)) : ParamTokens (paramTokens params) := by
  cases params with
  | nil => exact .single rfl
  | cons text params =>
      refine .list rfl ?_ rfl
      intro l mem
      obtain ⟨text, -, rfl⟩ := List.mem_map.mp mem
      rfl

/-- The first token of an expression. -/
theorem Form.tokens_first (e : Form) :
    ∃ first others, e.tokens = first :: others ∧ first.tok ≠ .tEOF ∧
      (¬e.IsString → first.tok ≠ .tSTRING) := by
  cases e with
  | literal c =>
      cases c with
      | string text =>
          exact ⟨_, _, rfl, Token.noConfusion, fun notString => absurd trivial notString⟩
      | _ => exact ⟨_, _, rfl, Token.noConfusion, fun _ => Token.noConfusion⟩
  | _ => exact ⟨_, _, rfl, Token.noConfusion, fun _ => Token.noConfusion⟩

/-! ### Expressions -/

/-- An operand is also an element of a list. -/
theorem HasOperands.item {ts ls : List Lexeme} {n n₁ n' : FormNames}
    (operand : HasOperands .operand ts n n₁) (others : HasOperands (.items false) ls n₁ n') :
    HasOperands (.items false) (ts ++ ls) n n' := by
  cases operand with
  | leaf leaf => exact .itemLeaf .plain leaf Bool.noConfusion others
  | quoted tok datum =>
      cases datum with
      | leaf leaf => exact .itemLeaf (.quoted tok) leaf Bool.noConfusion others
      | list tok' inside => exact .itemQuoted tok tok' inside others
  | list tok inside => exact .itemList tok inside others

/-- A list with a special form at its head. -/
theorem HasOperands.formList {form : SForm} {ms : List Lexeme} {n₀ n n' : FormNames}
    (suits : n₀.Suits n) (operands : HasOperands (.operands form) ms n n') :
    HasOperands .operand (openLexeme :: atomLexeme form.text :: (ms ++ [closeLexeme])) n n' :=
  .list rfl (.headForm .plain rfl (suits.special form) operands (.close .plain rfl))

/-- What a `lambda` takes. -/
theorem HasOperands.lambdaOperands (params : List (List Chr)) {body : Form}
    (notString : ¬body.IsString) {n n' : FormNames}
    (operand : HasOperands .operand body.tokens n n') :
    HasOperands (.operands .lambda) (paramTokens params ++ body.tokens) n n' := by
  obtain ⟨first, others, tokens, -, stringOnly⟩ := body.tokens_first
  rw [tokens] at operand ⊢
  exact .lambda (paramTokens_tokens params) (.absent (stringOnly notString)) operand

/-- What a `defun!` takes. -/
theorem HasOperands.defunOperands (name : List Chr) (params : List (List Chr)) {body : Form}
    (notString : ¬body.IsString) {n n' : FormNames}
    (operand : HasOperands .operand body.tokens
      (Function.update n (aklGetOrCreateSymbol name) none) n') :
    HasOperands (.operands .defun)
      (atomLexeme name :: (paramTokens params ++ body.tokens)) n n' := by
  obtain ⟨first, others, tokens, -, stringOnly⟩ := body.tokens_first
  rw [tokens] at operand ⊢
  exact .defun rfl (paramTokens_tokens params) (.absent (stringOnly notString)) operand

section Forms

variable {n₀ : FormNames}

/-- The names that may be called. -/
abbrev FormNames.Ordinary (n : FormNames) (sym : Symbol) : Prop := n sym = none

mutual

/-- The special forms in an expression find their operands. -/
theorem Form.WellFormed.hasOperands : ∀ {e : Form} {n : FormNames},
    e.WellFormed n₀.Ordinary → n₀.Suits n →
    ∃ n', HasOperands .operand e.tokens n n' ∧ n₀.Suits n'
  | .literal c, n, _, suits => ⟨n, by cases c <;> exact .leaf rfl, suits⟩
  | .quoted x, n, _, suits => ⟨n, .quoted rfl x.datumTokens, suits⟩
  | .name _, n, _, suits => ⟨n, .leaf rfl, suits⟩
  | .call _ _, _, ⟨ordinary, arguments⟩, suits =>
      have ⟨n', others, suits'⟩ := Forms.WellFormed.hasOperands arguments suits
      ⟨n', .list rfl (.headName .plain rfl (suits.ordinary _ ordinary) others), suits'⟩
  | .sif _ _ _, _, ⟨cond, body, other⟩, suits =>
      have ⟨_, condOperand, suits₁⟩ := Form.WellFormed.hasOperands cond suits
      have ⟨_, bodyOperand, suits₂⟩ := Form.WellFormed.hasOperands body suits₁
      have ⟨n', otherOperand, suits'⟩ := Form.WellFormed.hasOperands other suits₂
      ⟨n', .formList suits (.sif condOperand bodyOperand otherOperand), suits'⟩
  | .set _ e, _, wellFormed, suits =>
      have rhs : e.WellFormed n₀.Ordinary := wellFormed
      have ⟨n', operand, suits'⟩ := Form.WellFormed.hasOperands rhs suits
      ⟨n', .formList suits (.set rfl operand), suits'⟩
  | .when _ _, _, ⟨cond, body⟩, suits =>
      have ⟨_, condOperand, suits₁⟩ := Form.WellFormed.hasOperands cond suits
      have ⟨n', bodyOperand, suits'⟩ := Form.WellFormed.hasOperands body suits₁
      ⟨n', .formList suits (.when condOperand bodyOperand), suits'⟩
  | .swhile _ _, _, ⟨cond, body⟩, suits =>
      have ⟨_, condOperand, suits₁⟩ := Form.WellFormed.hasOperands cond suits
      have ⟨n', bodyOperand, suits'⟩ := Form.WellFormed.hasOperands body suits₁
      ⟨n', .formList suits (.swhile condOperand bodyOperand), suits'⟩
  | .defun name params _, _, ⟨notForm, notString, inside⟩, suits =>
      have ⟨n', operand, suits'⟩ := Form.WellFormed.hasOperands inside (suits.update notForm)
      ⟨n', .formList suits (operand.defunOperands name params notString), suits'⟩
  | .lambda params _, _, ⟨notString, inside⟩, suits =>
      have ⟨n', operand, suits'⟩ := Form.WellFormed.hasOperands inside suits
      ⟨n', .formList suits (operand.lambdaOperands params notString), suits'⟩

theorem Forms.WellFormed.hasOperands : ∀ {es : Forms} {n : FormNames},
    es.WellFormed n₀.Ordinary → n₀.Suits n →
    ∃ n', HasOperands (.items false) es.tokens n n' ∧ n₀.Suits n'
  | .nil, n, _, suits => ⟨n, .close .plain rfl, suits⟩
  | .cons _ _, _, ⟨first, others⟩, suits =>
      have ⟨_, operand, suits₁⟩ := Form.WellFormed.hasOperands first suits
      have ⟨n', items, suits'⟩ := Forms.WellFormed.hasOperands others suits₁
      ⟨n', operand.item items, suits'⟩

end

end Forms

end AkLisp
