import AkLisp.Reader.Delivery

/-!
# The reader as a relation

`ReadsList` says which tokens the loop of `akl_parse_list` takes and what it
does to the data; there is one rule for each kind of element.  A bounded run of
the loop on any source that delivers these tokens follows the relation.
-/

namespace AkLisp

/-- An optional quote in front of a datum. -/
inductive QuoteMark : List Lexeme → Bool → Prop where
  | plain : QuoteMark [] false
  | quoted {q : Lexeme} (tok : q.tok = .tQUOTE) : QuoteMark [q] true

/-- The loop of `akl_parse_list` appends a value to the list. -/
def Data.collect (d : Data) (list : LRef) (value : VRef) : Data :=
  (reparent d list value).listAppendValue list value

/-- The end of `akl_parse_list`. -/
def Data.closeList (d : Data) (list : LRef) : Data :=
  d.modifyList list fun header => { header with isQuoted := true }

/-- The tokens the loop of `akl_parse_list` takes for the rest of a list, with
the data before and after. -/
inductive ReadsList [Libc] : List Lexeme → LRef → Data → Data → Prop where
  | close {q b l list d} (mark : QuoteMark q b) (tok : l.tok = .tRBRACE) :
      ReadsList (q ++ [l]) list d (d.closeList list)
  | leaf {q b l leaf ls list} {d d' : Data} (mark : QuoteMark q b) (leafEq : l.leaf? = some leaf)
      (others : ReadsList ls list
        ((d.newValue (leafValue leaf b)).2.collect list d.values.length) d') :
      ReadsList (q ++ l :: ls) list d d'
  | inner {q b l items ls list} {d d₁ d' : Data} (mark : QuoteMark q b) (tok : l.tok = .tLBRACE)
      (inside : ReadsList items d.newList.1 d.newList.2 d₁)
      (others : ReadsList ls list
        ((d₁.newValue ⟨.list d.newList.1, b, false⟩).2.collect list d₁.values.length) d') :
      ReadsList (q ++ l :: (items ++ ls)) list d d'

/-- The tokens `akl_parse_value` takes for a datum, the value it returns, and
the data before and after. -/
inductive ReadsValue [Libc] : List Lexeme → Bool → Data → VRef → Data → Prop where
  | leaf {l leaf b} {d : Data} (leafEq : l.leaf? = some leaf) :
      ReadsValue [l] b d d.values.length (d.newValue (leafValue leaf b)).2
  | list {l items b} {d d₁ : Data} (tok : l.tok = .tLBRACE)
      (inside : ReadsList items d.newList.1 d.newList.2 d₁) :
      ReadsValue (l :: items) b d d₁.values.length (d₁.newValue ⟨.list d.newList.1, b, false⟩).2

variable {σ : Type} [TokenSource σ] [Libc] {D : Delivery σ}

theorem leaf_ne_quote {l : Lexeme} {leaf : Payload × Bool} (leafEq : l.leaf? = some leaf) :
    l.tok ≠ .tQUOTE := by
  intro equal
  simp [Lexeme.leaf?, equal] at leafEq

/-- `akl_parse_value` behind its optional quote. -/
theorem aklParseValue_mark {q : List Lexeme} {b : Bool} (mark : QuoteMark q b) {l : Lexeme}
    {ls : List Lexeme} {dev : σ} (ready : D.Ready (q ++ l :: ls) dev) (notQuote : l.tok ≠ .tQUOTE)
    (inner : CompState σ → Except Fault (LRef × CompState σ)) (s : CompState Unit) :
    ∃ dev', aklParseValue inner (s.withDev dev) = aklParseToken inner (s.withDev dev') l.tok b ∧
      D.Lexed l ls dev' := by
  cases mark with
  | plain =>
      obtain ⟨dev', lexEq, lexed⟩ := CompState.aklLex_offers (Delivery.offers ready) s
      refine ⟨dev', ?_, lexed⟩
      simp only [aklParseValue, lexEq, bind, Except.bind, if_neg notQuote]
  | quoted tok =>
      obtain ⟨dev₁, lexEq, lexed⟩ := CompState.aklLex_offers (Delivery.offers ready) s
      obtain ⟨dev', lexEq', lexed'⟩ :=
        CompState.aklLex_offers (Delivery.offers (D.forget lexed)) s
      refine ⟨dev', ?_, lexed'⟩
      simp only [aklParseValue, lexEq, bind, Except.bind, tok, if_true, lexEq']

/-- A run of the list loop with enough fuel follows the relation. -/
theorem ReadsList.sound {ls : List Lexeme} {list : LRef} {d d' : Data}
    (reads : ReadsList ls list d d') (fuel : Nat) (enough : ls.length ≤ fuel)
    {rest : List Lexeme} {dev : σ} (ready : D.Ready (ls ++ rest) dev) (s : CompState Unit) :
    ∃ dev', parseListLoop fuel list ((s.withData d).withDev dev) =
        .ok (list, (s.withData d').withDev dev') ∧ D.Ready rest dev' := by
  induction reads generalizing fuel rest dev with
  | @close q b l list d mark tok =>
      simp only [List.length_append, List.length_singleton] at enough
      obtain ⟨fuel, rfl⟩ : ∃ n, fuel = n + 1 := ⟨fuel - 1, by omega⟩
      rw [List.append_assoc] at ready
      obtain ⟨dev', valueEq, lexed⟩ := aklParseValue_mark mark ready (by rw [tok]; decide)
        (aklParseList fuel) (s.withData d)
      refine ⟨dev', ?_, D.forget lexed⟩
      change (aklParseValue (aklParseList fuel) _ >>= _) = _
      rw [valueEq, tok]
      rfl
  | @leaf q b l leaf ls list d d' mark leafEq others ih =>
      simp only [List.length_append, List.length_cons] at enough
      obtain ⟨fuel, rfl⟩ : ∃ n, fuel = n + 1 := ⟨fuel - 1, by omega⟩
      have bound : ls.length ≤ fuel := by omega
      rw [List.append_assoc] at ready
      obtain ⟨dev₁, valueEq, lexed⟩ := aklParseValue_mark mark ready (leaf_ne_quote leafEq)
        (aklParseList fuel) (s.withData d)
      obtain ⟨dev₂, tokenEq, ready₂⟩ :=
        aklParseToken_leaf lexed leafEq (aklParseList fuel) b (s.withData d)
      obtain ⟨dev', loopEq, ready'⟩ := ih _ bound ready₂
      refine ⟨dev', ?_, ready'⟩
      change (aklParseValue (aklParseList fuel) _ >>= _) = _
      rw [valueEq, tokenEq]
      exact loopEq
  | @inner q b l items ls list d d₁ d' mark tok inside others ihInside ihOthers =>
      simp only [List.length_append, List.length_cons] at enough
      obtain ⟨fuel, rfl⟩ : ∃ n, fuel = n + 1 := ⟨fuel - 1, by omega⟩
      have boundItems : items.length ≤ fuel := by omega
      have bound : ls.length ≤ fuel := by omega
      rw [List.append_assoc, List.cons_append, List.append_assoc] at ready
      obtain ⟨dev₁, valueEq, lexed⟩ := aklParseValue_mark mark ready (by rw [tok]; decide)
        (aklParseList fuel) (s.withData d)
      obtain ⟨dev₂, innerEq, ready₂⟩ := ihInside _ boundItems (D.forget lexed)
      obtain ⟨dev', loopEq, ready'⟩ := ihOthers _ bound ready₂
      refine ⟨dev', ?_, ready'⟩
      have listEq : aklParseList fuel ((s.withData d).withDev dev₁) =
          .ok (d.newList.1, (s.withData d₁).withDev dev₂) := innerEq
      change (aklParseValue (aklParseList fuel) _ >>= _) = _
      rw [valueEq, tok]
      simp only [aklParseToken, listEq, bind, Except.bind]
      exact loopEq

/-- `akl_parse_token` on the first token of a datum follows the relation. -/
theorem ReadsValue.sound {l : Lexeme} {ls : List Lexeme} {b : Bool} {v : VRef}
    {s : CompState Unit} {d' : Data} (reads : ReadsValue (l :: ls) b s.data v d') {fuel : Nat}
    (enough : ls.length ≤ fuel) {rest : List Lexeme} {dev : σ}
    (lexed : D.Lexed l (ls ++ rest) dev) :
    ∃ dev', aklParseToken (aklParseList fuel) (s.withDev dev) l.tok b =
        .ok (some v, (s.withData d').withDev dev') ∧ D.Ready rest dev' := by
  cases reads with
  | leaf leafEq => exact aklParseToken_leaf lexed leafEq (aklParseList fuel) b s
  | list tok inside =>
      obtain ⟨dev', loopEq, ready⟩ := inside.sound _ enough (D.forget lexed) s
      refine ⟨dev', ?_, ready⟩
      have listEq : aklParseList fuel (s.withDev dev) =
          .ok (s.data.newList.1, (s.withData _).withDev dev') := loopEq
      rw [tok]
      simp only [aklParseToken, listEq, bind, Except.bind]
      rfl

end AkLisp
