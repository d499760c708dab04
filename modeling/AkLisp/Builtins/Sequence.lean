import AkLisp.Builtins.Arguments
import AkLisp.Builtins.Compare
import AkLisp.List.Index

/-!
# Lists and strings as sequences

The built-ins that look at a list or a string, and `tail`, which gives the rest of a
list a header of its own.  Emptiness is recorded in the count and in the nil flag of
the header, but `nil?` asks the nil flag of the value.
-/

namespace AkLisp

open Linked

/-- `AKL_NULLER` -/
def aklNuller (v : Option VRef) : VRef := v.getD Data.aklNil

namespace CallState

/-- `akl_new_number_value`, `akl_new_string_value`: a value that is neither quoted nor
nil. -/
def newValue (ctx : CallState) (payload : Payload) : VRef × CallState :=
  let (v, data) := ctx.data.newValue ⟨payload, false, false⟩
  (v, { ctx with data })

/-- `akl_new_list_value` for a header that is new, too. -/
def newListValue (ctx : CallState) (list : AklList) : VRef × CallState :=
  let lists := ctx.data.lists ++ [list]
  { ctx with data := { ctx.data with lists } }.newValue (.list ctx.data.lists.length)

/-- The number of a value. -/
def number? (ctx : CallState) (v : Option VRef) : Option ℚ :=
  match v.bind ctx.data.payload with
  | some (.number n) => some n
  | _ => none

end CallState

/-- The report about an argument of another type. -/
def notSequence (v : VRef) (ctx : CallState) : VRef × CallState :=
  (v, ctx.aklRaiseError .error "Argument must be a list or a string!")

/-- `akl_fn_length` -/
def aklFnLength (ctx : CallState) : Except Fault (VRef × CallState) :=
  match ctx.aklGetArgs 1 with
  | (some [vp], ctx) =>
      match ctx.data.payload vp with
      | some (.string t) => return ctx.newValue (.number t.length)
      | some (.list l) =>
          match ctx.data.lists[l]? with
          | none => throw .nullDeref
          | some list => return ctx.newValue (.number list.liCount.toNat)
      | _ => return (Data.aklNil, (notSequence vp ctx).2)
  | (_, ctx) => return (Data.aklNil, ctx)

/-- The element that a built-in takes from a string or from a list. -/
def takeElement (ofString : List Chr → Option Chr)
    (ofList : Mem VRef → AklList → Except Fault (Option VRef)) (v : VRef) (ctx : CallState) :
    Except Fault (VRef × CallState) :=
  match ctx.data.payload v with
  | some (.string t) =>
      match ofString t with
      | none => return (Data.aklNil, ctx)
      | some ch => return ctx.newValue (.string [ch])
  | some (.list l) =>
      match ctx.data.lists[l]? with
      | none => throw .nullDeref
      | some list => do
          let element ← ofList ctx.data.entries list
          return (aklNuller element, ctx)
  | _ => return notSequence v ctx

/-- The frame of `head`, `last` and `tail`. -/
def noParameter (ctx : CallState) : VRef × CallState :=
  (Data.aklNil, ctx.aklRaiseError .error "No parameter is given.")

/-- `akl_fn_ls_head` -/
def aklFnLsHead (ctx : CallState) : Except Fault (VRef × CallState) :=
  match ctx.aklFramePop with
  | (none, ctx) => return noParameter ctx
  | (some v, ctx) => takeElement List.head? (fun m list => return aklListHead m list) v ctx

/-- `akl_fn_ls_last` -/
def aklFnLsLast (ctx : CallState) : Except Fault (VRef × CallState) :=
  match ctx.aklFramePop with
  | (none, ctx) => return noParameter ctx
  | (some v, ctx) => takeElement List.getLast? (fun m list => return aklListLast m list) v ctx

/-- `akl_fn_ls_index` -/
def aklFnLsIndex (ctx : CallState) : Except Fault (VRef × CallState) :=
  let (shifted, ctx) := ctx.aklFrameShift
  let n := ctx.number? shifted
  let (v, ctx) := ctx.aklFramePop
  match n, v with
  | none, _ => return (Data.aklNil, ctx.aklRaiseError .error "No index is given.")
  | _, none => return (Data.aklNil, ctx.aklRaiseError .error "No indexable value is given.")
  | some n, some v =>
      let i := toInt n
      takeElement (fun t => if 0 ≤ i then t[i.toNat]? else none)
        (fun m list => assertedIndex m (some list) i) v ctx

/-- `akl_fn_ls_tail` -/
def aklFnLsTail (ctx : CallState) : VRef × CallState :=
  match ctx.aklFramePop with
  | (none, ctx) => noParameter ctx
  | (some v, ctx) =>
      match ctx.data.payload v with
      | some (.string t) =>
          if t.length > 0 then ctx.newValue (.string t.tail) else (Data.aklNil, ctx)
      | some (.list l) =>
          match ctx.data.lists[l]?.bind (aklCdr ctx.data.entries) with
          | none => (Data.aklNil, ctx)
          | some rest => ctx.newListValue { rest with isQuoted := true }
      | _ => notSequence v ctx

/-- `akl_fn_isnil` -/
def aklFnIsnil (ctx : CallState) : VRef × CallState :=
  let (v, ctx) := ctx.aklFramePop
  (if ctx.data.isNil v then Data.aklTrue else Data.aklNil, ctx)

/-- The value is a list of the entries `as`, in a chain that begins with `pre`; a list
that is not empty is not marked as nil. -/
structure ListValue (d : Data) (v : VRef) (pre as : List Addr) : Prop where
  header : ∃ l list, d.payload v = some (.list l) ∧ d.lists[l]? = some list ∧
    list.EndsChain d.entries pre as ∧ list.liCount.toNat = as.length ∧
    (list.isNil = true ↔ as = [])

/-- The header that `akl_cdr` makes for the entries behind the first one. -/
theorem aklCdr_endsChain {m : Mem VRef} {list : AklList} {pre as : List Addr} {a : Addr}
    (ends : list.EndsChain m pre (a :: as)) (count : list.liCount.toNat = as.length + 1)
    (clear : list.isNil = false) : ∃ rest, aklCdr m list = some rest ∧
      rest.EndsChain m (pre ++ [a]) as ∧ rest.liCount.toNat = as.length ∧
      (rest.isNil = true ↔ as = []) := by
  have nonzero : list.liCount ≠ 0 := by
    intro zero
    rw [zero] at count
    simp at count
  have countRest : (list.liCount - 1).toNat = as.length := by
    have one : (1 : UInt32) ≤ list.liCount := by
      rw [UInt32.le_iff_toNat_le, count]
      simp
    rw [UInt32.toNat_sub_of_le _ _ one, count]
    rfl
  have chained : Chained m none (pre ++ [a] ++ as) none := by simpa using ends.chained
  have headEq : list.liHead.bind m.next = as.head? := by
    rw [ends.head, List.head?_cons, Option.bind_some, ends.chained.next_at, Option.or_none]
  simp only [aklCdr, clear, Bool.false_eq_true, nonzero, or_self, if_false]
  cases as with
  | nil =>
      have zero : list.liCount - 1 ≤ 0 := by
        rw [UInt32.le_iff_toNat_le, countRest]
        exact Nat.zero_le _
      rw [if_pos zero]
      exact ⟨_, rfl, ⟨chained, rfl, rfl⟩, countRest, by simp⟩
  | cons b as =>
      have positive : ¬ list.liCount - 1 ≤ 0 := by
        rw [UInt32.le_iff_toNat_le, countRest]
        simp
      rw [if_neg positive]
      refine ⟨_, rfl, ⟨chained, headEq, ?_⟩, countRest, by simp [aklInitList]⟩
      exact ends.last.trans List.getLast?_cons_cons

/-- The tail of a list is a list of the entries behind the first one; its value is not
marked as nil. -/
theorem ListValue.tail {ctx : CallState} {v : VRef} {pre as : List Addr} {a : Addr}
    (value : ListValue ctx.data v pre (a :: as)) (on : ctx.On [v]) :
    ∃ t ctx', aklFnLsTail ctx = (t, ctx') ∧ ListValue ctx'.data t (pre ++ [a]) as ∧
      ctx'.data.isNil (some t) = false ∧ ctx'.data.entries = ctx.data.entries := by
  obtain ⟨l, list, payloadEq, listEq, ends, count, nilIff⟩ := value.header
  obtain ⟨ctx₁, popEq, -, same⟩ := CallState.On.pop (show ctx.On ([] ++ [v]) from on)
  have clear : list.isNil = false := by simpa using nilIff
  obtain ⟨rest, cdrEq, endsRest, countRest, nilRest⟩ := aklCdr_endsChain ends count clear
  rw [← same.data] at payloadEq listEq cdrEq
  have tailEq : aklFnLsTail ctx = ctx₁.newListValue { rest with isQuoted := true } := by
    simp only [aklFnLsTail, popEq, payloadEq, listEq, Option.bind_some, cdrEq]
  refine ⟨_, _, tailEq,
    ⟨⟨ctx₁.data.lists.length, { rest with isQuoted := true }, ?_, ?_, ?_, countRest,
    nilRest⟩⟩, ?_, ?_⟩
  · exact Data.newValue_payload_self _ _
  · simp
  · rw [← same.data] at endsRest
    exact ⟨endsRest.chained, endsRest.head, endsRest.last⟩
  · simp [Data.isNil]
  · have entriesEq : ctx₁.data.entries = ctx.data.entries := by rw [same.data]
    exact entriesEq

/-! ### What the built-ins see of a list -/

theorem toInt_of_int {i : Int} (low : -2 ^ 31 ≤ i) (high : i < 2 ^ 31) : toInt (i : ℚ) = i := by
  unfold toInt toSigned
  have whole : (if (i : ℚ) < 0 then ⌈(i : ℚ)⌉ else ⌊(i : ℚ)⌋) = i := by
    split
    · exact Int.ceil_intCast i
    · exact Int.floor_intCast i
  simp only [whole, low, high, and_self, if_true]

theorem takeElement_list {ofString : List Chr → Option Chr}
    {ofList : Mem VRef → AklList → Except Fault (Option VRef)} {v : VRef} {ctx : CallState}
    {l : LRef} {list : AklList} (payloadEq : ctx.data.payload v = some (.list l))
    (listEq : ctx.data.lists[l]? = some list) :
    takeElement ofString ofList v ctx =
      (ofList ctx.data.entries list).map fun element => (aklNuller element, ctx) := by
  simp only [takeElement, payloadEq, listEq]
  cases ofList ctx.data.entries list <;> rfl

/-- A pointer visits the values in this order. -/
def Visits (d : Data) (step : Addr → Option Addr) (p : Option Addr) (ws : List VRef) : Prop :=
  ∃ as, Walk step p as ∧ as.map d.entries.data = ws.map some

theorem Visits.length {d : Data} {step : Addr → Option Addr} {p : Option Addr} {ws : List VRef}
    {as : List Addr} (visits : Visits d step p ws) (walk : Walk step p as) :
    ws.length = as.length := by
  obtain ⟨as', walk', dataEq⟩ := visits
  rw [walk.unique walk', ← List.length_map some, ← dataEq, List.length_map]

/-- The value behaves as the sequence `ws`. -/
structure ActsAs (d : Data) (t : VRef) (ws : List VRef) : Prop where
  length : ∀ c : CallState, c.data = d → c.On [t] →
    ∃ r c', aklFnLength c = .ok (r, c') ∧ c'.data.payload r = some (.number ws.length)
  head : ∀ c : CallState, c.data = d → c.On [t] →
    ∃ c', aklFnLsHead c = .ok (aklNuller ws.head?, c')
  last : ∀ c : CallState, c.data = d → c.On [t] →
    ∃ c', aklFnLsLast c = .ok (aklNuller ws.getLast?, c')
  /-- iteration in both directions -/
  forward : ∃ l list, d.payload t = some (.list l) ∧ d.lists[l]? = some list ∧
    Visits d d.entries.next list.liHead ws
  backward : ∃ l list, d.payload t = some (.list l) ∧ d.lists[l]? = some list ∧
    Visits d d.entries.prev list.liLast ws.reverse
  /-- `(index i t)` with a new number `i` of the range of `int` -/
  index : ∀ i : Int, -2 ^ 31 ≤ i → i < 2 ^ 31 → ∀ c : CallState,
    c.data = (d.newValue ⟨.number i, false, false⟩).2 → c.On [d.values.length, t] →
    ∃ c', aklFnLsIndex c = .ok (aklNuller (elementAt ws i), c')

namespace ListValue

variable {d : Data} {t : VRef} {pre as : List Addr} {ws : List VRef}

/-- Indexing a list that is not empty; a negative index counts on into what lies in
front of it. -/
theorem index (value : ListValue d t pre as) (i : Int) (low : -2 ^ 31 ≤ i) (high : i < 2 ^ 31)
    {c : CallState} (dataEq : c.data = (d.newValue ⟨.number i, false, false⟩).2)
    (on : c.On [d.values.length, t]) :
    ∃ c', aklFnLsIndex c = if as = [] then .error .assertion else
      .ok (aklNuller ((if 0 ≤ i then elementAt as i else elementAt (pre ++ as) i).bind
        d.entries.data), c') := by
  obtain ⟨l, list, payloadEq, listEq, ends, -, nilIff⟩ := value.header
  obtain ⟨c₁, shiftEq, on₁, same₁⟩ := on.shift
  obtain ⟨c₂, popEq, -, same₂⟩ := CallState.On.pop (show c₁.On ([] ++ [t]) from on₁)
  have numberEq : c₁.number? (some d.values.length) = some (i : ℚ) := by
    simp only [CallState.number?, same₁.data, dataEq, Option.bind_some, Data.newValue_payload_self]
  have data₂ : c₂.data = (d.newValue ⟨.number i, false, false⟩).2 := by
    rw [same₂.data, same₁.data, dataEq]
  have payload₂ : c₂.data.payload t = some (.list l) := by
    rw [data₂]
    exact Data.newValue_payload d _ payloadEq
  have list₂ : c₂.data.lists[l]? = some list := by
    rw [data₂]
    exact listEq
  refine ⟨c₂, ?_⟩
  simp only [aklFnLsIndex, shiftEq, numberEq, popEq, takeElement_list payload₂ list₂,
    toInt_of_int low high, assertedIndex]
  have entriesEq : c₂.data.entries = d.entries := by
    rw [data₂]
    rfl
  by_cases empty : as = []
  · rw [if_pos empty, if_pos (nilIff.mpr empty)]
    rfl
  · have clear : list.isNil = false := by
      rw [← Bool.not_eq_true, nilIff]
      exact empty
    rw [if_neg empty, clear, aklListIndex, entriesEq, ends.aklListIndexEntry empty]
    rfl

theorem length (value : ListValue d t pre as) {c : CallState} (dataEq : c.data = d)
    (on : c.On [t]) : ∃ r c', aklFnLength c = .ok (r, c') ∧
      c'.data.payload r = some (.number as.length) := by
  obtain ⟨l, list, payloadEq, listEq, -, count, -⟩ := value.header
  obtain ⟨c₁, argsEq, -, same⟩ := on.aklGetArgs
  have argsEq' : c.aklGetArgs 1 = (some [t], c₁) := argsEq
  have data₁ : c₁.data = d := same.data.trans dataEq
  refine ⟨(c₁.newValue (.number as.length)).1, (c₁.newValue (.number as.length)).2, ?_, ?_⟩
  · simp only [aklFnLength, argsEq', data₁, payloadEq, listEq, count]
    rfl
  · exact Data.newValue_payload_self c₁.data _

/-- The built-ins for the two ends of a list. -/
theorem atEnd (value : ListValue d t pre as) (dataEq : as.map d.entries.data = ws.map some)
    {c : CallState} (on : c.On [t]) (stateEq : c.data = d) :
    (∃ c', aklFnLsHead c = .ok (aklNuller ws.head?, c')) ∧
      ∃ c', aklFnLsLast c = .ok (aklNuller ws.getLast?, c') := by
  obtain ⟨l, list, payloadEq, listEq, ends, -, -⟩ := value.header
  obtain ⟨c₁, popEq, -, same⟩ := CallState.On.pop (show c.On ([] ++ [t]) from on)
  have data₁ : c₁.data = d := same.data.trans stateEq
  rw [← data₁] at payloadEq listEq
  have headEq : aklListHead d.entries list = ws.head? := by
    have := congrArg List.head? dataEq
    rw [List.head?_map, List.head?_map] at this
    rw [aklListHead, ends.head]
    cases as <;> cases ws <;> simp_all
  have lastEq : aklListLast d.entries list = ws.getLast? := by
    have := congrArg List.getLast? dataEq
    rw [List.getLast?_map, List.getLast?_map] at this
    rw [aklListLast, ends.last]
    cases asLast : as.getLast? <;> cases wsLast : ws.getLast? <;> simp_all
  constructor
  · refine ⟨c₁, ?_⟩
    simp only [aklFnLsHead, popEq, takeElement_list payloadEq listEq, data₁, headEq]
    rfl
  · refine ⟨c₁, ?_⟩
    simp only [aklFnLsLast, popEq, takeElement_list payloadEq listEq, data₁, lastEq]
    rfl

/-- A list value acts as the sequence of its elements exactly when it is not empty and
nothing lies in front of it. -/
theorem actsAs_iff (value : ListValue d t pre as) (dataEq : as.map d.entries.data = ws.map some) :
    ActsAs d t ws ↔ as ≠ [] ∧ pre = [] := by
  obtain ⟨l, list, payloadEq, listEq, ends, count, nilIff⟩ := value.header
  have lengthEq : as.length = ws.length := by simpa using congrArg List.length dataEq
  constructor
  · intro acts
    have nonempty : as ≠ [] := by
      intro empty
      obtain ⟨c, stateEq, on⟩ := CallState.On.exists_call
        (d.newValue ⟨.number (0 : Int), false, false⟩).2 [d.values.length, t] (by simp)
      obtain ⟨c', indexEq⟩ := acts.index 0 (by decide) (by decide) c stateEq on
      obtain ⟨c'', failed⟩ := value.index 0 (by decide) (by decide) stateEq on
      rw [if_pos empty, indexEq] at failed
      cases failed
    constructor
    · exact nonempty
    · obtain ⟨l', list', payloadEq', listEq', visits⟩ := acts.backward
      cases payloadEq.symm.trans payloadEq'
      cases listEq.symm.trans listEq'
      have walk := ends.chained.walk_prev
      rw [List.getLast?_append_of_ne_nil _ nonempty, ← ends.last] at walk
      have counted := visits.length walk
      rw [List.length_reverse, List.length_reverse, List.length_append] at counted
      exact List.length_eq_zero_iff.mp (by omega)
  · rintro ⟨nonempty, rfl⟩
    constructor
    · intro c stateEq on
      rw [← lengthEq]
      exact value.length stateEq on
    · exact fun c stateEq on => (value.atEnd dataEq on stateEq).1
    · exact fun c stateEq on => (value.atEnd dataEq on stateEq).2
    · refine ⟨l, list, payloadEq, listEq, as, ?_, dataEq⟩
      rw [ends.head]
      exact ends.chained.walk_next
    · refine ⟨l, list, payloadEq, listEq, as.reverse, ?_, ?_⟩
      · rw [ends.last]
        exact ends.chained.walk_prev
      · rw [List.map_reverse, dataEq, List.map_reverse]
    · intro i low high c stateEq on
      obtain ⟨c', indexEq⟩ := value.index i low high stateEq on
      refine ⟨c', ?_⟩
      have elementEq : (elementAt as i).bind d.entries.data = elementAt ws i := by
        have mapped := congrArg (elementAt · i) dataEq
        simp only [elementAt_map] at mapped
        cases atAs : elementAt as i <;> cases atWs : elementAt ws i <;> simp_all
      rw [indexEq, if_neg nonempty, List.nil_append, ite_self, elementEq]

end ListValue

end AkLisp
