import AkLisp.Reader.Reads

/-!
# Data as the reader builds them

A datum is a token tree without special meaning.  `Denoted` says that a value
denotes a datum, reading only list entries and list headers of a given
footprint; so a change elsewhere cannot touch it.  The reader builds from the
tokens of a datum a value that denotes it, in fresh entries and fresh lists.
-/

namespace AkLisp

open Linked

mutual

/-- A datum, with the texts of its tokens. -/
inductive Datum where
  | number (text : List Chr)
  | string (text : List Chr)
  | atom (text : List Chr)
  | nil
  | true
  | list (items : Datums)

/-- The elements of a list, each with or without a quote in front. -/
inductive Datums where
  | nil
  | cons (isQuoted : Bool) (d : Datum) (ds : Datums)

end

/-- The token of an opening parenthesis. -/
def openLexeme : Lexeme := ⟨.tLBRACE, []⟩

/-- The token of a closing parenthesis. -/
def closeLexeme : Lexeme := ⟨.tRBRACE, []⟩

/-- The token of a quote. -/
def quoteLexeme : Lexeme := ⟨.tQUOTE, []⟩

/-- The tokens of an optional quote. -/
def quoteMark (isQuoted : Bool) : List Lexeme := if isQuoted then [quoteLexeme] else []

theorem quoteMark_mark (isQuoted : Bool) : QuoteMark (quoteMark isQuoted) isQuoted := by
  cases isQuoted with
  | false => exact .plain
  | true => exact .quoted rfl

mutual

/-- The tokens of a datum. -/
def Datum.tokens : Datum → List Lexeme
  | .number text => [⟨.tNUMBER, text⟩]
  | .string text => [⟨.tSTRING, text⟩]
  | .atom text => [⟨.tATOM, text⟩]
  | .nil => [⟨.tNIL, []⟩]
  | .true => [⟨.tTRUE, []⟩]
  | .list items => openLexeme :: items.tokens

/-- The tokens of the elements of a list with the closing parenthesis. -/
def Datums.tokens : Datums → List Lexeme
  | .nil => [closeLexeme]
  | .cons isQuoted d ds => quoteMark isQuoted ++ (d.tokens ++ ds.tokens)

end

/-- The list entries and the lists something depends on. -/
structure Footprint where
  entry : Addr → Prop
  list : LRef → Prop

/-- Two headers that differ at most in their parent and in being quoted. -/
def AklList.Same (a b : AklList) : Prop :=
  a.liHead = b.liHead ∧ a.liLast = b.liLast ∧ a.liCount = b.liCount ∧ a.isNil = b.isNil

section

variable [Libc]

mutual

/-- The value denotes the datum. -/
def Datum.Denoted (d : Data) (F : Footprint) (v : VRef) : Datum → Prop
  | .number text => d.payload v = some (.number (numberOfText text))
  | .string text => d.payload v = some (.string text)
  | .atom text => d.payload v = some (.symbol (aklGetOrCreateSymbol text))
  | .nil => d.payload v = some .nil
  | .true => d.payload v = some .true
  | .list items => ∃ l header as vs, d.payload v = some (.list l) ∧ F.list l ∧
      d.lists[l]? = some header ∧ header.Denotes d.entries as ∧ header.isNil = false ∧
      (∀ a ∈ as, F.entry a) ∧ as.map d.entries.data = vs.map some ∧ items.Denoted d F vs

/-- The values denote the elements. -/
def Datums.Denoted (d : Data) (F : Footprint) : List VRef → Datums → Prop
  | vs, .nil => vs = []
  | vs, .cons _ x xs => ∃ v rest, vs = v :: rest ∧ x.Denoted d F v ∧ xs.Denoted d F rest

end

end

/-- The second state keeps what the footprint of the first covers. -/
structure Data.Keeps (d d' : Data) (F : Footprint) : Prop where
  values : d.values <+: d'.values
  next : ∀ a, F.entry a → d'.entries.next a = d.entries.next a
  prev : ∀ a, F.entry a → d'.entries.prev a = d.entries.prev a
  data : ∀ a, F.entry a → d'.entries.data a = d.entries.data a
  list : ∀ l header, F.list l → d.lists[l]? = some header →
    ∃ header', d'.lists[l]? = some header' ∧ header.Same header'
  top : d.entries.top ≤ d'.entries.top
  lists : d.lists.length ≤ d'.lists.length

/-- A value that exists keeps its payload. -/
theorem Data.Keeps.payload {d d' : Data} {F : Footprint} (keeps : d.Keeps d' F) {v : VRef}
    {p : Payload} (found : d.payload v = some p) : d'.payload v = some p := by
  obtain ⟨more, equal⟩ := keeps.values
  simp only [Data.payload, Option.map_eq_some_iff] at found ⊢
  obtain ⟨value, valueEq, payloadEq⟩ := found
  have bound := (List.getElem?_eq_some_iff.mp valueEq).1
  exact ⟨value, by rw [← equal, List.getElem?_append_left bound, valueEq], payloadEq⟩

theorem Data.Keeps.trans {d₁ d₂ d₃ : Data} {F G : Footprint} (first : d₁.Keeps d₂ F)
    (second : d₂.Keeps d₃ G) (entries : ∀ a, F.entry a → G.entry a)
    (lists : ∀ l, F.list l → G.list l) : d₁.Keeps d₃ F where
  values := first.values.trans second.values
  next := fun a inside => (second.next a (entries a inside)).trans (first.next a inside)
  prev := fun a inside => (second.prev a (entries a inside)).trans (first.prev a inside)
  data := fun a inside => (second.data a (entries a inside)).trans (first.data a inside)
  list := by
    intro l header inside found
    obtain ⟨header₂, found₂, same₂⟩ := first.list l header inside found
    obtain ⟨header₃, found₃, same₃⟩ := second.list l header₂ (lists l inside) found₂
    exact ⟨header₃, found₃, same₂.1.trans same₃.1, same₂.2.1.trans same₃.2.1,
      same₂.2.2.1.trans same₃.2.2.1, same₂.2.2.2.trans same₃.2.2.2⟩
  top := first.top.trans second.top
  lists := first.lists.trans second.lists

theorem Data.Keeps.mono {d d' : Data} {F G : Footprint} (keeps : d.Keeps d' G)
    (entries : ∀ a, F.entry a → G.entry a) (lists : ∀ l, F.list l → G.list l) :
    d.Keeps d' F where
  values := keeps.values
  next := fun a inside => keeps.next a (entries a inside)
  prev := fun a inside => keeps.prev a (entries a inside)
  data := fun a inside => keeps.data a (entries a inside)
  list := fun l header inside => keeps.list l header (lists l inside)
  top := keeps.top
  lists := keeps.lists

theorem AklList.Denotes.keeps {d d' : Data} {F : Footprint} (keeps : d.Keeps d' F)
    {header header' : AklList} {as : List Addr} (denotes : header.Denotes d.entries as)
    (inside : ∀ a ∈ as, F.entry a) (same : header.Same header') :
    header'.Denotes d'.entries as where
  nodup := denotes.nodup
  below := fun a mem => Nat.lt_of_lt_of_le (denotes.below a mem) keeps.top
  chained := denotes.chained.congr (fun a mem => keeps.next a (inside a mem))
    (fun a mem => keeps.prev a (inside a mem))
  head := same.1 ▸ denotes.head
  last := same.2.1 ▸ denotes.last
  count := same.2.2.1 ▸ denotes.count

section

variable [Libc]

mutual

/-- What a value denotes survives a change outside the footprint. -/
theorem Datum.Denoted.keeps {d d' : Data} {F : Footprint} (keeps : d.Keeps d' F) {v : VRef} :
    ∀ {x : Datum}, x.Denoted d F v → x.Denoted d' F v
  | .number _, denoted | .string _, denoted | .atom _, denoted | .nil, denoted
  | .true, denoted => keeps.payload denoted
  | .list items, denoted => by
      obtain ⟨l, header, as, vs, payloadEq, inside, found, denotes, notNil, entries, dataEq,
        values⟩ := denoted
      obtain ⟨header', found', same⟩ := keeps.list l header inside found
      refine ⟨l, header', as, vs, keeps.payload payloadEq, inside, found',
        denotes.keeps keeps entries same, same.2.2.2 ▸ notNil, entries, ?_,
        values.keeps keeps⟩
      rw [← dataEq]
      exact List.map_congr_left fun a mem => keeps.data a (entries a mem)

theorem Datums.Denoted.keeps {d d' : Data} {F : Footprint} (keeps : d.Keeps d' F) :
    ∀ {xs : Datums} {vs : List VRef}, xs.Denoted d F vs → xs.Denoted d' F vs
  | .nil, _, denoted => denoted
  | .cons _ _ _, _, denoted => by
      obtain ⟨v, rest, rfl, first, others⟩ := denoted
      exact ⟨v, rest, rfl, first.keeps keeps, others.keeps keeps⟩

end

mutual

/-- A footprint may grow. -/
theorem Datum.Denoted.mono {d : Data} {F G : Footprint} (entries : ∀ a, F.entry a → G.entry a)
    (lists : ∀ l, F.list l → G.list l) {v : VRef} :
    ∀ {x : Datum}, x.Denoted d F v → x.Denoted d G v
  | .number _, denoted | .string _, denoted | .atom _, denoted | .nil, denoted
  | .true, denoted => denoted
  | .list items, denoted => by
      obtain ⟨l, header, as, vs, payloadEq, inside, found, denotes, notNil, own, dataEq,
        values⟩ := denoted
      exact ⟨l, header, as, vs, payloadEq, lists l inside, found, denotes, notNil,
        fun a mem => entries a (own a mem), dataEq, values.mono entries lists⟩

theorem Datums.Denoted.mono {d : Data} {F G : Footprint} (entries : ∀ a, F.entry a → G.entry a)
    (lists : ∀ l, F.list l → G.list l) :
    ∀ {xs : Datums} {vs : List VRef}, xs.Denoted d F vs → xs.Denoted d G vs
  | .nil, _, denoted => denoted
  | .cons _ _ _, _, denoted => by
      obtain ⟨v, rest, rfl, first, others⟩ := denoted
      exact ⟨v, rest, rfl, first.mono entries lists, others.mono entries lists⟩

end

end

/-- Allocating a value changes no list. -/
theorem Data.keeps_newValue (d : Data) (value : AklValue) (F : Footprint) :
    d.Keeps (d.newValue value).2 F where
  values := List.prefix_append _ _
  next := fun _ _ => rfl
  prev := fun _ _ => rfl
  data := fun _ _ => rfl
  list := fun _ header _ found => ⟨header, found, rfl, rfl, rfl, rfl⟩
  top := Nat.le_refl _
  lists := Nat.le_refl _

/-- A new list is empty, and the others stay. -/
theorem Data.keeps_newList (d : Data) (F : Footprint) : d.Keeps d.newList.2 F where
  values := List.prefix_refl _
  next := fun _ _ => rfl
  prev := fun _ _ => rfl
  data := fun _ _ => rfl
  list := by
    intro l header _ found
    have bound := (List.getElem?_eq_some_iff.mp found).1
    refine ⟨header, ?_, rfl, rfl, rfl, rfl⟩
    simpa [newList, List.getElem?_append_left bound] using found
  top := Nat.le_refl _
  lists := by simp [newList]

/-- A change of parents and quoting flags. -/
theorem Data.keeps_modifyList (d : Data) (l : LRef) (g : AklList → AklList)
    (same : ∀ header : AklList, header.Same (g header)) (F : Footprint) :
    d.Keeps (d.modifyList l g) F where
  values := List.prefix_refl _
  next := fun _ _ => rfl
  prev := fun _ _ => rfl
  data := fun _ _ => rfl
  list := by
    intro k header _ found
    by_cases equal : l = k
    · subst equal
      exact ⟨g header, by simp [modifyList, found], same header⟩
    · exact ⟨header, by simp [modifyList, equal, found], rfl, rfl, rfl, rfl⟩
  top := Nat.le_refl _
  lists := by simp [modifyList]

theorem keeps_reparent (d : Data) (list : LRef) (v : VRef) (F : Footprint) :
    d.Keeps (reparent d list v) F := by
  unfold reparent
  split
  · exact d.keeps_modifyList _ (fun header => { header with liParent := some list })
      (fun _ => ⟨rfl, rfl, rfl, rfl⟩) F
  · exact ⟨List.prefix_refl _, fun _ _ => rfl, fun _ _ => rfl, fun _ _ => rfl,
      fun _ header _ found => ⟨header, found, rfl, rfl, rfl, rfl⟩, Nat.le_refl _, Nat.le_refl _⟩

/-- A list that is being built: its header is well formed over the entries `as`,
which carry the values `vs`. -/
structure Data.Building (d : Data) (list : LRef) (as : List Addr) (vs : List VRef) : Prop where
  header : ∃ header, d.lists[list]? = some header ∧ header.Denotes d.entries as ∧
    header.isNil = false
  data : as.map d.entries.data = vs.map some

/-- What the construction of a list may not touch. -/
def Data.others (d : Data) (list : LRef) (as : List Addr) : Footprint :=
  ⟨fun a => a < d.entries.top ∧ a ∉ as, fun l => l ≠ list⟩

theorem Data.building_newList (d : Data) : d.newList.2.Building d.newList.1 [] [] := by
  refine ⟨⟨aklInitList, ?_, AklList.Denotes.aklInitList _, rfl⟩, rfl⟩
  simp [newList]

theorem Data.Building.keeps {d d' : Data} {list : LRef} {as : List Addr} {vs : List VRef}
    {F : Footprint} (building : d.Building list as vs) (keeps : d.Keeps d' F)
    (entries : ∀ a ∈ as, F.entry a) (inside : F.list list) : d'.Building list as vs := by
  obtain ⟨header, found, denotes, notNil⟩ := building.header
  obtain ⟨header', found', same⟩ := keeps.list list header inside found
  refine ⟨⟨header', found', denotes.keeps keeps entries same, same.2.2.2 ▸ notNil⟩, ?_⟩
  rw [← building.data]
  exact List.map_congr_left fun a mem => keeps.data a (entries a mem)

/-- Appending a value to the list that is being built. -/
theorem Data.Building.append {d : Data} {list : LRef} {as : List Addr} {vs : List VRef}
    (building : d.Building list as vs) (v : VRef) :
    (d.listAppendValue list v).Building list (as ++ [d.entries.top]) (vs ++ [v]) ∧
      d.Keeps (d.listAppendValue list v) (d.others list as) := by
  obtain ⟨header, found, denotes, notNil⟩ := building.header
  have getEq : d.lists.getD list aklInitList = header := by simp [List.getD, found]
  have bound := (List.getElem?_eq_some_iff.mp found).1
  have appended := denotes.append (some v)
  constructor
  · refine ⟨⟨(aklListAppend d.entries header (some v)).2.2, ?_, ?_, ?_⟩, ?_⟩
    · simp only [listAppendValue, getEq]
      rw [List.getElem?_set_self bound]
    · simpa only [listAppendValue, getEq] using appended
    · simp only [aklListAppend]
    · simp only [listAppendValue, getEq]
      have old : as.map (aklListAppend d.entries header (some v)).2.1.data =
          as.map d.entries.data := by
        refine List.map_congr_left fun a mem => ?_
        rw [aklListAppend_data, if_neg (Nat.ne_of_lt (denotes.below a mem))]
      rw [List.map_append, List.map_append, old, building.data]
      simp
  · simp only [listAppendValue, getEq]
    refine ⟨List.prefix_refl _, ?_, ?_, ?_, ?_, ?_, ?_⟩
    · rintro a ⟨below, notMem⟩
      refine aklListAppend_next _ _ _ (Nat.ne_of_lt below) ?_
      rw [denotes.last]
      exact fun equal => notMem (List.mem_of_getLast? equal)
    · rintro a ⟨below, -⟩
      exact aklListAppend_prev _ _ _ (Nat.ne_of_lt below)
    · rintro a ⟨below, -⟩
      rw [aklListAppend_data, if_neg (Nat.ne_of_lt below)]
    · intro l other ne foundOther
      refine ⟨other, ?_, rfl, rfl, rfl, rfl⟩
      rw [List.getElem?_set_ne (Ne.symm ne), foundOther]
    · rw [aklListAppend_top]
      exact Nat.le_succ _
    · simp

@[simp] theorem reparent_entries (d : Data) (list : LRef) (v : VRef) :
    (reparent d list v).entries = d.entries := by
  unfold reparent
  split <;> rfl

/-- The loop of `akl_parse_list` appends a value. -/
theorem Data.Building.collect {d : Data} {list : LRef} {as : List Addr} {vs : List VRef}
    (building : d.Building list as vs) (v : VRef) :
    (d.collect list v).Building list (as ++ [d.entries.top]) (vs ++ [v]) ∧
      d.Keeps (d.collect list v) (d.others list as) := by
  have keeps := keeps_reparent d list v ⟨fun _ => True, fun _ => True⟩
  have building' := building.keeps keeps (fun _ _ => trivial) trivial
  obtain ⟨appended, kept⟩ := building'.append v
  rw [reparent_entries] at appended
  refine ⟨appended, (keeps.mono (fun _ _ => trivial) fun _ _ => trivial).trans kept ?_ ?_⟩
  · rintro a ⟨below, notMem⟩
    exact ⟨by rw [reparent_entries]; exact below, notMem⟩
  · exact fun l ne => ne

/-- What is created between two states, but for the entries `as`. -/
def Data.created (d d' : Data) (as : List Addr) : Footprint :=
  ⟨fun a => d.entries.top ≤ a ∧ a < d'.entries.top ∧ a ∉ as, fun l => d.lists.length ≤ l⟩

/-- What exists in a state. -/
def Data.existing (d : Data) : Footprint :=
  ⟨fun a => a < d.entries.top, fun l => l < d.lists.length⟩

@[simp] theorem reparent_globals (d : Data) (list : LRef) (v : VRef) :
    (reparent d list v).globals = d.globals := by
  unfold reparent
  split <;> rfl

theorem collect_globals (d : Data) (list : LRef) (v : VRef) :
    (d.collect list v).globals = d.globals := by
  simp only [Data.collect, Data.listAppendValue, reparent_globals]

section

variable [Libc]

/-- The loop of `akl_parse_list` reads a datum as `akl_parse_value` does. -/
theorem ReadsValue.collect {q ts ls : List Lexeme} {b : Bool} {d d₁ d' : Data} {v : VRef}
    {list : LRef} (reads : ReadsValue ts b d v d₁) (mark : QuoteMark q b)
    (others : ReadsList ls list (d₁.collect list v) d') :
    ReadsList (q ++ (ts ++ ls)) list d d' := by
  cases reads with
  | leaf leafEq => exact .leaf mark leafEq others
  | list tok inside => exact .inner mark tok inside others

/-- What the loop of `akl_parse_list` makes of the elements of a list behind
those that are there already. -/
structure ReadDatums (xs : Datums) (list : LRef) (as : List Addr) (vs : List VRef)
    (d d' : Data) (as' : List Addr) (vs' : List VRef) : Prop where
  reads : ReadsList xs.tokens list d d'
  building : d'.Building list (as ++ as') (vs ++ vs')
  fresh : ∀ a ∈ as', d.entries.top ≤ a ∧ a < d'.entries.top
  denoted : xs.Denoted d' (d.created d' as') vs'
  keeps : d.Keeps d' (d.others list as)
  globals : d'.globals = d.globals

/-- What the reader makes of a datum. -/
structure ReadDatum (x : Datum) (b : Bool) (d : Data) (v : VRef) (d' : Data) : Prop where
  reads : ReadsValue x.tokens b d v d'
  denoted : x.Denoted d' (d.created d' []) v
  keeps : d.Keeps d' d.existing
  globals : d'.globals = d.globals

theorem ReadDatum.leaf {x : Datum} {l : Lexeme} {leaf : Payload × Bool} (tokens : x.tokens = [l])
    (leafEq : l.leaf? = some leaf)
    (denoted : ∀ d' F v, d'.payload v = some leaf.1 → x.Denoted d' F v) (b : Bool) (d : Data) :
    ReadDatum x b d d.values.length (d.newValue (leafValue leaf b)).2 where
  reads := by
    rw [tokens]
    exact .leaf leafEq
  denoted := denoted _ _ _ (d.newValue_payload_self (leafValue leaf b))
  keeps := d.keeps_newValue _ _
  globals := rfl

/-- A list datum, given what the loop makes of its elements. -/
theorem ReadDatum.list {xs : Datums} {d d₁ : Data} {as : List Addr} {vs : List VRef}
    (items : ReadDatums xs d.newList.1 [] [] d.newList.2 d₁ as vs) (b : Bool) :
    ReadDatum (.list xs) b d d₁.values.length
      (d₁.newValue ⟨.list d.newList.1, b, false⟩).2 where
  reads := .list rfl items.reads
  denoted := by
    have building := items.building
    rw [List.nil_append, List.nil_append] at building
    have keeps := d₁.keeps_newValue ⟨.list d.newList.1, b, false⟩ ⟨fun _ => True, fun _ => True⟩
    obtain ⟨header, found, denotes, notNil⟩ := building.header
    refine ⟨d.newList.1, header, as, vs, d₁.newValue_payload_self _, Nat.le_refl _, found,
      denotes, notNil, ?_, building.data, ?_⟩
    · intro a mem
      exact ⟨(items.fresh a mem).1, (items.fresh a mem).2, by simp⟩
    · refine (items.denoted.keeps (keeps.mono (fun _ _ => trivial) fun _ _ => trivial)).mono ?_ ?_
      · rintro a ⟨lower, upper, -⟩
        exact ⟨lower, upper, by simp⟩
      · intro l lower
        exact Nat.le_trans (d.keeps_newList d.existing).lists lower
  keeps := by
    have keepsNew := d.keeps_newList d.existing
    have keepsValue := d₁.keeps_newValue ⟨.list d.newList.1, b, false⟩ d.existing
    refine (keepsNew.trans items.keeps ?_ ?_).trans keepsValue (fun _ h => h) (fun _ h => h)
    · exact fun a below => ⟨below, by simp⟩
    · exact fun l below => Nat.ne_of_lt below
  globals := items.globals

theorem ReadDatums.nil {list : LRef} {as : List Addr} {vs : List VRef} {d : Data}
    (building : d.Building list as vs) :
    ReadDatums .nil list as vs d (d.closeList list) [] [] where
  reads := .close (q := []) .plain rfl
  building := by
    rw [List.append_nil, List.append_nil]
    exact building.keeps (F := ⟨fun _ => True, fun _ => True⟩)
      (d.keeps_modifyList list (fun header => { header with isQuoted := true })
        (fun _ => ⟨rfl, rfl, rfl, rfl⟩) _) (fun _ _ => trivial) trivial
  fresh := by simp
  denoted := rfl
  keeps := d.keeps_modifyList list (fun header => { header with isQuoted := true })
    (fun _ => ⟨rfl, rfl, rfl, rfl⟩) _
  globals := rfl

/-- One element and the others behind it.  The entries of the list lie outside
of what its elements consist of. -/
theorem ReadDatums.cons {b : Bool} {x : Datum} {xs : Datums} {list : LRef} {as as' : List Addr}
    {vs vs' : List VRef} {d d₁ d' : Data} {v : VRef} (building : d.Building list as vs)
    (first : ReadDatum x b d v d₁)
    (others : ReadDatums xs list (as ++ [d₁.entries.top]) (vs ++ [v]) (d₁.collect list v) d'
      as' vs') :
    ReadDatums (.cons b x xs) list as vs d d' (d₁.entries.top :: as') (v :: vs') := by
  obtain ⟨header, found, denotes, notNil⟩ := building.header
  have bound : list < d.lists.length := (List.getElem?_eq_some_iff.mp found).1
  have building₁ := building.keeps first.keeps (fun a mem => denotes.below a mem) bound
  obtain ⟨building₂, keeps₂⟩ := building₁.collect v
  have top₁ := first.keeps.top
  have top₂ : (d₁.collect list v).entries.top = d₁.entries.top + 1 := by
    simp [Data.collect, Data.listAppendValue]
  have top₃ := others.keeps.top
  constructor
  · exact first.reads.collect (quoteMark_mark b) others.reads
  · simpa using others.building
  · intro a mem
    rcases List.mem_cons.mp mem with rfl | mem
    · exact ⟨top₁, by grind⟩
    · have := others.fresh a mem
      exact ⟨by grind, this.2⟩
  · refine ⟨v, vs', rfl, ?_, ?_⟩
    · -- the first element is kept while the others are appended
      have inside : ∀ a, (d.created d₁ []).entry a → a < d₁.entries.top ∧ a ∉ as := by
        rintro a ⟨lower, upper, -⟩
        exact ⟨upper, fun mem => absurd (denotes.below a mem) (by grind)⟩
      have notList : ∀ l, (d.created d₁ []).list l → l ≠ list := by
        rintro l lower rfl
        exact absurd bound (Nat.not_lt.mpr lower)
      have keeps := keeps₂.trans (F := d₁.others list as) others.keeps (by
        rintro a ⟨below, notMem⟩
        refine ⟨by grind, ?_⟩
        rw [List.mem_append, List.mem_singleton]
        rintro (mem | rfl)
        · exact notMem mem
        · grind) (fun _ ne => ne)
      refine Datum.Denoted.mono (F := d.created d₁ [])
        (G := d.created d' (d₁.entries.top :: as')) ?_ (fun _ lower => lower)
        (first.denoted.keeps (keeps.mono inside notList))
      rintro a ⟨lower, upper, -⟩
      refine ⟨lower, by grind, ?_⟩
      rw [List.mem_cons]
      rintro (rfl | mem)
      · grind
      · have := others.fresh a mem
        grind
    · refine others.denoted.mono ?_ ?_
      · rintro a ⟨lower, upper, notMem⟩
        refine ⟨by grind, upper, ?_⟩
        rw [List.mem_cons]
        rintro (rfl | mem)
        · grind
        · exact notMem mem
      · intro l lower
        exact Nat.le_trans (first.keeps.lists.trans keeps₂.lists) lower
  · have keeps := keeps₂.trans (F := d₁.others list as) others.keeps (by
      rintro a ⟨below, notMem⟩
      refine ⟨by grind, ?_⟩
      rw [List.mem_append, List.mem_singleton]
      rintro (mem | rfl)
      · exact notMem mem
      · grind) (fun _ ne => ne)
    have keeps₁ : d.Keeps d₁ (d.others list as) := by
      refine ⟨first.keeps.values, fun a h => first.keeps.next a h.1,
        fun a h => first.keeps.prev a h.1, fun a h => first.keeps.data a h.1, ?_,
        first.keeps.top, first.keeps.lists⟩
      intro l header _ found
      exact first.keeps.list l header (List.getElem?_eq_some_iff.mp found).1 found
    exact keeps₁.trans keeps (fun a h => ⟨Nat.lt_of_lt_of_le h.1 top₁, h.2⟩) (fun _ ne => ne)
  · rw [others.globals, collect_globals, first.globals]

mutual

/-- The reader takes the tokens of a datum and builds a value that denotes it. -/
theorem Datum.read : ∀ (x : Datum) (b : Bool) (d : Data), ∃ v d', ReadDatum x b d v d'
  | .number text, b, d => ⟨_, _, .leaf (x := .number text) rfl rfl (fun _ _ _ found => found) b d⟩
  | .string text, b, d => ⟨_, _, .leaf (x := .string text) rfl rfl (fun _ _ _ found => found) b d⟩
  | .atom text, b, d => ⟨_, _, .leaf (x := .atom text) rfl rfl (fun _ _ _ found => found) b d⟩
  | .nil, b, d => ⟨_, _, .leaf (x := .nil) rfl rfl (fun _ _ _ found => found) b d⟩
  | .true, b, d => ⟨_, _, .leaf (x := .true) rfl rfl (fun _ _ _ found => found) b d⟩
  | .list xs, b, d => by
      obtain ⟨d₁, as, vs, items⟩ := xs.read _ [] [] _ d.building_newList
      exact ⟨_, _, .list items b⟩

theorem Datums.read : ∀ (xs : Datums) (list : LRef) (as : List Addr) (vs : List VRef) (d : Data),
    d.Building list as vs → ∃ d' as' vs', ReadDatums xs list as vs d d' as' vs'
  | .nil, _, _, _, _, building => ⟨_, [], [], .nil building⟩
  | .cons b x xs, list, as, vs, d, building => by
      obtain ⟨v, d₁, first⟩ := x.read b d
      obtain ⟨header, found, denotes, -⟩ := building.header
      have bound : list < d.lists.length := (List.getElem?_eq_some_iff.mp found).1
      have building₁ := building.keeps first.keeps (fun a mem => denotes.below a mem) bound
      obtain ⟨d', as', vs', others⟩ := xs.read list _ _ _ (building₁.collect v).1
      exact ⟨d', _, _, .cons building first others⟩

end

end

end AkLisp
