import AkLisp.Linked.Reach
import AkLisp.Printer.Format
import AkLisp.Printer.Print
import AkLisp.State.Store

/-!
# The parts of a value

What the pointers lead to from a value on: the header of its list, the entries of the list
and the values in these.  Printing looks at the parts of a value only.
-/

namespace AkLisp

open Linked

/-- An object that values are made of. -/
inductive Obj where
  | value (v : VRef)
  | list (l : LRef)
  | entry (a : Addr)
  deriving DecidableEq

namespace ValueStore

/-- The first object points to the second one.  `le_prev` does not count: it may lead out
of a list that is the tail of another one. -/
inductive Points (st : ValueStore) : Obj → Obj → Prop
  | list {v : VRef} {l : LRef} (held : st.member v = some (.list l)) :
      Points st (.value v) (.list l)
  | head {l : LRef} {list : AklList} {a : Addr} (found : st.lists[l]? = some list)
      (headEq : list.liHead = some a) : Points st (.list l) (.entry a)
  | last {l : LRef} {list : AklList} {a : Addr} (found : st.lists[l]? = some list)
      (lastEq : list.liLast = some a) : Points st (.list l) (.entry a)
  | next {a b : Addr} (nextEq : st.entries.next a = some b) : Points st (.entry a) (.entry b)
  | data {a : Addr} {v : VRef} (dataEq : st.entries.data a = some v) :
      Points st (.entry a) (.value v)

/-- The object is part of the value. -/
def PartOf (st : ValueStore) (o : Obj) (v : VRef) : Prop :=
  Relation.ReflTransGen st.Points (.value v) o

/-- The object was allocated. -/
def Has (st : ValueStore) : Obj → Prop
  | .value v => v < st.values.length
  | .list l => l < st.lists.length
  | .entry a => a < st.entries.top

/-- Two stores agree on the parts of a value. -/
structure AgreesOn (st st' : ValueStore) (v : VRef) : Prop where
  values : ∀ w, st.PartOf (.value w) v → st'.values[w]? = st.values[w]?
  strings : ∀ w b, st.PartOf (.value w) v → st.member w = some (.string b) →
    st'.strings[b]? = st.strings[b]?
  lists : ∀ l, st.PartOf (.list l) v → st'.lists[l]? = st.lists[l]?
  next : ∀ a, st.PartOf (.entry a) v → st'.entries.next a = st.entries.next a
  data : ∀ a, st.PartOf (.entry a) v → st'.entries.data a = st.entries.data a

section

variable {st st' : ValueStore} {v w : VRef} {o o' : Obj}

theorem PartOf.self (st : ValueStore) (v : VRef) : st.PartOf (.value v) v := .refl

theorem PartOf.step (part : st.PartOf o v) (points : st.Points o o') : st.PartOf o' v :=
  part.tail points

theorem AgreesOn.points (agrees : st.AgreesOn st' v) (part : st.PartOf o v) :
    st'.Points o o' ↔ st.Points o o' := by
  constructor
  · intro points
    cases points with
    | list held => exact .list (by rwa [member, agrees.values _ part] at held)
    | head found headEq => exact .head (by rwa [agrees.lists _ part] at found) headEq
    | last found lastEq => exact .last (by rwa [agrees.lists _ part] at found) lastEq
    | next nextEq => exact .next (by rwa [agrees.next _ part] at nextEq)
    | data dataEq => exact .data (by rwa [agrees.data _ part] at dataEq)
  · intro points
    cases points with
    | list held => exact .list (by rwa [member, agrees.values _ part])
    | head found headEq => exact .head (by rwa [agrees.lists _ part]) headEq
    | last found lastEq => exact .last (by rwa [agrees.lists _ part]) lastEq
    | next nextEq => exact .next (by rwa [agrees.next _ part])
    | data dataEq => exact .data (by rwa [agrees.data _ part])

/-- The parts are the same in both stores. -/
theorem AgreesOn.partOf (agrees : st.AgreesOn st' v) : st'.PartOf o v ↔ st.PartOf o v :=
  reach_congr fun _ part _ => agrees.points part

end

/-! ### Printing -/

/-- The loop of `akl_print_list`, with the entry it has come to. -/
def printEntries (printValue : Option VRef → Except StoreFault (List Chr)) (entries : Mem VRef) :
    Nat → Option Addr → Except StoreFault (List Chr)
  | _, none => return []
  | 0, some _ => throw .outOfFuel
  | rounds + 1, some ent =>
      match entries.data ent with
      | none => return []
      | some v => do
          let text ← printValue (some v)
          let others ← printEntries printValue entries rounds (entries.next ent)
          return text ++ ((if (entries.next ent).isSome then [code ' '] else []) ++ others)

/-- `akl_print_list` with colours off -/
def aklPrintList (printValue : Option VRef → Except StoreFault (List Chr)) (rounds : Nat)
    (st : ValueStore) (l : LRef) : Except StoreFault (List Chr) :=
  match st.lists[l]? with
  | none => throw .wild
  | some list =>
      if list.isNil ∨ list.liCount = 0 then return nilText
      else do
        let text ← printEntries printValue st.entries rounds list.liHead
        return (if list.isQuoted then [code '\''] else []) ++ (code '(' :: (text ++ [code ')']))

/-- What stands for a value of a user type, by the name under its identifier. -/
def userdataText : Option String → List Chr
  | some name => ("<USERDATA: " ++ name ++ ">").toList.map code
  | none => "<USERDATA>".toList.map code

/-- `akl_print_value` with colours off.  `utName` looks a user type up; the recursion is
bounded by a number the caller chooses. -/
def aklPrintValue (utName : Nat → Option String) (st : ValueStore) :
    Nat → Option VRef → Except StoreFault (List Chr)
  | 0, _ => throw .outOfFuel
  | _ + 1, none => return nilText
  | fuel + 1, some v =>
      match st.values[v]? with
      | none => throw .wild
      | some val =>
          if val.isNil then return nilText
          else
            match val.member with
            | .number n => return formatG n
            | .string b => do
                let text ← st.read b
                return code '"' :: (text ++ [code '"'])
            | .list l => aklPrintList (aklPrintValue utName st fuel) fuel st l
            | .symbol sym => return if val.isQuoted then code ':' :: sym.sbName else sym.sbName
            | .true => return "T".toList.map code
            | .userdata udId _ => return userdataText (utName udId)
            | .function _ => return "<FUNCTION>".toList.map code
            | .ofVariable _ => return []
            | .nil => return []

/-- Printing the value ends with this text, given enough fuel. -/
def Prints (utName : Nat → Option String) (st : ValueStore) (v : VRef) (text : List Chr) : Prop :=
  ∃ bound, ∀ fuel, bound ≤ fuel → st.aklPrintValue utName fuel (some v) = .ok text

section

variable {utName : Nat → Option String} {st st' : ValueStore} {v : VRef}

theorem Prints.unique {text text' : List Chr} (prints : st.Prints utName v text)
    (prints' : st.Prints utName v text') : text = text' := by
  obtain ⟨bound, ended⟩ := prints
  obtain ⟨bound', ended'⟩ := prints'
  have equal := ended (max bound bound') (Nat.le_max_left _ _)
  rw [ended' _ (Nat.le_max_right _ _)] at equal
  exact (Except.ok.inj equal).symm

theorem AgreesOn.printEntries (agrees : st.AgreesOn st' v)
    {printValue printValue' : Option VRef → Except StoreFault (List Chr)}
    (same : ∀ w, st.PartOf (.value w) v → printValue' (some w) = printValue (some w))
    {rounds : Nat} {p : Option Addr} (part : ∀ a, p = some a → st.PartOf (.entry a) v) :
    ValueStore.printEntries printValue' st'.entries rounds p =
      ValueStore.printEntries printValue st.entries rounds p := by
  induction rounds generalizing p with
  | zero => cases p <;> rfl
  | succ rounds ih =>
      cases p with
      | none => rfl
      | some a =>
          have inside := part a rfl
          have nextEq := agrees.next a inside
          have dataEq := agrees.data a inside
          have rest := ih (p := st.entries.next a) fun b found => inside.step (.next found)
          simp only [ValueStore.printEntries, nextEq, dataEq, rest]
          cases held : st.entries.data a with
          | none => rfl
          | some w => simp only [same w (inside.step (.data held))]

/-- A part of the value is printed in the same way. -/
theorem AgreesOn.print_part (agrees : st.AgreesOn st' v) {fuel : Nat} {w : VRef}
    (part : st.PartOf (.value w) v) :
    st'.aklPrintValue utName fuel (some w) = st.aklPrintValue utName fuel (some w) := by
  induction fuel generalizing w with
  | zero => rfl
  | succ fuel ih =>
      simp only [aklPrintValue, agrees.values w part]
      cases found : st.values[w]? with
      | none => rfl
      | some val =>
          have held : st.member w = some val.member := by rw [member, found]; rfl
          obtain ⟨m, isQuoted, isNil⟩ := val
          cases m with
          | string b => simp only [read, agrees.strings w b part held]
          | list l =>
              have inside := part.step (.list held)
              simp only [aklPrintList, agrees.lists l inside]
              cases foundList : st.lists[l]? with
              | none => rfl
              | some list =>
                  have loop : ValueStore.printEntries (aklPrintValue utName st' fuel) st'.entries
                      fuel list.liHead = ValueStore.printEntries (aklPrintValue utName st fuel)
                        st.entries fuel list.liHead :=
                    agrees.printEntries (fun u inner => ih inner)
                      fun a headEq => inside.step (.head foundList headEq)
                  simp only [loop]
          | _ => rfl

theorem AgreesOn.prints (agrees : st.AgreesOn st' v) (text : List Chr) :
    st'.Prints utName v text ↔ st.Prints utName v text := by
  simp only [Prints, agrees.print_part (.self st v)]

end

end ValueStore

end AkLisp
