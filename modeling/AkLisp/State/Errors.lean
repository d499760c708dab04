import AkLisp.List.History
import AkLisp.List.Iteration
import AkLisp.State.Code
import Mathlib.Data.List.Perm.Basic

/-!
# The list of errors

`akl_raise_error` appends a report to the error list of the interpreter unless the list
has one with the same place, severity and message, and `akl_clear_errors` empties it.
Whoever calls them, the list holds the reports since it was last cleared, each once.  What
is cleared is released entry by entry.
-/

namespace AkLisp

open Linked

/-- `struct akl_lex_info` -/
structure LexInfo where
  liName : Option (List Chr)
  liLine : UInt32
  liCount : UInt32
  deriving DecidableEq

/-- Pointer to a `struct akl_error`. -/
abbrev ErrRef := Nat

/-- Pointer to the text of a message. -/
abbrev MsgRef := Nat

/-- `struct akl_error` -/
structure ErrorRecord where
  errInfo : Option LexInfo
  errType : Level
  errMsg : MsgRef
  deriving DecidableEq

/-- What `akl_free` is called with for an error. -/
inductive ErrorBlock where
  | message (msg : MsgRef)
  | record (err : ErrRef)
  deriving DecidableEq

/-- The error list with the records and messages allocated so far, at their indices, and
those that have been released. -/
structure ErrorState where
  mem : Mem ErrRef
  aiErrors : Option AklList
  records : List ErrorRecord
  messages : List String
  released : List ErrorBlock

/-- `is_lex_info_equal` -/
def isLexInfoEqual (l1 l2 : Option LexInfo) : Bool :=
  match l1, l2 with
  | some l1, some l2 =>
      match l1.liName, l2.liName with
      | some name1, some name2 =>
          l1.liLine == l2.liLine && l1.liCount == l2.liCount && name1 == name2
      | _, _ => false
  | _, _ => false

namespace ErrorState

/-- The state of a new interpreter. -/
def init : ErrorState := ⟨Mem.empty, none, [], [], []⟩

/-- The error list, which is made for the first error. -/
def errorList (s : ErrorState) : AklList := s.aiErrors.getD aklInitList

/-- The error that an entry of the list points to, with its message. -/
def errorAt (s : ErrorState) (ent : Addr) : Option (ErrRef × ErrorRecord × String) := do
  let err ← s.mem.data ent
  let record ← s.records[err]?
  let msg ← s.messages[record.errMsg]?
  return (err, record, msg)

/-- The test of `is_error_exist` for one entry. -/
def sameError (s : ErrorState) (cxLexInfo : Option LexInfo) (msg : String) (t : Level)
    (ent : Addr) : Bool :=
  match s.errorAt ent with
  | none => false
  | some (_, err, errMsg) =>
      isLexInfoEqual cxLexInfo err.errInfo && err.errType == t && errMsg == msg

/-- `is_error_exist`: the search goes from the last entry to the first.  A list visits no
entry twice, so the number of allocated entries bounds it. -/
def isErrorExist (s : ErrorState) (list : AklList) (cxLexInfo : Option LexInfo) (msg : String)
    (t : Level) : Bool :=
  (findAlong s.mem.prev (s.sameError cxLexInfo msg t) s.mem.top list.liLast).isSome

/-- The part of `akl_raise_error` behind the formatting: `msg` is a new block. -/
def raise (s : ErrorState) (cxLexInfo : Option LexInfo) (type : Level) (msg : String) :
    ErrorState :=
  let errMsg := s.messages.length
  let s := { s with aiErrors := some s.errorList, messages := s.messages ++ [msg] }
  if s.isErrorExist s.errorList cxLexInfo msg type then s
  else
    let err : ErrorRecord := ⟨cxLexInfo, type, errMsg⟩
    let (_, mem, list) := aklListAppend s.mem s.errorList (some s.records.length)
    { s with mem, aiErrors := some list, records := s.records ++ [err] }

/-- `akl_raise_error` with a format that has been filled in, `none` for `NULL`. -/
def aklRaiseError (s : ErrorState) (cxLexInfo : Option LexInfo) (type : Level)
    (fmt : Option String) : ErrorState :=
  match fmt with
  | none => s.raise cxLexInfo .error "NULL given for akl_raise_error()."
  | some msg => s.raise cxLexInfo type msg

/-- The blocks of the error of an entry, in the order in which they are released. -/
def blocksOf (s : ErrorState) (ent : Addr) : List ErrorBlock :=
  match s.errorAt ent with
  | none => []
  | some (err, record, _) => [.message record.errMsg, .record err]

/-- The body of the loop of `akl_clear_errors`. -/
def freeError (s : ErrorState) (ent : Addr) : ErrorState :=
  { s with released := s.released ++ s.blocksOf ent }

/-- `le_next` -/
def leNext (s : ErrorState) (ent : Addr) : Option Addr := s.mem.next ent

/-- `akl_clear_errors` -/
def aklClearErrors (s : ErrorState) : ErrorState :=
  match s.aiErrors with
  | none => s
  | some list =>
      let (_, s) := foreachSafe leNext freeError s.mem.top list.liHead s
      { s with aiErrors := some { list with liCount := 0, liHead := none, liLast := none } }

end ErrorState

/-- A call of `akl_raise_error`, from a context with this lexical information, or of
`akl_clear_errors`. -/
inductive ErrorCall where
  | raise (cxLexInfo : Option LexInfo) (type : Level) (fmt : Option String)
  | clear

/-- What distinguishes two errors: the name of the source, line and column, severity and
message. -/
structure Report where
  name : List Chr
  line : UInt32
  column : UInt32
  severity : Level
  message : String
  deriving DecidableEq

namespace ErrorCall

/-- The effect of a call. -/
def run (s : ErrorState) : ErrorCall → ErrorState
  | .raise cxLexInfo type fmt => s.aklRaiseError cxLexInfo type fmt
  | .clear => s.aklClearErrors

/-- The effect of several calls, one after the other. -/
def runs (calls : List ErrorCall) : ErrorState := calls.foldl run .init

/-- The context of a raised error carries lexical information with a name. -/
def Named : ErrorCall → Prop
  | .raise cxLexInfo _ _ => ∃ info name, cxLexInfo = some info ∧ info.liName = some name
  | .clear => True

/-- What a call raises; without a format it is an error of its own. -/
def report : ErrorCall → Option Report
  | .raise (some ⟨some name, line, column⟩) type (some msg) => some ⟨name, line, column, type, msg⟩
  | .raise (some ⟨some name, line, column⟩) _ none =>
      some ⟨name, line, column, .error, "NULL given for akl_raise_error()."⟩
  | _ => none

/-- The reports raised by some calls behind the last clear, in order. -/
def sinceClear (calls : List ErrorCall) : List Report :=
  calls.foldl (fun reports call =>
    match call with
    | .clear => []
    | .raise _ _ _ => reports ++ call.report.toList) []

end ErrorCall

namespace ErrorState

/-- The report of the error that an entry of the list points to. -/
def reportAt (s : ErrorState) (ent : Addr) : Option Report :=
  match s.errorAt ent with
  | some (_, ⟨some ⟨some name, line, column⟩, errType, _⟩, msg) =>
      some ⟨name, line, column, errType, msg⟩
  | _ => none

/-- The error list has exactly these entries, for these reports. -/
structure Lists (s : ErrorState) (as : List Addr) (reports : List Report) : Prop where
  denotes : s.errorList.Denotes s.mem as
  reported : as.map s.reportAt = reports.map some

variable {s s' : ErrorState} {ent : Addr} {as : List Addr} {reports : List Report}

theorem errorAt_some_iff {x : ErrRef × ErrorRecord × String} :
    s.errorAt ent = some x ↔
      s.mem.data ent = some x.1 ∧ s.records[x.1]? = some x.2.1 ∧
        s.messages[x.2.1.errMsg]? = some x.2.2 := by
  obtain ⟨err, record, msg⟩ := x
  simp only [errorAt, Option.bind_eq_bind, Option.bind_eq_some_iff, Option.pure_def,
    Option.some.injEq, Prod.mk.injEq]
  constructor
  · rintro ⟨err', data, record', found, msg', text, rfl, rfl, rfl⟩
    exact ⟨data, found, text⟩
  · rintro ⟨data, found, text⟩
    exact ⟨err, data, record, found, msg, text, rfl, rfl, rfl⟩

/-- Further records and messages leave an error as it is. -/
theorem errorAt_later {x : ErrRef × ErrorRecord × String} (found : s.errorAt ent = some x)
    (data : s'.mem.data ent = s.mem.data ent) (records : s.records <+: s'.records)
    (messages : s.messages <+: s'.messages) : s'.errorAt ent = some x := by
  rw [errorAt_some_iff] at found ⊢
  obtain ⟨moreRecords, recordsEq⟩ := records
  obtain ⟨moreMessages, messagesEq⟩ := messages
  obtain ⟨pointer, record, text⟩ := found
  have recordBound := (List.getElem?_eq_some_iff.mp record).1
  have textBound := (List.getElem?_eq_some_iff.mp text).1
  refine ⟨data.trans pointer, ?_, ?_⟩
  · rw [← recordsEq, List.getElem?_append_left recordBound, record]
  · rw [← messagesEq, List.getElem?_append_left textBound, text]

theorem reportAt_some_iff {report : Report} :
    s.reportAt ent = some report ↔
      ∃ err msg, s.errorAt ent = some (err, ⟨some ⟨some report.name, report.line, report.column⟩,
        report.severity, msg⟩, report.message) := by
  obtain ⟨name, line, column, severity, message⟩ := report
  rw [reportAt]
  constructor
  · intro reported
    split at reported
    next err name' line' column' errType msg text found =>
      cases reported
      exact ⟨err, msg, found⟩
    next => cases reported
  · rintro ⟨err, msg, found⟩
    rw [found]

theorem reportAt_later {report : Report} (reported : s.reportAt ent = some report)
    (data : s'.mem.data ent = s.mem.data ent) (records : s.records <+: s'.records)
    (messages : s.messages <+: s'.messages) : s'.reportAt ent = some report := by
  obtain ⟨err, msg, found⟩ := reportAt_some_iff.mp reported
  exact reportAt_some_iff.mpr ⟨err, msg, errorAt_later found data records messages⟩

/-- The test of the search compares the reports. -/
theorem sameError_iff {name : List Chr} {line column : UInt32} {type : Level} {msg : String}
    {report : Report} (reported : s.reportAt ent = some report) :
    s.sameError (some ⟨some name, line, column⟩) msg type ent = true ↔
      report = ⟨name, line, column, type, msg⟩ := by
  obtain ⟨err, ref, found⟩ := reportAt_some_iff.mp reported
  obtain ⟨name', line', column', severity, message⟩ := report
  simp only [sameError, found, isLexInfoEqual, Bool.and_eq_true, beq_iff_eq, Report.mk.injEq]
  constructor
  · rintro ⟨⟨⟨⟨rfl, rfl⟩, rfl⟩, rfl⟩, rfl⟩
    exact ⟨rfl, rfl, rfl, rfl, rfl⟩
  · rintro ⟨rfl, rfl, rfl, rfl, rfl⟩
    exact ⟨⟨⟨⟨rfl, rfl⟩, rfl⟩, rfl⟩, rfl⟩

namespace Lists

theorem length_le (lists : s.Lists as reports) : as.length ≤ s.mem.top :=
  lists.denotes.chained.walk_next.length_le lists.denotes.below

theorem mem_iff (lists : s.Lists as reports) (report : Report) :
    report ∈ reports ↔ ∃ ent ∈ as, s.reportAt ent = some report := by
  have members : some report ∈ reports.map some ↔ report ∈ reports := by simp
  rw [← members, ← lists.reported, List.mem_map]

/-- Every entry carries an error with a place. -/
theorem reportAt (lists : s.Lists as reports) (inList : ent ∈ as) :
    ∃ report, s.reportAt ent = some report := by
  have present : s.reportAt ent ∈ reports.map some := by
    rw [← lists.reported]
    exact List.mem_map_of_mem inList
  obtain ⟨report, -, reported⟩ := List.mem_map.mp present
  exact ⟨report, reported.symm⟩

/-- Further records and messages leave the list as it is. -/
theorem later (lists : s.Lists as reports) (header : s'.errorList = s.errorList)
    (mem : s'.mem = s.mem) (records : s.records <+: s'.records)
    (messages : s.messages <+: s'.messages) : s'.Lists as reports := by
  constructor
  · rw [header, mem]
    exact lists.denotes
  · rw [← lists.reported]
    refine List.map_congr_left fun ent inList => ?_
    obtain ⟨report, reported⟩ := lists.reportAt inList
    rw [reported]
    exact reportAt_later reported (by rw [mem]) records messages

/-- The search finds an error exactly when its report is in the list. -/
theorem isErrorExist_iff (lists : s.Lists as reports) (name : List Chr) (line column : UInt32)
    (type : Level) (msg : String) :
    s.isErrorExist s.errorList (some ⟨some name, line, column⟩) msg type = true ↔
      ⟨name, line, column, type, msg⟩ ∈ reports := by
  have walk := lists.denotes.walkBackward
  have enough : as.reverse.length ≤ s.mem.top := by
    rw [List.length_reverse]
    exact lists.length_le
  rw [isErrorExist, walk.findAlong _ enough, List.find?_isSome,
    lists.mem_iff]
  constructor
  · rintro ⟨ent, inList, same⟩
    rw [List.mem_reverse] at inList
    obtain ⟨report, reported⟩ := lists.reportAt inList
    rw [sameError_iff reported] at same
    exact ⟨ent, inList, by rw [reported, same]⟩
  · rintro ⟨ent, inList, reported⟩
    exact ⟨ent, List.mem_reverse.mpr inList, (sameError_iff reported).mpr rfl⟩

/-- Raising an error adds its report at the end if the list does not have it. -/
theorem raise (lists : s.Lists as reports) (name : List Chr) (line column : UInt32) (type : Level)
    (msg : String) :
    ∃ as', (s.raise (some ⟨some name, line, column⟩) type msg).Lists as'
      (if ⟨name, line, column, type, msg⟩ ∈ reports then reports
        else reports ++ [⟨name, line, column, type, msg⟩]) := by
  have noted : ErrorState.Lists
      { s with aiErrors := some s.errorList, messages := s.messages ++ [msg] } as reports :=
    lists.later rfl rfl (List.prefix_refl _) (List.prefix_append _ _)
  have found := noted.isErrorExist_iff name line column type msg
  by_cases known : ⟨name, line, column, type, msg⟩ ∈ reports
  · have raised : s.raise (some ⟨some name, line, column⟩) type msg =
        { s with aiErrors := some s.errorList, messages := s.messages ++ [msg] } :=
      if_pos (found.mpr known)
    rw [if_pos known, raised]
    exact ⟨as, noted⟩
  · have raised : s.raise (some ⟨some name, line, column⟩) type msg =
        { s with
          mem := (aklListAppend s.mem s.errorList (some s.records.length)).2.1
          aiErrors := some (aklListAppend s.mem s.errorList (some s.records.length)).2.2
          records := s.records ++ [⟨some ⟨some name, line, column⟩, type, s.messages.length⟩]
          messages := s.messages ++ [msg] } :=
      if_neg fun exist => known (found.mp exist)
    rw [if_neg known, raised]
    refine ⟨as ++ [s.mem.top], lists.denotes.append _, ?_⟩
    rw [List.map_append, List.map_append, List.map_singleton, List.map_singleton]
    congr 1
    · -- the older entries
      rw [← lists.reported]
      refine List.map_congr_left fun ent inList => ?_
      obtain ⟨report, reported⟩ := lists.reportAt inList
      have old : ent ≠ s.mem.top := Nat.ne_of_lt (lists.denotes.below ent inList)
      rw [reported]
      refine reportAt_later reported ?_ (List.prefix_append _ _) (List.prefix_append _ _)
      rw [aklListAppend_data, if_neg old]
    · congr 1
      rw [reportAt_some_iff]
      refine ⟨s.records.length, s.messages.length, errorAt_some_iff.mpr ⟨?_, ?_, ?_⟩⟩
      · rw [aklListAppend_data, if_pos rfl]
      · rw [List.getElem?_concat_length]
      · rw [List.getElem?_concat_length]

end Lists

/-- The loop of `akl_clear_errors` changes nothing but what has been released. -/
theorem foldl_freeError (s : ErrorState) (as : List Addr) :
    as.foldl freeError s = { s with released := s.released ++ as.flatMap s.blocksOf } := by
  induction as generalizing s with
  | nil => rw [List.flatMap_nil, List.append_nil, List.foldl_nil]
  | cons ent as ih =>
      rw [List.foldl_cons, ih, freeError, List.flatMap_cons, ← List.append_assoc]
      rfl

theorem keepsOthers_freeError : KeepsOthers leNext freeError := fun _ _ _ _ => rfl

namespace Lists

/-- Clearing the errors releases all but the last one and empties the list. -/
theorem aklClearErrors_eq (lists : s.Lists as reports) :
    s.aklClearErrors =
      { s with
        aiErrors := s.aiErrors.map fun list =>
          { list with liCount := 0, liHead := none, liLast := none }
        released := s.released ++ as.dropLast.flatMap s.blocksOf } := by
  have walk : Walk s.leNext s.errorList.liHead as := lists.denotes.walkForward
  rw [aklClearErrors]
  cases given : s.aiErrors with
  | none =>
      rw [errorList, given] at walk
      have noErrors : Walk s.leNext none [] := rfl
      rw [walk.unique noErrors, List.dropLast_nil, List.flatMap_nil, List.append_nil,
        Option.map_none]
      cases s
      cases given
      rfl
  | some list =>
      have fromHead : Walk s.leNext list.liHead as := by
        rw [errorList, given] at walk
        exact walk
      simp only [foreachSafe_eq keepsOthers_freeError fromHead lists.length_le, foldl_freeError]
      rfl

theorem clear (lists : s.Lists as reports) : s.aklClearErrors.Lists [] [] := by
  rw [lists.aklClearErrors_eq]
  constructor
  · cases given : s.aiErrors with
    | none => exact .aklInitList _
    | some list => exact ⟨List.nodup_nil, by simp, trivial, rfl, rfl, rfl⟩
  · rfl

end Lists

end ErrorState

theorem eraseDups_concat {α : Type*} [DecidableEq α] (l : List α) (a : α) :
    (l ++ [a]).eraseDups = if a ∈ l then l.eraseDups else l.eraseDups ++ [a] := by
  rw [List.eraseDups_append]
  by_cases mem : a ∈ l
  · simp [mem, List.removeAll]
  · simp [mem, List.removeAll, List.eraseDups_cons]

namespace ErrorCall

open ErrorState

/-- One call does to the list what it should. -/
theorem run_lists {s : ErrorState} {as : List Addr} {raised : List Report}
    (lists : s.Lists as raised.eraseDups) {call : ErrorCall} (named : call.Named) :
    ∃ as', (call.run s).Lists as'
      (match call with
        | .clear => []
        | .raise _ _ _ => raised ++ call.report.toList).eraseDups := by
  cases call with
  | clear => exact ⟨[], lists.clear⟩
  | raise cxLexInfo type fmt =>
      obtain ⟨⟨name?, line, column⟩, name, rfl, nameEq⟩ := named
      obtain rfl : name? = some name := nameEq
      cases fmt with
      | none =>
          have added := lists.raise name line column .error "NULL given for akl_raise_error()."
          simp only [List.mem_eraseDups] at added
          rw [← eraseDups_concat] at added
          exact added
      | some msg =>
          have added := lists.raise name line column type msg
          simp only [List.mem_eraseDups] at added
          rw [← eraseDups_concat] at added
          exact added

end ErrorCall

/-- The error list records each error once: after any calls of `akl_raise_error`, from
contexts with a named place, and `akl_clear_errors` it has the reports since the last
clear, each at its first occurrence and nothing else. -/
theorem error_list_records_once (calls : List ErrorCall) (named : ∀ call ∈ calls, call.Named) :
    ∃ as, (ErrorCall.runs calls).Lists as (ErrorCall.sinceClear calls).eraseDups := by
  induction calls using List.reverseRecOn with
  | nil => exact ⟨[], .aklInitList _, rfl⟩
  | append_singleton calls call ih =>
      obtain ⟨as, lists⟩ := ih fun c mem => named c (List.mem_append_left _ mem)
      have stepped := ErrorCall.run_lists lists (named call (by simp))
      rw [ErrorCall.runs, ErrorCall.sinceClear, List.foldl_append, List.foldl_append]
      exact stepped

/-- An error is raised twice and another one once, then the list is cleared and the second
one is raised again. -/
theorem error_list_records_once_cleared :
    ∃ as, (ErrorCall.runs
      [.raise (some ⟨some [], 1, 2⟩) .error (some "a"),
        .raise (some ⟨some [], 1, 2⟩) .error (some "a"),
        .raise (some ⟨some [], 3, 2⟩) .warning (some "b"), .clear,
        .raise (some ⟨some [], 3, 2⟩) .warning (some "b")]).Lists as
      [⟨[], 3, 2, .warning, "b"⟩] := by
  have recorded := error_list_records_once
    [.raise (some ⟨some [], 1, 2⟩) .error (some "a"),
      .raise (some ⟨some [], 1, 2⟩) .error (some "a"),
      .raise (some ⟨some [], 3, 2⟩) .warning (some "b"), .clear,
      .raise (some ⟨some [], 3, 2⟩) .warning (some "b")]
    (by simp [ErrorCall.Named])
  exact recorded

/-! ## What clearing releases -/

/-- `akl_clear_errors` releases the message and the record of every entry once, and empties
the list. -/
structure ClearsAll (s : ErrorState) (as : List Addr) : Prop where
  releases : ∃ blocks, s.aklClearErrors.released = s.released ++ blocks ∧
    blocks.Perm (as.flatMap s.blocksOf)
  empties : s.aklClearErrors.Lists [] []

namespace ErrorState.Lists

variable {s : ErrorState} {ent : Addr} {as : List Addr} {reports : List Report}

theorem blocksOf_ne_nil (lists : s.Lists as reports) (inList : ent ∈ as) :
    s.blocksOf ent ≠ [] := by
  obtain ⟨report, reported⟩ := lists.reportAt inList
  obtain ⟨err, msg, found⟩ := reportAt_some_iff.mp reported
  rw [blocksOf, found]
  exact List.cons_ne_nil _ _

/-- What is released leaves out the blocks of the last error. -/
theorem clearsAll_iff (lists : s.Lists as reports) : ClearsAll s as ↔ as = [] := by
  have released : s.aklClearErrors.released = s.released ++ as.dropLast.flatMap s.blocksOf := by
    rw [lists.aklClearErrors_eq]
  constructor
  · rintro ⟨⟨blocks, releasedEq, perm⟩, -⟩
    rw [released, List.append_cancel_left_eq] at releasedEq
    subst releasedEq
    rcases List.eq_nil_or_concat as with empty | ⟨init, ent, rfl⟩
    · exact empty
    · rw [List.concat_eq_append] at lists perm ⊢
      have lengths := perm.length_eq
      rw [List.dropLast_concat, List.flatMap_append, List.length_append] at lengths
      have none_ : [ent].flatMap s.blocksOf = [] := List.length_eq_zero_iff.mp (by omega)
      rw [List.flatMap_singleton] at none_
      exact absurd none_ (lists.blocksOf_ne_nil (by simp))
  · rintro rfl
    exact ⟨⟨[], released, .nil⟩, lists.clear⟩

end ErrorState.Lists

/-- Iterating over a list with `AKL_LIST_FOREACH_SAFE` runs the body for every entry in
order, and clearing the errors releases all of them, exactly when the list is empty. -/
theorem safe_iteration_iff {σ : Type*} {next : σ → Addr → Option Addr} {body : σ → Addr → σ}
    (keeps : KeepsOthers next body) {list : AklList} {as : List Addr} {s : σ}
    (walk : Walk (next s) list.liHead as) {fuel : Nat} (enough : as.length ≤ fuel)
    {errors : ErrorState} {entries : List Addr} {reports : List Report}
    (lists : errors.Lists entries reports) :
    ((foreachSafe next body fuel list.liHead s).1 = as ↔ as = []) ∧
      (ClearsAll errors entries ↔ entries = []) := by
  refine ⟨?_, lists.clearsAll_iff⟩
  rw [foreachSafe_eq keeps walk enough]
  constructor
  · intro all
    have lengths := congrArg List.length all
    rw [List.length_dropLast] at lengths
    apply List.length_eq_zero_iff.mp
    omega
  · rintro rfl
    rfl

/-- A list of one entry, and no errors. -/
theorem safe_iteration_one :
    ((foreachSafe Mem.next (fun m a => m.setNext a none) 1 (some 0)
        (Mem.empty.alloc (some 7))).1 = [0] ↔ [0] = ([] : List Addr)) ∧
      (ClearsAll .init [] ↔ ([] : List Addr) = []) := by
  have keeps : KeepsOthers Mem.next fun (m : Mem Nat) a => m.setNext a none := by
    intro m a b different
    rw [Mem.setNext_next, if_neg different]
  have walk : Walk (Mem.empty.alloc (some 7)).next
      ({ aklInitList with liHead := some 0 } : AklList).liHead [0] := ⟨rfl, rfl⟩
  have noErrors : ErrorState.init.Lists [] [] := ⟨.aklInitList _, rfl⟩
  exact safe_iteration_iff keeps walk (Nat.le_refl 1) noErrors

/-- The message and the record of a single error are not released. -/
theorem single_error_kept :
    ¬ ClearsAll (ErrorState.init.aklRaiseError (some ⟨some [], 1, 1⟩) .error (some "a")) [0] := by
  rintro ⟨⟨blocks, released, perm⟩, -⟩
  have none_ : blocks = [] := released.symm
  subst none_
  exact absurd perm.length_eq (by decide)

end AkLisp
