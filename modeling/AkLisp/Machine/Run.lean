import AkLisp.Semantics.Eval

/-!
# Runs of the machine

`At` describes a machine by its code, its data, the entries of its stack and
the C calls in progress; `Yields` is a run that pushes given values.  There is
one lemma for each instruction and each way a function returns.
-/

namespace AkLisp

open Linked

namespace Machine

/-- What a run is about; the reports are left out. -/
structure At (m : Machine) (funs : List AklFunction) (d : Data) (cells : List (Cell VRef))
    (control : List Activation) : Prop where
  funs_eq : m.funs = funs
  data_eq : m.data = d
  holds : m.stack.Holds cells
  control_eq : m.control = control

/-- A run that pushes `vs` onto `cells`. -/
def Yields (m : Machine) (funs : List AklFunction) (d : Data) (cells : List (Cell VRef))
    (vs : List VRef) (control : List Activation) : Prop :=
  ∃ m' new, Reaches m m' ∧ new.map Prod.snd = vs ∧ m'.At funs d (cells ++ new) control

variable {m : Machine} {funs : List AklFunction} {d d' : Data} {cells : List (Cell VRef)}
  {vs ws : List VRef} {control control' : List Activation}

/-- Where a machine already is. -/
theorem At.here (at_ : m.At funs d cells control) : m.Yields funs d cells [] control :=
  ⟨m, [], .refl, rfl, by simpa using at_⟩

theorem Yields.of_step {m' : Machine} (stepEq : step m = some m')
    (yields : m'.Yields funs d cells vs control) : m.Yields funs d cells vs control := by
  obtain ⟨last, new, reaches, values, at_⟩ := yields
  exact ⟨last, new, .head stepEq reaches, values, at_⟩

/-- A run that pushes one value. -/
theorem Yields.pushed {v : VRef} (yields : m.Yields funs d cells [v] control) :
    ∃ m' a, Reaches m m' ∧ m'.At funs d (cells ++ [(a, v)]) control := by
  obtain ⟨m', new, reaches, values, at_⟩ := yields
  obtain ⟨⟨a, w⟩, rfl⟩ : ∃ c, new = [c] := by
    rw [← List.length_eq_one_iff, ← List.length_map Prod.snd, values]
    rfl
  cases values
  exact ⟨m', a, reaches, at_⟩

/-- A run that leaves the stack as it was. -/
theorem Yields.silent (yields : m.Yields funs d cells [] control) :
    ∃ m', Reaches m m' ∧ m'.At funs d cells control := by
  obtain ⟨m', new, reaches, values, at_⟩ := yields
  cases List.map_eq_nil_iff.mp values
  exact ⟨m', reaches, by simpa using at_⟩

theorem Yields.of_reaches {m' : Machine} (reaches : Reaches m m')
    (yields : m'.Yields funs d cells vs control) : m.Yields funs d cells vs control := by
  obtain ⟨last, new, reaches', values, at_⟩ := yields
  exact ⟨last, new, reaches.trans reaches', values, at_⟩

/-- The code stands in the body of the function. -/
def CodeAt (funs : List AklFunction) (f : FRef) (pos : Nat) (code : List Instr) : Prop :=
  ∃ ufun, ufun? funs f = some ufun ∧ SegmentAt ufun.ufBody pos code

/-- The labels of the function are bound to these positions. -/
def LabelsAt (funs : List AklFunction) (f : FRef) (lc : Nat) (binds : List Nat) : Prop :=
  ∃ ufun, ufun? funs f = some ufun ∧
    SegmentAt (ufun.ufLabels.map Label.laBranch) lc (binds.map fun pos => some (f, pos))

theorem CodeAt.append {f : FRef} {pos : Nat} {xs ys : List Instr} :
    CodeAt funs f pos (xs ++ ys) ↔
      CodeAt funs f pos xs ∧ CodeAt funs f (pos + xs.length) ys := by
  constructor
  · rintro ⟨ufun, found, segment⟩
    rw [SegmentAt.append] at segment
    exact ⟨⟨ufun, found, segment.1⟩, ⟨ufun, found, segment.2⟩⟩
  · rintro ⟨⟨ufun, found, first⟩, ⟨ufun', found', second⟩⟩
    cases Option.some.inj (found.symm.trans found')
    exact ⟨ufun, found, SegmentAt.append.mpr ⟨first, second⟩⟩

theorem LabelsAt.append {f : FRef} {lc : Nat} (xs ys : List Nat) :
    LabelsAt funs f lc (xs ++ ys) ↔
      LabelsAt funs f lc xs ∧ LabelsAt funs f (lc + xs.length) ys := by
  constructor
  · rintro ⟨ufun, found, segment⟩
    rw [List.map_append, SegmentAt.append, List.length_map] at segment
    exact ⟨⟨ufun, found, segment.1⟩, ⟨ufun, found, segment.2⟩⟩
  · rintro ⟨⟨ufun, found, first⟩, ⟨ufun', found', second⟩⟩
    cases Option.some.inj (found.symm.trans found')
    refine ⟨ufun, found, ?_⟩
    rw [List.map_append, SegmentAt.append, List.length_map]
    exact ⟨first, second⟩

theorem LabelsAt.cons {f : FRef} {lc pos : Nat} (xs : List Nat) :
    LabelsAt funs f lc (pos :: xs) ↔ LabelsAt funs f lc [pos] ∧ LabelsAt funs f (lc + 1) xs :=
  LabelsAt.append [pos] xs

theorem CodeAt.fetch {f : FRef} {pos : Nat} {instr : Instr}
    (code : CodeAt funs f pos [instr]) : Machine.fetch funs (f, pos) = some instr := by
  obtain ⟨ufun, found, segment⟩ := code
  simp [Machine.fetch, found, (SegmentAt.cons.mp segment).1]

theorem LabelsAt.target {f : FRef} {lc pos : Nat} (labels : LabelsAt funs f lc [pos]) :
    Machine.target funs ⟨f, lc⟩ = some (f, pos) := by
  obtain ⟨ufun, found, segment⟩ := labels
  have bound : (ufun.ufLabels.map Label.laBranch)[lc]? = some (some (f, pos)) :=
    (SegmentAt.cons.mp segment).1
  rw [List.getElem?_map] at bound
  simp only [Machine.target, found, Option.bind_some]
  cases label : ufun.ufLabels[lc]? with
  | none => simp [label] at bound
  | some l => simpa [label] using bound

variable {cx : Context} {f : FRef} {pos : Nat} {rest : List Activation}

/-- A step of `akl_ir_exec_branch`. -/
theorem At.step_instr {instr : Instr}
    (at_ : m.At funs d cells (.branch cx (some (f, pos)) :: rest))
    (code : CodeAt funs f pos [instr]) :
    step m = some (m.execInstr cx (f, pos) rest instr) := by
  have fetched : Machine.fetch m.funs (f, pos) = some instr := at_.funs_eq ▸ code.fetch
  rw [step, at_.control_eq]
  simp only [fetched]

/-- Pushing a value and going on. -/
theorem At.push_goto {m₀ : Machine} {v : VRef} {ip : Option EntryRef}
    (at_ : m₀.At funs d cells control) :
    ({ m₀ with stack := aklStackPush m₀.stack v }.goto cx ip rest).Yields funs d cells [v]
      (.branch cx ip :: rest) :=
  ⟨_, [(m₀.stack.mem.top, v)], .refl, rfl, at_.funs_eq, at_.data_eq, at_.holds.push v, rfl⟩

theorem At.goto {m₀ : Machine} {ip : Option EntryRef} (at_ : m₀.At funs d cells control) :
    (m₀.goto cx ip rest).At funs d cells (.branch cx ip :: rest) :=
  ⟨at_.funs_eq, at_.data_eq, at_.holds, rfl⟩

section Instructions

variable (at_ : m.At funs d cells (.branch cx (some (f, pos)) :: rest))

include at_

theorem At.nop (code : CodeAt funs f pos [.nop]) :
    m.Yields funs d cells [] (.branch cx (some (f, pos + 1)) :: rest) :=
  .of_step (at_.step_instr code) at_.goto.here

theorem At.push {v : VRef} (code : CodeAt funs f pos [.push (some v)]) :
    m.Yields funs d cells [v] (.branch cx (some (f, pos + 1)) :: rest) :=
  .of_step (at_.step_instr code) at_.push_goto

theorem At.load {k : Nat} {v : VRef} (code : CodeAt funs f pos [.load k])
    (found : aklFrameAt m.stack cx.cxFrame k = some v) :
    m.Yields funs d cells [v] (.branch cx (some (f, pos + 1)) :: rest) := by
  refine .of_step (at_.step_instr code) ?_
  simp only [execInstr, found]
  exact at_.push_goto

theorem At.get_bound {x : Symbol} {v : VRef} (code : CodeAt funs f pos [.get x])
    (found : d.globals x = some v) :
    m.Yields funs d cells [v] (.branch cx (some (f, pos + 1)) :: rest) := by
  refine .of_step (at_.step_instr code) ?_
  have found' : m.data.globals x = some v := by rw [at_.data_eq, found]
  simp only [execInstr, found']
  exact at_.push_goto

theorem At.get_undefined {x : Symbol} (code : CodeAt funs f pos [.get x])
    (undefined : d.globals x = none) :
    m.Yields funs d.newNilValue.2 cells [d.newNilValue.1]
      (.branch cx (some (f, pos + 1)) :: rest) := by
  refine .of_step (at_.step_instr code) ?_
  have undefined' : m.data.globals x = none := by rw [at_.data_eq, undefined]
  simp only [execInstr, undefined']
  rw [← at_.data_eq]
  exact ⟨_, [(m.stack.mem.top, m.data.newNilValue.1)], .refl, rfl, at_.funs_eq, rfl,
    at_.holds.push _, rfl⟩

end Instructions

/-- `SET` leaves the value on the stack. -/
theorem At.set {x : Symbol} {c : Cell VRef}
    (at_ : m.At funs d (cells ++ [c]) (.branch cx (some (f, pos)) :: rest))
    (code : CodeAt funs f pos [.set x]) :
    m.Yields funs (d.aklSetGlobalVar x c.2) (cells ++ [c]) []
      (.branch cx (some (f, pos + 1)) :: rest) := by
  refine .of_step (at_.step_instr code) ?_
  have topEq : aklStackTop m.stack = some c.2 := by simpa using at_.holds.top
  simp only [execInstr, topEq, at_.data_eq]
  refine ⟨_, [], .refl, rfl, at_.funs_eq, rfl, ?_, rfl⟩
  rw [List.append_nil]
  exact at_.holds

theorem At.jmp {l : LabelRef} {target : Nat}
    (at_ : m.At funs d cells (.branch cx (some (f, pos)) :: rest))
    (code : CodeAt funs f pos [.jmp l]) (bound : Machine.target funs l = some (f, target)) :
    m.Yields funs d cells [] (.branch cx (some (f, target)) :: rest) := by
  refine .of_step (at_.step_instr code) ?_
  simp only [execInstr, at_.funs_eq, bound]
  exact at_.goto.here

/-- `JN` takes the condition off the stack. -/
theorem At.jn {l : LabelRef} {c : Cell VRef}
    (at_ : m.At funs d (cells ++ [c]) (.branch cx (some (f, pos)) :: rest))
    (code : CodeAt funs f pos [.jn l]) :
    m.Yields funs d cells []
      (.branch cx (if d.isNil (some c.2) then target funs l else some (f, pos + 1)) :: rest) := by
  refine .of_step (at_.step_instr code) ?_
  obtain ⟨stack, popEq, holds⟩ := at_.holds.pop
  have nilEq : m.isNil (some c.2) = d.isNil (some c.2) := by rw [isNil, at_.data_eq]
  simp only [execInstr, popEq, nilEq, ← at_.funs_eq]
  refine ⟨_, [], .refl, rfl, rfl, at_.data_eq, ?_, rfl⟩
  rw [List.append_nil]
  exact holds

/-- A call of the C function that was noted for it. -/
theorem At.call_cfun {sym : Symbol} {fn : FRef} {argc : Nat} {cfun : Nat → CProg}
    (at_ : m.At funs d cells (.branch cx (some (f, pos)) :: rest))
    (fetched : Machine.fetch funs (f, pos) = some (.call sym (some fn) argc))
    (callee : funs[fn]? = some (.cfun cfun)) :
    ∃ m', step m = some m' ∧ m'.At funs d cells
      (.cfun ⟨sym.text, aklInitFrame m.stack argc⟩ (cfun argc) ::
        .branch cx (some (f, pos + 1)) :: rest) := by
  have callee' : m.funs[fn]? = some (.cfun cfun) := by rw [at_.funs_eq, callee]
  have fetched' : Machine.fetch m.funs (f, pos) = some (.call sym (some fn) argc) := by
    rw [at_.funs_eq, fetched]
  refine ⟨{ m with
    control := .cfun ⟨sym.text, aklInitFrame m.stack argc⟩ (cfun argc) ::
      .branch cx (some (f, pos + 1)) :: rest }, ?_, at_.funs_eq, at_.data_eq, at_.holds, rfl⟩
  rw [step, at_.control_eq]
  simp only [fetched', execInstr, aklBoundFunction, aklCallFunctionBound, callee']

/-- The end of the body of a user function: what the frame still covers goes,
what was pushed stays. -/
theorem At.return_branch {below args above : List (Cell VRef)}
    (at_ : m.At funs d (below ++ args ++ above) (.branch cx (some (f, pos)) :: rest))
    (on : FrameOn cx.cxFrame args) (last : Machine.fetch funs (f, pos) = none) :
    ∃ m', step m = some m' ∧
      m'.At funs d (below ++ above) (resume (aklStackTop m.stack) rest) := by
  refine ⟨m.returnBranch cx rest, ?_, ?_⟩
  · rw [step, at_.control_eq]
    simp only [at_.funs_eq, last]
  · obtain ⟨s', frame', destroyEq, holds⟩ := Covers.aklFrameDestroy ⟨at_.holds, on⟩
    refine ⟨at_.funs_eq, at_.data_eq, ?_, rfl⟩
    simpa only [returnBranch, destroyEq] using holds

/-- A C function returns a value. -/
theorem At.return_cfun {v : VRef} {below args above : List (Cell VRef)}
    (at_ : m.At funs d (below ++ args ++ above) (.cfun cx (.ret (some v)) :: rest))
    (on : FrameOn cx.cxFrame args) :
    ∃ m' a, step m = some m' ∧
      m'.At funs d (below ++ above ++ [(a, v)]) (resume (some v) rest) := by
  refine ⟨m.returnCfun cx rest (some v), m.stack.mem.top, ?_, ?_⟩
  · rw [step, at_.control_eq]
    rfl
  · have covers : Covers m.stack cx.cxFrame below args above := ⟨at_.holds, on⟩
    obtain ⟨s', frame', destroyEq, holds⟩ := (covers.push v).aklFrameDestroy
    refine ⟨at_.funs_eq, at_.data_eq, ?_, rfl⟩
    rw [List.append_assoc]
    simpa only [returnCfun, destroyEq] using holds

end Machine

end AkLisp
