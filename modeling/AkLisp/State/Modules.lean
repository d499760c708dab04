import Mathlib.Logic.Relation
import AkLisp.Builtins.Compare
import AkLisp.List.History
import AkLisp.List.Search

/-!
# Loading modules

`akl_load_module` asks for the module by name, loads what its descriptor depends on and appends the
descriptor to `ai_modules`.  Where a module is and what its descriptor says is given by two maps of
names; loaders and function tables do not touch the list of modules.
-/

namespace AkLisp

open Linked

/-- `struct akl_module`, as far as the loader reads it. -/
structure AklModule where
  amName : Option (List Chr)
  /-- the names from `am_depends_on` on -/
  amDependsOn : Option (List (Option (List Chr)))
  /-- what the loader function returns -/
  amLoad : Option Int
  /-- there is a table of functions -/
  amFuns : Bool

/-- What `akl_get_module_path` and `akl_load_module_desc` find. -/
structure ModuleFiles where
  aklGetModulePath : List Chr → Option (List Chr)
  aklLoadModuleDesc : List Chr → Option AklModule

/-- `ai_modules` and the memory of its entries. -/
structure ModuleState where
  mem : Mem AklModule
  aiModules : AklList

/-- `AKL_LOAD_OK` -/
def AKL_LOAD_OK : Int := 1

/-- `module_finder_name` -/
def moduleFinderName (m : Option AklModule) (name : Option (List Chr)) : Int :=
  match m.bind AklModule.amName, name with
  | some amName, some name => strcmp amName name
  | _, _ => 1

/-- `akl_find_module`.  The entry that was found is read without a test, and the name by `strcmp`
if there is one to compare it with. -/
def aklFindModule (s : ModuleState) (modname : Option (List Chr)) :
    Except Fault (Option AklModule) :=
  match (aklListFind s.mem s.aiModules moduleFinderName modname none).1 with
  | none => throw .nullDeref
  | some ent =>
      let mod := s.mem.data ent
      match modname, mod.bind AklModule.amName with
      | none, some _ => throw .nullDeref
      | _, _ => return mod

/-- The loop over the dependencies.  It looks at the pointer to the next name, which is not null
where the name is; it is left by a module that cannot be loaded. -/
def loadDepends (load : ModuleState → Option (List Chr) →
      Except Fault (Option AklModule × ModuleState)) :
    List (Option (List Chr)) → ModuleState → Except Fault (Bool × ModuleState)
  | [], _ => throw .outOfBounds
  | dep :: deps, s => do
      let (mod, s) ← load s dep
      match mod with
      | none => return (false, s)
      | some _ => loadDepends load deps s

/-- What `akl_load_module` does with a descriptor when its dependencies are there. -/
def startModule (mod : AklModule) (s : ModuleState) :
    Except Fault (Option AklModule × ModuleState) :=
  if mod.amLoad.any (· ≠ AKL_LOAD_OK) then return (none, s)
  else if mod.amLoad.isNone ∧ ¬ mod.amFuns then throw .assertion
  else
    let (_, mem, aiModules) := aklListAppend s.mem s.aiModules (some mod)
    return (some mod, ⟨mem, aiModules⟩)

/-- What `akl_load_module` does for a module that it has not found.  `akl_module_free` reads the
handle of a descriptor, whether or not there is one. -/
def loadDescribed (files : ModuleFiles) (load : ModuleState → Option (List Chr) →
      Except Fault (Option AklModule × ModuleState))
    (s : ModuleState) (modname : List Chr) : Except Fault (Option AklModule × ModuleState) :=
  match files.aklGetModulePath modname with
  | none => return (none, s)
  | some modPath =>
      match files.aklLoadModuleDesc modPath with
      | none => throw .nullDeref
      | some mod =>
          match mod.amName, mod.amDependsOn with
          | none, _ => return (none, s)
          | some _, none => startModule mod s
          | some _, some deps => do
              let (loaded, s) ← loadDepends load deps s
              if loaded then startModule mod s else return (none, s)

/-- `akl_load_module` -/
def aklLoadModule (files : ModuleFiles) : Nat → ModuleState → Option (List Chr) →
    Except Fault (Option AklModule × ModuleState)
  | 0, _, _ => throw .outOfFuel
  | fuel + 1, s, modname => do
      let mod ← aklFindModule s modname
      if mod.isSome then return (none, s)
      match modname with
      | none => throw .nullDeref
      | some modname => loadDescribed files (aklLoadModule files fuel) s modname

/-- The names of the modules in the entries of a list. -/
def moduleNames (cells : List (Addr × Option AklModule)) : List (List Chr) :=
  cells.filterMap fun cell => cell.2.bind AklModule.amName

/-- The first module names the second one before the `NULL` of its dependencies. -/
def ModuleFiles.DependsOn (files : ModuleFiles) (name dep : List Chr) : Prop :=
  ∃ modPath mod deps, files.aklGetModulePath name = some modPath ∧
    files.aklLoadModuleDesc modPath = some mod ∧ mod.amDependsOn = some deps ∧
    some dep ∈ deps.takeWhile Option.isSome

/-- The module is the first one or one that it needs. -/
def ModuleFiles.Needs (files : ModuleFiles) : List Chr → List Chr → Prop :=
  Relation.ReflTransGen files.DependsOn

/-- Loading follows the dependencies: the call ends, and then the module and all modules that it
needs are in the list, once each, and each of them behind those that it depends on. -/
def ModuleState.LoadsWithDepends (s : ModuleState) (files : ModuleFiles) (name : List Chr) : Prop :=
  ∃ fuel mod s', ∃ cells : List (Addr × Option AklModule),
    aklLoadModule files fuel s (some name) = .ok (mod, s') ∧
    s'.aiModules.Stores s'.mem cells ∧
    ∀ n, files.Needs name n → (moduleNames cells).count n = 1 ∧
      ∀ i : Nat, (moduleNames cells)[i]? = some n →
        ∀ dep, files.DependsOn n dep → ∃ j < i, (moduleNames cells)[j]? = some dep

section

variable {s : ModuleState} {cells : List (Addr × Option AklModule)} {files : ModuleFiles}

/-- If no module is loaded, the entry that was not found is read. -/
theorem aklLoadModule_nil (stores : s.aiModules.Stores s.mem []) (fuel : Nat)
    (modname : Option (List Chr)) :
    aklLoadModule files (fuel + 1) s modname = .error .nullDeref := by
  have found : aklFindModule s modname = .error .nullDeref := by
    rw [aklFindModule, aklListFind_nil stores.denotes]
    rfl
  cases modname with
  | none => rw [aklLoadModule, found]; rfl
  | some modname => rw [aklLoadModule, found]; rfl

/-- If there is a module, the first one is found, whatever its name is, and nothing is done. -/
theorem aklLoadModule_cons {cell : Addr × Option AklModule}
    (stores : s.aiModules.Stores s.mem (cell :: cells)) (present : cell.2.isSome) (fuel : Nat)
    (modname : List Chr) : aklLoadModule files (fuel + 1) s (some modname) = .ok (none, s) := by
  obtain ⟨mod, isMod⟩ := Option.isSome_iff_exists.mp present
  have dataEq : s.mem.data cell.1 = some mod :=
    (stores.data cell List.mem_cons_self).trans isMod
  rw [aklLoadModule, aklFindModule, aklListFind_cons stores.denotes]
  simp only [dataEq]
  rfl

end

/-- No module is ever loaded. -/
theorem not_loadsWithDepends {s : ModuleState} {cells : List (Addr × Option AklModule)}
    (stores : s.aiModules.Stores s.mem cells) (present : ∀ cell ∈ cells, cell.2.isSome)
    (files : ModuleFiles) {name : List Chr} (notLoaded : name ∉ moduleNames cells) :
    ¬ s.LoadsWithDepends files name := by
  rintro ⟨fuel, mod, s', cells', loaded, stores', placed⟩
  cases fuel with
  | zero => cases loaded
  | succ fuel =>
      cases cells with
      | nil =>
          rw [aklLoadModule_nil stores] at loaded
          cases loaded
      | cons cell cells =>
          rw [aklLoadModule_cons stores (present cell List.mem_cons_self)] at loaded
          cases loaded
          have once := (placed name .refl).1
          rw [← stores.unique stores', List.count_eq_zero_of_not_mem notLoaded] at once
          cases once

/-- A module with a loader and no dependencies. -/
def moduleA : AklModule := ⟨some [code 'a'], none, some AKL_LOAD_OK, false⟩

/-- It depends on the other one. -/
def moduleB : AklModule := ⟨some [code 'b'], some [some [code 'a'], none], some AKL_LOAD_OK, false⟩

def twoModules : ModuleFiles where
  aklGetModulePath name := some name
  aklLoadModuleDesc path :=
    if path = [code 'a'] then some moduleA else if path = [code 'b'] then some moduleB else none

/-- The state after `akl_init_state`. -/
def noModules : ModuleState := ⟨Mem.empty, aklInitList⟩

theorem noModules_stores : noModules.aiModules.Stores noModules.mem [] :=
  ⟨AklList.Denotes.aklInitList _, nofun⟩

/-- The first module is there. -/
def oneModule : ModuleState where
  mem := (aklListAppend Mem.empty aklInitList (some moduleA)).2.1
  aiModules := (aklListAppend Mem.empty aklInitList (some moduleA)).2.2

theorem not_loadsWithDepends_second : ¬ oneModule.LoadsWithDepends twoModules [code 'b'] :=
  not_loadsWithDepends (noModules_stores.append (some moduleA)) (by decide) twoModules (by decide)

/-- A module without dependencies is not loaded into the empty list: `NULL` is read. -/
theorem not_loadsWithDepends_first :
    (∀ fuel, aklLoadModule twoModules (fuel + 1) noModules (some [code 'a']) =
      .error .nullDeref) ∧ ¬ noModules.LoadsWithDepends twoModules [code 'a'] := by
  have faults (fuel : Nat) : aklLoadModule twoModules (fuel + 1) noModules (some [code 'a']) =
      .error .nullDeref := aklLoadModule_nil noModules_stores fuel _
  refine ⟨faults, ?_⟩
  rintro ⟨fuel, mod, s', cells, loaded, -⟩
  cases fuel with
  | zero => cases loaded
  | succ fuel =>
      rw [faults] at loaded
      cases loaded

end AkLisp
