import FusionKit.Form
import FusionKit.Table

/-!
# The index of a package

All modules and test scripts that are known, in the order in which they became known. Modules
refer to each other by place in this order, which is why a module that is put again takes the
place it had.
-/
namespace FusionKit

/-- A name with the place where it was introduced. -/
structure Origin where
  name : Text
  span : Span
  deriving DecidableEq, Repr

/-- What is imported of a module. -/
inductive Imports where
  | all
  | names (origins : List Origin)
  /-- The names of the module with the names they get. -/
  | mapped (origins : Table Origin)
  deriving DecidableEq, Repr

/-- The word for a way to import. -/
def Imports.word : Imports → String
  | all => "all"
  | names _ => "names"
  | mapped _ => "mapped"

/-- The import of a module, given by its place in the index. -/
structure Requirement where
  target : Nat
  imports : Imports
  deriving DecidableEq, Repr

/-- What is known of a module: where it was read, the module whose language it is in, and what it
imports and provides. -/
structure ModuleBody where
  name : Text
  language : Text
  file : SourceFile
  requires : List Requirement := []
  provides : Table Span := []
  deriving Repr, Inhabited

/-- A module of an index, with the place by which requirements refer to it. -/
structure Module extends ModuleBody where
  id : Nat
  deriving Repr, Inhabited

/-- What is known of a test script: files that are evaluated together, in an environment of modules
and further names. -/
structure ScriptBody where
  name : Text
  topLevelModules : List Text
  globalBindings : List Text
  files : List SourceFile
  deriving Repr, Inhabited

/-- A test script of an index, with its place there. -/
structure Script extends ScriptBody where
  id : Nat
  deriving Repr, Inhabited

/-- The known modules and scripts, and the places of their names. -/
structure Index where
  modules : List Module := []
  moduleIds : Table Nat := []
  scripts : List Script := []
  scriptIds : Table Nat := []
  deriving Repr

/-- The module at the root of all languages. It has no file and provides nothing. -/
def rootModule : ModuleBody where
  name := utf8 "/fusion/private/kernel"
  language := utf8 "/fusion/private/kernel"
  file := {}

namespace Index

/-- The place of a module. -/
def moduleId? (idx : Index) (name : Text) : Option Nat := idx.moduleIds.get? name

/-- The module with a name. -/
def module? (idx : Index) (name : Text) : Option Module :=
  (idx.moduleId? name).bind fun id => idx.modules[id]?

/-- A module that is found has a name with a place. -/
theorem mem_names_of_module? {idx : Index} {name : Text} {m : Module}
    (found : idx.module? name = some m) : name ∈ idx.moduleIds.map (·.1) := by
  obtain ⟨id, place, -⟩ := Option.bind_eq_some_iff.1 found
  exact List.mem_map.2 ⟨(name, id), Table.mem_of_get? place, rfl⟩

/-- The place of a script. -/
def scriptId? (idx : Index) (name : Text) : Option Nat := idx.scriptIds.get? name

/-- The script with a name. -/
def script? (idx : Index) (name : Text) : Option Script :=
  (idx.scriptId? name).bind fun id => idx.scripts[id]?

/-- Puts an entry at the place that its name has, or at the end; `entry` is the entry for a place.
Gives the place, the places of names and the entries. -/
def place {α : Type} (ids : Table Nat) (entries : List α) (name : Text) (entry : Nat → α) :
    Nat × Table Nat × List α :=
  match ids.get? name with
  | some id => (id, ids, entries.set id (entry id))
  | none =>
    let id := entries.length
    (id, ids.put name id, entries ++ [entry id])

/-- Puts a module. -/
def putModule (idx : Index) (m : ModuleBody) : Nat × Index :=
  let (id, moduleIds, modules) := place idx.moduleIds idx.modules m.name ({ m with id := · })
  (id, { idx with modules, moduleIds })

/-- Puts a script. -/
def putScript (idx : Index) (s : ScriptBody) : Nat × Index :=
  let (id, scriptIds, scripts) := place idx.scriptIds idx.scripts s.name ({ s with id := · })
  (id, { idx with scripts, scriptIds })

/-- The place of the root module, which is put when it is not there. -/
def root (idx : Index) : Nat × Index :=
  match idx.moduleId? rootModule.name with
  | some id => (id, idx)
  | none => idx.putModule rootModule

/-- The modules by name. -/
def modulesByName (idx : Index) : List Module :=
  idx.moduleIds.sorted.filterMap fun (_, id) => idx.modules[id]?

/-- The scripts by name. -/
def scriptsByName (idx : Index) : List Script :=
  idx.scriptIds.sorted.filterMap fun (_, id) => idx.scripts[id]?

/-- Where a name was introduced that came through an import. -/
def originOf? (idx : Index) (r : Requirement) (name : Text) : Option Span :=
  match r.imports with
  | .all => idx.modules[r.target]?.bind fun m => m.provides.get? name
  | .names origins => (origins.find? (·.name == name)).map (·.span)
  | .mapped origins => (origins.sorted.find? (·.2.name == name)).map (·.2.span)

end Index

end FusionKit
