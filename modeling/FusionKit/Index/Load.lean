import FusionKit.Fresh
import FusionKit.Index.Directive
import FusionKit.Log
import FusionKit.Repository
import FusionKit.Settings

/-!
# Loading

Files become modules and scripts of the index. Loading a module loads the module of its language
and the modules it imports before it; a module that is needed for itself is refused. What was
loaded before a failure stays loaded.

A module is marked while it is loaded. Loading ends since the marked modules are all different and
each is the module of a file of the tree: `fresh` counts those left.
-/
namespace FusionKit

/-- What loading changes: the index, the modules marked as being loaded, and a log of what was
done. -/
structure LoadState where
  index : Index := {}
  loading : List Text := []
  log : List LogEntry := []
  deriving Repr

/-- Loading may fail, and keeps what it did. -/
abbrev LoadM := ExceptT Failure (StateM LoadState)

namespace LoadM

/-- Goes on with a result, or fails with its failure. -/
def lift {α : Type} : Except Failure α → LoadM α
  | .ok a => pure a
  | .error f => throw f

/-- Writes a log entry. -/
def report (level : Level) (message : String) (key : String) (value : Text) : LoadM Unit :=
  modify fun s =>
    { s with log := s.log ++ [⟨level, utf8 message, [(utf8 key, value)]⟩] }

/-- Looks something up in the index. -/
def ask {α : Type} (f : Index → α) : LoadM α := do return f (← get).index

/-- Changes the index. -/
def update {α : Type} (f : Index → α × Index) : LoadM α :=
  modifyGet fun s => let (a, idx) := f s.index; (a, { s with index := idx })

/-- The modules marked as being loaded. -/
def marks : LoadM (List Text) := do return (← get).loading

/-- Does something while a module is marked as being loaded. The mark goes also when that fails. -/
def marking {α : Type} (name : Text) (act : LoadM α) : LoadM α := fun s =>
  let (result, s) := act.run { s with loading := name :: s.loading }
  (result, { s with loading := s.loading.filter (· != name) })

end LoadM

/-- What the directives of a file add up to. -/
structure Summary where
  language : Text := []
  allDefined : Bool := false
  defined : Table Span := []
  requires : List Requirement := []
  provides : Table Span := []

/-- All that a file provides. -/
def Summary.exports (s : Summary) : Table Span :=
  if s.allDefined then s.defined.foldl (fun t (name, span) => t.put name span) s.provides
  else s.provides

namespace SourceFile

/-- What was wrong when a file was visited: what is known by its span is located in this file, and
whatever else went wrong is passed on. -/
def resolve (f : SourceFile) : Failure → Failure
  | .spanned span message => .located (f.locate span.start) message
  | e => e

/-- Reads and parses a file. -/
def read (t : FileTree) (path name : Text) : Except Failure SourceFile :=
  let failed : Failure → Failure := .within (utf8 "failed to load " ++ name)
  match t.read path with
  | .error e => .error (failed (.file e))
  | .ok source =>
    match ofSource name source with
    | .error e => .error (failed (.ofSyntax e))
    | .ok f => .ok { f with path }

end SourceFile

/-- Where a name comes from that a file knows so far. -/
def Summary.origin? (s : Summary) (idx : Index) (name : Text) : Option Span :=
  s.defined.get? name <|> s.requires.findSome? fun r => idx.originOf? r name

/-- A fault in a file, which is known by its span. -/
def Misuse.failure (m : Misuse) : Failure := .spanned m.span m.fault.message

/-- Follows a directive. `need` loads a module. -/
def Directive.follow (need : Text → LoadM Nat) (s : Summary) : Directive → LoadM Summary
  | .define origin => pure { s with defined := s.defined.put origin.name origin.span }
  | .provide origin => pure { s with provides := s.provides.put origin.name origin.span }
  | .provideDefined => pure { s with allDefined := true }
  | .provideAs span inner outer => do
    match s.origin? (← LoadM.ask id) inner with
    | some origin => return { s with provides := s.provides.put outer origin }
    | none => throw (Misuse.failure ⟨span, .renameOutUnknown inner⟩)
  | .language name => do
    let _ ← need name
    return { s with language := name }
  | .require name imports => do
    let target ← need name
    match imports with
    | .ok imports => return { s with requires := s.requires ++ [⟨target, imports⟩] }
    | .error m => throw m.failure
  | .misuse m => throw m.failure

/-- Visits a file: follows all its directives, and locates in it what was wrong with one. -/
def SourceFile.summarize (need : Text → LoadM Nat) (file : SourceFile) : LoadM Summary :=
  ExceptT.adapt file.resolve ((Form.directivesOf false file.forms).foldlM (Directive.follow need) {})

namespace Repository

variable (r : Repository) (t : FileTree)

/-- Loads a file as the module with a name. -/
def loadAs (need : Text → LoadM Nat) (name path : Text) : LoadM Nat := LoadM.marking name do
  let file ← LoadM.lift (SourceFile.read t path (r.shown path))
  let s ← file.summarize need
  let id ← LoadM.update fun idx =>
    idx.putModule
      { name, file, language := s.language, requires := s.requires, provides := s.exports }
  LoadM.report .info "loaded module" "module" name
  return id

/-- The failure of a module that is needed for itself. -/
def selfDependent (name : Text) : Failure :=
  .other (utf8 "module " ++ name ++ utf8 " depends on itself")

/-- The place of a module, which is loaded when it is not in the index. `loading` are the marked
modules, those that wait for it. -/
def loadModule (loading : List Text) (name : Text) : LoadM Nat := do
  if name = rootModule.name then LoadM.update Index.root
  else
    match ← LoadM.ask (·.moduleId? name) with
    | some id => return id
    | none =>
      match found : r.moduleFile? t name with
      | none => throw (.moduleNotFound name)
      | some path =>
        match named : r.moduleName path with
        | .error f => throw f
        | .ok own =>
          match ← LoadM.ask (·.moduleId? own) with
          | some id => return id
          | none =>
            if waiting : own ∈ loading then throw (selfDependent own)
            else
              have := fresh_cons_lt (mem_moduleNames found named) waiting
              r.loadAs t (fun needed => loadModule (own :: loading) needed) own path
termination_by fresh (r.moduleNames t) loading

/-- The place of a module that is needed now. -/
def needModule (name : Text) : LoadM Nat := do r.loadModule t (← LoadM.marks) name

/-- Loads a file as the module with a name, also when there is one with this name. -/
def reloadModuleFile (name path : Text) : LoadM Nat := do
  if name ∈ (← LoadM.marks) then throw (selfDependent name)
  else r.loadAs t (r.needModule t) name (r.resolve path)

/-- The place of the module in a file, which is loaded when it is not in the index. -/
def loadModuleFile (path : Text) : LoadM Nat := do
  let path := r.resolve path
  let name ← LoadM.lift (r.moduleName path)
  match ← LoadM.ask (·.moduleId? name) with
  | some id => return id
  | none => r.reloadModuleFile t name path

/-- Loads a script and the modules it depends on. -/
def loadScript (name : Text) (topLevelModules globalBindings fileNames : List Text) :
    LoadM Nat := do
  for m in topLevelModules do
    let _ ← r.needModule t m
  let files ← fileNames.mapM fun fileName => do
    let file ← LoadM.lift (SourceFile.read t (r.resolve fileName) fileName)
    let _ ← file.summarize (r.needModule t)
    return file
  LoadM.update (·.putScript { name, topLevelModules, globalBindings, files })

/-- Loads a file of a configured folder: as a module, or as a script of its own. -/
def loadConfiguredFile (folder : Folder) (path : Text) : LoadM Unit := do
  if folder.holdsModules then
    let _ ← r.loadModuleFile t path
  else if folder.holdsTests then
    let name := r.shown path
    let _ ← r.loadScript t name folder.topLevelModules folder.globalBindings [name]
    LoadM.report .info "loaded test" "script" name

/-- Loads all files of a configured folder. A folder that is not there is passed over. -/
def loadFolder (folder : Folder) : LoadM Unit := do
  let dir := Path.join r.packagePath folder.path
  if t.isFolder dir then
    for path in ← LoadM.lift (t.sources dir) do
      r.loadConfiguredFile t folder path
  else LoadM.report .debug "skipping missing path" "path" folder.path

/-- Loads all files of the configured folders. -/
def loadConfigured (s : Settings) : LoadM Unit := s.folders.forM (r.loadFolder t)

end Repository

/-- The folders in which the modules of a package are looked up. -/
def Settings.allModulePaths (s : Settings) : List Text :=
  (s.folders.filter Folder.holdsModules).map (·.path) ++ s.modulePaths

/-- Loads the package in a folder. -/
def Settings.loadPackage (s : Settings) (t : FileTree) (packagePath : Text) :
    LoadM Repository := do
  let r ← LoadM.lift (Repository.ofPackage t packagePath s.allModulePaths)
  LoadM.report .debug "module repository initialized" "paths" (Text.bracketed r.modulePaths)
  r.loadConfigured t s
  return r

end FusionKit
