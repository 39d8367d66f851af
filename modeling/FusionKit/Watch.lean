import FusionKit.Index.Load
import FusionKit.Report.Render

/-!
# Watching a package

A file that changed is loaded again and what it defines is checked: the module in it, or the
script that it is. Files outside the configured folders are of no concern. A new folder is
watched too, with all folders in it.
-/
namespace FusionKit

namespace Repository

variable (r : Repository) (t : FileTree)

/-- The path of a source file in the package. -/
def sourcePath? (path : Text) : Option Text :=
  if FileTree.sourceEnding.isSuffixOf path then
    (Path.relative? r.packagePath (t.absolute path)).filter fun p => !Path.up.isPrefixOf p
  else none

/-- Loads a file again and gives the problems of what it defines; none when the file is of no
concern. -/
def recheck? (s : Settings) (path : Text) : Option (LoadM (List Problem)) := do
  let inner ← r.sourcePath? t path
  let folder ← s.folderOf? inner
  some do
    if folder.holdsModules then
      let file := t.absolute path
      let name ← LoadM.lift (r.moduleName file)
      let id ← r.reloadModuleFile t name file
      LoadM.ask fun idx => (idx.modules[id]?.map idx.checkModule).getD []
    else
      let id ← r.loadScript t inner folder.topLevelModules folder.globalBindings [inner]
      LoadM.ask fun idx => (idx.scripts[id]?.map idx.checkScript).getD []

/-- How failures of loading are shown: sources are read from the package. -/
def loadStyle (color : ColorMode) : ReportStyle where
  color
  read name := (t.read (r.resolve name)).toOption

end Repository

/-- What happened to a path. -/
structure FileEvent where
  path : Text
  created : Bool := false
  written : Bool := false
  removed : Bool := false
  renamed : Bool := false
  deriving DecidableEq, Repr

/-- What an event leads to: output, error output and folders to watch. -/
structure Reaction where
  output : Text := []
  errors : Text := []
  watched : List Text := []
  deriving DecidableEq, Repr

namespace Repository

variable (r : Repository) (t : FileTree)

/-- Reacts to a file that may have changed. -/
def reactToFile (s : Settings) (color : ColorMode) (path : Text) : StateM LoadState Reaction :=
  match r.recheck? t s path with
  | none => pure {}
  | some again => do
    match ← again.run with
    | .error f => return { errors := (r.loadStyle t color).render (.ofFailure f none) }
    | .ok [] => return { output := path ++ utf8 ": ok\n" }
    | .ok problems =>
      return { output := ReportStyle.renderAll { color } (problems.map .ofProblem) }

/-- Reacts to an event. One at whose path there is nothing is passed over. -/
def react (s : Settings) (color : ColorMode) (e : FileEvent) : StateM LoadState Reaction :=
  if !(e.created || e.written || e.removed || e.renamed) then pure {}
  else
    match t.stat e.path with
    | .error _ => pure {}
    | .ok .folder =>
      pure { watched := if e.created then (t.foldersBelow e.path).toOption.getD [] else [] }
    | .ok (.file _) => r.reactToFile t s color e.path

/-- What the log says when the configured folders start to be watched. -/
def watchLog (s : Settings) : List LogEntry :=
  s.folders.map fun folder =>
    match t.foldersBelow (Path.join r.packagePath folder.path) with
    | .ok _ => ⟨.info, utf8 "watching", [(utf8 "path", folder.path)]⟩
    | .error e =>
      ⟨.warn, utf8 "cannot watch path", [(utf8 "path", folder.path), (utf8 "error", e.message)]⟩

end Repository

end FusionKit
