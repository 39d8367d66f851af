import FusionKit.FileTree.Select
import FusionKit.Form

/-!
# Repositories

Where the modules of a package are: the folder of the package and the folders in which module
files are looked up. A module named `/a/b` is in the file `a/b.fusion` of the first folder that
has one, and a file in turn is the module named after its path in the first folder it lies in.
The two need not agree, since several paths lead to one file.
-/
namespace FusionKit

/-- The folder of a package and the folders of its modules, from the root. -/
structure Repository where
  packagePath : Text
  modulePaths : List Text
  deriving DecidableEq, Repr

namespace Repository

/-- A path, taken from the package when it is relative. -/
def resolve (r : Repository) (path : Text) : Text := Path.absolute r.packagePath path

/-- The repository of a package that is there. Module paths are taken from the package. -/
def ofPackage (t : FileTree) (packagePath : Text) (modulePaths : List Text) :
    Except Failure Repository :=
  let path := t.absolute packagePath
  match t.stat path with
  | .error e => .error (.within (utf8 "failed to resolve package path") (.file e))
  | .ok (.file _) =>
    .error (.other (utf8 "package path " ++ path ++ utf8 " is not a directory"))
  | .ok .folder => .ok ⟨path, modulePaths.map (Path.absolute path)⟩

/-- The file of a module in a folder of modules. -/
def fileIn (dir name : Text) : Text :=
  Path.join dir (Text.trimStart [Path.slash] name ++ FileTree.sourceEnding)

/-- The file in which a module is found. -/
def moduleFile? (r : Repository) (t : FileTree) (name : Text) : Option Text :=
  (r.modulePaths.map (fileIn · name)).find? t.filePaths.contains

/-- The first folder of modules that a path lies in. -/
def parent? (r : Repository) (path : Text) : Option Text :=
  r.modulePaths.find? (Path.isWithin · path)

/-- The name of the module in a file. -/
def moduleName (r : Repository) (path : Text) : Except Failure Text :=
  let path := r.resolve path
  match (r.parent? path).bind (Path.relative? · path) with
  | none => .error (.other (utf8 "failed to find parent path of " ++ path))
  | some inner =>
    match Text.offsetOf? FileTree.sourceEnding inner with
    | none => .error (.other (path ++ utf8 " is not a .fusion file"))
    | some n => .ok (Path.slash :: inner.take n)

/-- The names of the modules in all files. -/
def moduleNames (r : Repository) (t : FileTree) : List Text :=
  t.filePaths.filterMap fun path => (r.moduleName path).toOption

/-- A path as messages show it: from the package on when it lies in it. -/
def shown (r : Repository) (path : Text) : Text :=
  if Path.isWithin r.packagePath path then (Path.relative? r.packagePath path).getD path else path

/-- A module that is found is the module of some file. -/
theorem mem_moduleNames {r : Repository} {t : FileTree} {name path own : Text}
    (found : r.moduleFile? t name = some path) (named : r.moduleName path = .ok own) :
    own ∈ r.moduleNames t := by
  have there := List.find?_some found
  exact List.mem_filterMap.2 ⟨path, by simpa using there, by simp [named, Except.toOption]⟩

end Repository

end FusionKit
