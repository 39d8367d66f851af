import FusionKit.Path

/-!
# File trees

Files and folders as a value. A path is followed part by part from the working folder or the
root, and fails as a file system fails: at a missing name, or at a file that is used as a folder.
Walks visit the entries of a folder by name, and the contents of a folder where its name stands.
-/
namespace FusionKit

/-- A file with its contents, or a folder. -/
inductive Entry where
  | file (content : Text)
  | folder
  deriving DecidableEq, Repr

/-- Files and folders, each under its names from the root on, and the working folder. -/
structure FileTree where
  entries : List (List Text × Entry) := []
  cwd : List Text := []
  deriving Repr

/-- Why a file cannot be used. -/
inductive FileFault where
  | missing
  | notFolder
  | isFolder
  | present
  deriving DecidableEq, Repr

/-- The text for a fault. -/
def FileFault.message : FileFault → String
  | missing => "no such file or directory"
  | notFolder => "not a directory"
  | isFolder => "is a directory"
  | present => "file exists"

/-- A failed action on a path. -/
structure FileError where
  action : String
  path : Text
  fault : FileFault
  deriving DecidableEq, Repr

/-- The message for a failed action. -/
def FileError.message (e : FileError) : Text :=
  utf8 e.action ++ utf8 " " ++ e.path ++ utf8 ": " ++ utf8 e.fault.message

namespace FileTree

/-- The order of names, one after the other. -/
def namesLe : List Text → List Text → Bool
  | [], _ => true
  | _ :: _, [] => false
  | a :: as, b :: bs => if a == b then namesLe as bs else Text.le a b

/-- What stands under some names; the root is a folder. -/
def entry? (t : FileTree) (names : List Text) : Option Entry :=
  if names.isEmpty then some .folder else t.entries.lookup names

/-- One step along a path. -/
def follow (t : FileTree) (at_ : List Text × Entry) (piece : Text) :
    Except FileFault (List Text × Entry) :=
  match at_ with
  | (_, .file _) => .error .notFolder
  | (names, .folder) =>
    if piece.isEmpty || piece == Path.here then .ok (names, .folder)
    else if piece == Path.up then .ok (names.dropLast, .folder)
    else
      match t.entry? (names ++ [piece]) with
      | some e => .ok (names ++ [piece], e)
      | none => .error .missing

/-- Follows a path to its names and what stands there. -/
def find (t : FileTree) (path : Text) : Except FileFault (List Text × Entry) :=
  if path.isEmpty then .error .missing
  else
    let start := if Path.isAbsolute path then [] else t.cwd
    (Text.piecesAt Path.slash path).foldlM t.follow (start, .folder)

/-- The contents of a file. -/
def read (t : FileTree) (path : Text) : Except FileError Text :=
  match t.find path with
  | .error f => .error ⟨"open", path, f⟩
  | .ok (_, .folder) => .error ⟨"read", path, .isFolder⟩
  | .ok (_, .file content) => .ok content

/-- What stands under a path. -/
def stat (t : FileTree) (path : Text) : Except FileError Entry :=
  match t.find path with
  | .error f => .error ⟨"stat", path, f⟩
  | .ok (_, e) => .ok e

/-- Whether a file stands under a path. -/
def isFile (t : FileTree) (path : Text) : Bool :=
  match t.find path with
  | .ok (_, .file _) => true
  | _ => false

/-- Whether a folder stands under a path. -/
def isFolder (t : FileTree) (path : Text) : Bool :=
  match t.find path with
  | .ok (_, .folder) => true
  | _ => false

/-- The working folder as a path. -/
def workingPath (t : FileTree) : Text := Path.ofParts true t.cwd

/-- A path from the root. -/
def absolute (t : FileTree) (path : Text) : Text := Path.absolute t.workingPath path

/-- Puts an entry under some names, in place of what was there. -/
def put (t : FileTree) (names : List Text) (e : Entry) : FileTree :=
  if names.isEmpty then t
  else { t with entries := (names, e) :: t.entries.filter (·.1 != names) }

/-- Makes a folder and those above it, where nothing stands yet. -/
def makeFolder (t : FileTree) (names : List Text) : FileTree :=
  ((List.range names.length).map fun i => names.take (i + 1)).foldl
    (fun t ns => if (t.entry? ns).isSome then t else t.put ns .folder) t

/-- Writes a file, in folders made for it as needed. -/
def writeAt (t : FileTree) (names : List Text) (content : Text) : FileTree :=
  (t.makeFolder names.dropLast).put names (.file content)

/-- Takes an entry and all that is below it away. -/
def removeAt (t : FileTree) (names : List Text) : FileTree :=
  { t with entries := t.entries.filter fun e => !names.isPrefixOf e.1 }

/-- What stands below a folder, in the order of a walk, each with its names from there on. -/
def below (t : FileTree) (names : List Text) : List (List Text × Entry) :=
  let inside := t.entries.filterMap fun (ns, e) =>
    if names.isPrefixOf ns && ns != names then some (ns.drop names.length, e) else none
  inside.mergeSort fun a b => namesLe a.1 b.1

/-- Whether a name is hidden. -/
def isHidden (name : Text) : Bool := name.head? == some (byte '.')

/-- The path of what stands below a folder. -/
def pathBelow (dir : Text) (names : List Text) : Text :=
  Path.join dir (Text.joinWith [Path.slash] names)

/-- The files below a folder whose names end in `ending`, in the order of a walk that enters no
hidden folder. -/
def filesBelow (t : FileTree) (dir ending : Text) : Except FileError (List Text) :=
  match t.find dir with
  | .error f => .error ⟨"lstat", dir, f⟩
  | .ok (_, .file _) => .ok (if ending.isSuffixOf (Path.base dir) then [dir] else [])
  | .ok (names, .folder) =>
    .ok ((t.below names).filterMap fun (ns, e) =>
      match e with
      | .folder => none
      | .file _ =>
        if !ns.dropLast.any isHidden && ending.isSuffixOf (ns.getLastD []) then
          some (pathBelow dir ns)
        else none)

/-- A folder and the folders below it that are not hidden nor in hidden ones, in the order of a
walk. -/
def foldersBelow (t : FileTree) (dir : Text) : Except FileError (List Text) :=
  match t.find dir with
  | .error f => .error ⟨"lstat", dir, f⟩
  | .ok (_, .file _) => .ok []
  | .ok (names, .folder) =>
    .ok (dir :: (t.below names).filterMap fun (ns, e) =>
      match e with
      | .file _ => none
      | .folder => if ns.any isHidden then none else some (pathBelow dir ns))

/-- The paths of all files, from the root. -/
def filePaths (t : FileTree) : List Text :=
  t.entries.filterMap fun (names, e) =>
    match e with
    | .file _ => some (Path.ofParts true names)
    | .folder => none

/-- The files of a tree below some names with their contents, in the order of a walk. -/
def contents (t : FileTree) (names : List Text) : List (Text × Text) :=
  (t.below names).filterMap fun (ns, e) =>
    match e with
    | .file content => some (Text.joinWith [Path.slash] ns, content)
    | .folder => none

end FileTree

end FusionKit
