import FusionKit.Failure
import FusionKit.Pattern

/-!
# Selecting and replacing files

Arguments that name files: a path stands for itself, and a folder followed by `/...` for all
source files below it. Replacing a file takes a file or folder that is there already.
-/
namespace FusionKit.FileTree

/-- The ending of source files. -/
def sourceEnding : Text := utf8 ".fusion"

/-- The files below a folder whose names end in `ending`. -/
def filesEnding (t : FileTree) (dir ending : Text) : Except Failure (List Text) :=
  (t.filesBelow dir ending).mapError fun e =>
    .within (utf8 "failed to list files in " ++ dir) (.file e)

/-- The source files below a folder. -/
def sources (t : FileTree) (dir : Text) : Except Failure (List Text) :=
  t.filesEnding dir sourceEnding

/-- The files that one argument stands for. -/
def expandOne (t : FileTree) (arg : Text) : Except Failure (List Text) :=
  match Text.cutEnd? (utf8 "/...") arg with
  | none => .ok [arg]
  | some dir =>
    (t.sources (if dir.isEmpty then Path.here else dir)).mapError
      (.within (utf8 "expanding " ++ arg))

/-- The files that arguments stand for, without those that a pattern excludes. -/
def expand (t : FileTree) (args patterns : List Text) : Except Failure (List Text) := do
  let found ← args.mapM t.expandOne
  return Pattern.keepUnmatched patterns found.flatten

/-- Replaces the contents of a file that is there. -/
def replace (t : FileTree) (path content : Text) : Except Failure FileTree :=
  match t.find path with
  | .error f => .error (.file ⟨"stat", path, f⟩)
  | .ok (_, .folder) => .error (.within path (.file ⟨"rename", path, .present⟩))
  | .ok (names, .file _) => .ok (t.put names (.file content))

end FusionKit.FileTree
