import FusionKit.Failure

/-!
# Formatting files

The files of a list of paths, each with its own outcome: a file that cannot be read or parsed
keeps no other from being formatted.
-/
namespace FusionKit

/-- What formatting a file came to. -/
structure FormatOutcome where
  path : Text
  source : Text
  result : Except Failure Text
  deriving Repr

namespace FormatOutcome

/-- Whether formatting alters the file. -/
def changed (o : FormatOutcome) : Bool :=
  match o.result with
  | .ok t => t != o.source
  | .error _ => false

/-- The outcome for the file at a path. -/
def ofPath (s : Settings) (t : FileTree) (path : Text) : FormatOutcome :=
  match t.read path with
  | .error e => ⟨path, [], .error (.file e)⟩
  | .ok source => ⟨path, source, (format s path source).mapError .ofFormat⟩

end FormatOutcome

end FusionKit
