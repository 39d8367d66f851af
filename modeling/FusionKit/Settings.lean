import FusionKit.Path
import FusionKit.Text.Blank
import FusionKit.Text.Quoted

/-!
# Settings

What a package may configure: how newlines and long strings are treated, which symbols head
forms with a fixed or a size-dependent indent, and where modules and tests are found.

The mode of newlines and the role of a folder are kept as they were written, so that a wrong one
can be reported; `Settings.validate` accepts the known ones only.
-/
namespace FusionKit

/-- A folder of sources of a package. -/
structure Folder where
  path : Text
  /-- Its role, `modules` or `tests`. -/
  mode : Text := []
  topLevelModules : List Text := []
  globalBindings : List Text := []
  deriving DecidableEq, Repr, Inhabited

/-- All settings. -/
structure Settings where
  newlineMode : Text
  formatLongStrings : Bool
  fixedIndent : List Text
  smartIndent : List Text
  folders : List Folder
  modulePaths : List Text
  deriving DecidableEq, Repr, Inhabited

namespace Folder

/-- Whether the files of a folder are modules. -/
def holdsModules (f : Folder) : Bool := f.mode == utf8 "modules"

/-- Whether the files of a folder are test scripts. -/
def holdsTests (f : Folder) : Bool := f.mode == utf8 "tests"

end Folder

/-- What is wrong with settings. -/
inductive SettingsFault where
  | newlineMode (mode : Text)
  | emptyPath (index : Nat)
  | folderMode (index : Nat) (folder : Folder)
  deriving DecidableEq, Repr

/-- The message for a fault. -/
def SettingsFault.message : SettingsFault → Text
  | newlineMode mode =>
    utf8 "invalid newline_mode " ++ mode.quoted ++ utf8 ": expected \"no-change\" or \"fix-up\""
  | emptyPath i => utf8 "fusion.paths[" ++ Text.ofNat i ++ utf8 "]: path is empty"
  | folderMode i f =>
    utf8 "fusion.paths[" ++ Text.ofNat i ++ utf8 "] (" ++ f.path ++ utf8 "): invalid mode " ++
      f.mode.quoted ++ utf8 ": expected \"modules\" or \"tests\""

namespace Settings

/-- The settings of a package that configures nothing. -/
def default : Settings where
  newlineMode := utf8 "fix-up"
  formatLongStrings := true
  fixedIndent :=
    ["define", "define_syntax", "defpub", "defpub_j", "defpub_syntax", "lambda", "let", "lets",
      "letrec", "module", "when", "unless", "|"].map utf8
  smartIndent := ["if", "cond", "begin", "and", "or"].map utf8
  folders :=
    [{ path := utf8 "fusion/src", mode := utf8 "modules" },
      { path := utf8 "ftst", mode := utf8 "tests", topLevelModules := [utf8 "/fusion"] }]
  modulePaths := []

/-- Whether newline runs are normalised. -/
def fixesNewlines (s : Settings) : Bool := s.newlineMode == utf8 "fix-up"

/-- Whether forms headed by a symbol always have a fixed indent. -/
def isFixedIndent (s : Settings) (symbol : Text) : Bool := s.fixedIndent.contains symbol

/-- Whether forms headed by a symbol have a fixed indent once they are large. -/
def isSmartIndent (s : Settings) (symbol : Text) : Bool := s.smartIndent.contains symbol

/-- The first folder, counted from `i`, that is not as it should be. -/
def validateFolders (i : Nat) : List Folder → Except SettingsFault Unit
  | [] => .ok ()
  | f :: fs =>
    if f.path.strip.isEmpty then .error (.emptyPath i)
    else if f.holdsModules || f.holdsTests then validateFolders (i + 1) fs
    else .error (.folderMode i f)

/-- Reports the first setting that is not as it should be. -/
def validate (s : Settings) : Except SettingsFault Unit :=
  if s.newlineMode == utf8 "no-change" || s.newlineMode == utf8 "fix-up" then
    validateFolders 0 s.folders
  else .error (.newlineMode s.newlineMode)

/-- Whether a cleaned path is the folder with the given root or lies in it. -/
def covers (root p : Text) : Bool := p == root || (root ++ [Path.slash]).isPrefixOf p

/-- The folder that a path of the package belongs to. Of nested folders the innermost one. -/
def folderOf? (s : Settings) (p : Text) : Option Folder :=
  let p := Path.clean p
  s.folders.foldl
    (fun best f =>
      let root := Text.trimEnd [Path.slash] (Path.clean f.path)
      if !covers root p then best
      else
        match best with
        | none => some f
        | some b => if (Path.clean b.path).length < root.length then some f else best)
    none

end Settings

end FusionKit
