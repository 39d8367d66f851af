import FusionKit.Log
import FusionKit.Settings
import FusionKit.Table
import FusionKit.Value

/-!
# Settings from configured values

Each setting is looked for in the environment, then in the configuration file, and has its default
when neither says anything. Values are taken as what a setting needs as far as that makes sense: a
number may stand for its text, a text for a list of its words. Only folders are strict, and all
that does not fit in them is reported together.
-/
namespace FusionKit

/-- A value in a folder that is not what it should be. -/
inductive Misfit where
  | notTable (name : Text) (found : Value)
  | notText (name : Text) (wanted : String) (found : Value)
  deriving Repr

/-- Why settings cannot be taken from configured values. -/
inductive DecodeFault where
  | folders (misfits : List Misfit)
  | invalid (fault : SettingsFault)
  deriving Repr

namespace Value

/-- The word for the kind of a value. -/
def kind : Value → String
  | null => "invalid"
  | boolean _ => "bool"
  | integer _ type => type
  | real _ => "float64"
  | unreal _ => "float64"
  | moment _ _ => "struct"
  | text _ => "string"
  | list _ => "slice"
  | table _ => "map"

/-- The word for the type of a value. -/
def type : Value → String
  | list _ => "[]interface \x7b\x7d"
  | table _ => "map[string]interface \x7b\x7d"
  | moment type _ => type
  | v => v.kind

mutual

/-- A value as messages show it. -/
def shown : Value → Text
  | .list items => Text.bracketed (shownItems items)
  | .table entries =>
    let shown := (shownEntries entries).mergeSort fun a b => Text.le a.1 b.1
    utf8 "map" ++ Text.bracketed (shown.map fun (name, v) => name ++ utf8 ":" ++ v)
  | .null => utf8 "<nil>"
  | .text t => t
  | .boolean b => utf8 (if b then "true" else "false")
  | .integer n _ => Text.ofInt n
  | .real d => d.general?.getD []
  | .unreal spelling => utf8 spelling
  | .moment _ t => t

/-- Items as messages show them. -/
def shownItems : List Value → List Text
  | [] => []
  | v :: vs => v.shown :: shownItems vs

/-- The names and values of entries as messages show them. -/
def shownEntries : List (Text × Value) → List (Text × Text)
  | [] => []
  | (name, v) :: es => (name.lowered, v.shown) :: shownEntries es

end

end Value

/-- The message for a misfit. -/
def Misfit.message : Misfit → Text
  | notTable name found =>
    utf8 "'" ++ name ++ utf8 "' expected a map, got '" ++ utf8 found.kind ++ utf8 "'"
  | notText name wanted found =>
    utf8 "'" ++ name ++ utf8 "' expected type '" ++ utf8 wanted ++
      utf8 "', got unconvertible type '" ++ utf8 found.type ++ utf8 "', value: '" ++ found.shown ++
      utf8 "'"

/-- The message for a fault. -/
def DecodeFault.message : DecodeFault → Text
  | folders misfits =>
    utf8 "decoding fusion.paths: " ++ Text.ofNat misfits.length ++ utf8 " error(s) decoding:\n\n" ++
      Text.joinWith (utf8 "\n") (Text.sorted (misfits.map fun m => utf8 "* " ++ m.message))
  | invalid fault => fault.message

/-- The entry of a table with a name, or with one that has the same fold. -/
def Value.fieldOf? (name : Text) : Value → Option Value
  | table entries =>
    let entries := entries.reverse
    ((entries.find? fun e => e.1.lowered == name).or
      (entries.find? fun e => e.1.lowered.folded == name)).map (·.2)
  | _ => none

namespace Folder

/-- What was found, and what did not fit. -/
abbrev Found (α : Type) := α × List Misfit

/-- The name of an item of a list. -/
def itemName (name : Text) (i : Nat) : Text :=
  name ++ utf8 "[" ++ Text.ofNat i ++ utf8 "]"

/-- The items of a list, found one by one. -/
def foundItems {α : Type} (name : Text) (f : Text → Value → Found α) (items : List Value) :
    Found (List α) :=
  let found := items.zipIdx.map fun (v, i) => f (itemName name i) v
  (found.map (·.1), found.flatMap (·.2))

/-- A text of a folder. -/
def textFound (wanted : String) (name : Text) (v : Value) : Found Text :=
  match v with
  | .null => ([], [])
  | .boolean b => (utf8 (if b then "1" else "0"), [])
  | .list _ | .table _ | .moment _ _ => ([], [.notText name wanted v])
  | v => (v.text?.getD [], [])

/-- The items that a value stands for as a list: a text is split at commas, and what is no list
is the only item of one. -/
def itemsOf : Value → List Value
  | .null => []
  | .list items => items
  | .table [] => []
  | .text t => if t.isEmpty then [] else (Text.piecesAt (byte ',') t).map .text
  | v => [v]

/-- A list of texts of a folder. -/
def textsFound (name : Text) (v : Value) : Found (List Text) :=
  foundItems name (textFound "string") (itemsOf v)

/-- A folder. Entries with other names are of no concern. -/
def found (name : Text) (v : Value) : Found Folder :=
  let field (key : String) : Text × Value :=
    (name ++ utf8 "." ++ utf8 key, (v.fieldOf? (utf8 key)).getD .null)
  match v with
  | .null | .moment _ _ => ({ path := [] }, [])
  | .table _ =>
    let (pathName, pathValue) := field "path"
    let (modeName, modeValue) := field "mode"
    let (modulesName, modulesValue) := field "top_level_modules"
    let (bindingsName, bindingsValue) := field "global_bindings"
    let (path, misfits₁) := textFound "string" pathName pathValue
    let (mode, misfits₂) := textFound "config.PathMode" modeName modeValue
    let (topLevelModules, misfits₃) := textsFound modulesName modulesValue
    let (globalBindings, misfits₄) := textsFound bindingsName bindingsValue
    (⟨path, mode, topLevelModules, globalBindings⟩, misfits₁ ++ misfits₂ ++ misfits₃ ++ misfits₄)
  | v => ({ path := [] }, [.notTable name v])

/-- The folders that a value stands for. -/
def foundAll (v : Value) : Found (List Folder) := foundItems [] found (itemsOf v)

end Folder

/-- What is known of a setting. -/
inductive Setting where
  | unset
  /-- Something else stands where the setting would be. -/
  | void
  | given (v : Value)
  deriving Repr

namespace Setting

/-- What a setting says, or its default. -/
def get {α : Type} (f : Value → α) (default : α) : Setting → α
  | unset => default
  | void => f .null
  | given v => f v

end Setting

/-- Where settings are taken from. -/
structure Configuration where
  /-- The variables of the environment that count. -/
  environment : Table Text := []
  file : Value := .table []
  deriving Repr

namespace Configuration

/-- The variable for a setting, which a path of names leads to. -/
def variableName (path : List String) : Text :=
  let capital (b : UInt8) : UInt8 := if byte 'a' ≤ b && b ≤ byte 'z' then b - 32 else b
  (Text.joinWith (utf8 "_") (utf8 "FUUSAK" :: path.map utf8)).map capital

/-- The paths of all settings, and of the table that holds most of them. -/
def paths : List (List String) :=
  [["log_level"], ["fusion"], ["fusion", "newline_mode"],
    ["fusion", "format_multiline_string_contents"], ["fusion", "fixed_indent_symbols"],
    ["fusion", "smart_indent_symbols"], ["fusion", "paths"], ["fusion", "module_paths"]]

/-- The value of a variable; an empty one does not count. -/
def lookup? (c : Configuration) (path : List String) : Option Text :=
  (c.environment.get? (variableName path)).filter fun t => !t.isEmpty

/-- What is known of a setting. -/
def setting (c : Configuration) (path : List String) : Setting :=
  match c.lookup? path with
  | some t => .given (.text t)
  | none =>
    let above := (List.range path.length).drop 1
    if above.any fun n => (c.lookup? (path.take n)).isSome then .void
    else
      match c.file.atPath? (path.map utf8) with
      | some v => .given v
      | none => if c.file.isCut (path.map utf8) then .void else .unset

/-- The settings. -/
def settings (c : Configuration) : Except DecodeFault Settings := do
  let of {α : Type} (key : String) (f : Value → α) (default : α) : α :=
    (c.setting ["fusion", key]).get f default
  let d := Settings.default
  let (folders, misfits) := of "paths" Folder.foundAll (d.folders, [])
  if !misfits.isEmpty then .error (.folders misfits)
  let s : Settings :=
    { newlineMode := of "newline_mode" (fun v => v.text?.getD []) d.newlineMode
      formatLongStrings := of "format_multiline_string_contents" Value.isTrue d.formatLongStrings
      fixedIndent := of "fixed_indent_symbols" Value.texts d.fixedIndent
      smartIndent := of "smart_indent_symbols" Value.texts d.smartIndent
      folders
      modulePaths := of "module_paths" Value.texts d.modulePaths }
  match s.validate with
  | .ok _ => return s
  | .error f => .error (.invalid f)

/-- The name of the least level that is logged. -/
def logLevel (c : Configuration) : Text :=
  (c.setting ["log_level"]).get (fun v => v.text?.getD []) (utf8 "warn")

end Configuration

end FusionKit
