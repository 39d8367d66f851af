import FusionKit.Failure
import FusionKit.Json.Read
import FusionKit.Settings.Decode
import FusionKit.Toml.Read
import FusionKit.Yaml.Read

/-!
# Configuration files

A configuration file is named, or looked for in the working folder and then in the home folder.
Its format goes by the ending of its name. A package without one has the default settings, and the
default file spells them out.
-/
namespace FusionKit

/-- The formats of configuration files. -/
inductive ConfigFormat where
  | json
  | toml
  | yaml
  deriving DecidableEq, Repr

namespace ConfigFormat

/-- The endings of configuration files, in the order in which files are looked for. -/
def endings : List (String × ConfigFormat) :=
  [("json", json), ("toml", toml), ("yaml", yaml), ("yml", yaml)]

/-- The format that an ending stands for. -/
def ofEnding? (ending : Text) : Option ConfigFormat :=
  (endings.find? fun e => utf8 e.1 == ending).map (·.2)

mutual

/-- The first number of a JSON value that is too large. -/
def hugeNumber? : Json → Option Text
  | .number written =>
    if ((Decimal.ofText? written).bind Decimal.toBinary?).isSome then none else some written
  | .array items => hugeItem? items
  | .object members => hugeMember? members
  | _ => none

/-- The first number among items that is too large. -/
def hugeItem? : List Json → Option Text
  | [] => none
  | item :: items => (hugeNumber? item).or (hugeItem? items)

/-- The first number among members that is too large. -/
def hugeMember? : List (Text × Json) → Option Text
  | [] => none
  | (_, value) :: members => (hugeNumber? value).or (hugeMember? members)

end

/-- The table that a JSON text holds, or what is wrong with it. -/
def readJson (t : Text) : Except Text Value :=
  match Json.read t with
  | .error f => .error f.message
  | .ok .null => .ok (.table [])
  | .ok (.object members) =>
    match hugeMember? members with
    | none => .ok (.ofJson (.object members))
    | some written =>
      .error (utf8 "json: cannot unmarshal number " ++ written ++
        utf8 " into Go value of type float64")
  | .ok v =>
    .error (utf8 "json: cannot unmarshal " ++ utf8 v.kind ++
      utf8 " into Go value of type map[string]interface \x7b\x7d")

/-- The table that a text holds, or what is wrong with it. -/
def read : ConfigFormat → Text → Except Text Value
  | json, t => readJson t
  | toml, t => (Toml.read t).mapError fun f => utf8 "toml: " ++ f.message
  | yaml, t => (Yaml.read t).mapError fun f => utf8 "yaml: " ++ f.message

end ConfigFormat

/-- Why a configuration file cannot be read. -/
inductive ConfigFault where
  | unsupported (ending : Text)
  | file (error : FileError)
  | malformed (reason : Text)
  deriving DecidableEq, Repr

/-- The message for a fault. -/
def ConfigFault.message : ConfigFault → Text
  | unsupported ending => utf8 "Unsupported Config Type " ++ ending.quoted
  | file error => error.message
  | malformed reason => utf8 "While parsing config: " ++ reason

/-- Why settings cannot be loaded. -/
inductive ConfigFailure where
  /-- The file cannot be read; it was named by its path, or else found. -/
  | unreadable (path : Option Text) (fault : ConfigFault)
  | unusable (fault : DecodeFault)
  deriving Repr

/-- The message for a failure. -/
def ConfigFailure.message : ConfigFailure → Text
  | unreadable (some path) fault =>
    utf8 "reading config " ++ path ++ utf8 ": " ++ fault.message
  | unreadable none fault => utf8 "reading config: " ++ fault.message
  | unusable fault => fault.message

namespace Configuration

/-- The name of configuration files, without an ending. -/
def fileStem : Text := utf8 "fuusak."

/-- The name of the default configuration file. -/
def fileName : Text := utf8 "fuusak.toml"

/-- The contents of a configuration file. -/
def readFile (t : FileTree) (path : Text) : Except ConfigFault Value := do
  let ending := (Path.suffix path).drop 1
  match ConfigFormat.ofEnding? ending with
  | none => .error (.unsupported ending)
  | some format =>
    let content ← (t.read path).mapError .file
    (format.read content).mapError .malformed

/-- The configuration file in a folder. -/
def fileIn? (t : FileTree) (dir : Text) : Option Text :=
  (ConfigFormat.endings.map fun e => Path.join dir (fileStem ++ utf8 e.1)).find? t.isFile

/-- The configuration file in the working folder or the home folder. -/
def find? (t : FileTree) (environment : Table Text) : Option Text :=
  let home := (environment.get? (utf8 "HOME")).getD []
  let folders := t.workingPath :: (if home.isEmpty then [] else [t.absolute home])
  folders.findSome? (fileIn? t)

/-- The configuration with the named file, or with the one that is found, and the path of the
file. -/
def load (t : FileTree) (environment : Table Text) (named : Text) :
    Except ConfigFailure (Configuration × Option Text) :=
  if !named.isEmpty then do
    let file ← (readFile t named).mapError (.unreadable (some named))
    return ({ environment, file }, some named)
  else
    match find? t environment with
    | none => .ok ({ environment }, none)
    | some path => do
      let file ← (readFile t path).mapError (.unreadable none)
      return ({ environment, file }, some path)

/-- The configuration that a TOML text holds, whatever the environment says. -/
def ofToml (t : Text) : Except Toml.Fault Configuration := do
  return { file := ← Toml.read t }

/-- The default configuration file. -/
def defaultFile : Text :=
  utf8 "[fusion]
# \"fix-up\" normalizes newlines inside lists, s-expressions and structs.
# \"no-change\" leaves every newline where it was written.
newline_mode = \"fix-up\"

# Re-indent the contents of multi-line ''' strings.
format_multiline_string_contents = true

# S-expressions headed by these symbols indent their arguments by two spaces.
fixed_indent_symbols = [
  \"define\",
  \"define_syntax\",
  \"defpub\",
  \"defpub_j\",
  \"defpub_syntax\",
  \"lambda\",
  \"let\",
  \"lets\",
  \"letrec\",
  \"module\",
  \"when\",
  \"unless\",
  \"|\",
]

# S-expressions headed by these symbols switch to a two space indent once
# they grow large.
smart_indent_symbols = [\"if\", \"cond\", \"begin\", \"and\", \"or\"]

# Additional directories searched for module files.
module_paths = []

[[fusion.paths]]
path = \"fusion/src\"
mode = \"modules\"

[[fusion.paths]]
path = \"ftst\"
mode = \"tests\"
top_level_modules = [\"/fusion\"]
global_bindings = []
"

/-- The path of the default configuration file in a folder. -/
def defaultPath (dir : Text) : Text := Path.join dir fileName

/-- Writes the default configuration file into a folder; one that is there stays. -/
def writeDefault (t : FileTree) (dir : Text) : Except Failure FileTree :=
  let path := defaultPath dir
  match t.find path with
  | .ok _ => .error (.configExists path)
  | .error .missing =>
    match t.find (Path.directory path) with
    | .ok (names, .folder) => .ok (t.put (names ++ [fileName]) (.file defaultFile))
    | .ok (_, .file _) => .error (.file ⟨"open", path, .notFolder⟩)
    | .error f => .error (.file ⟨"open", path, f⟩)
  | .error f => .error (.file ⟨"open", path, f⟩)

end Configuration

end FusionKit
