import FusionKit.Index.Load
import FusionKit.Yaml.Write

/-!
# Index dumps

The index as a document: where the package is, its modules with what they import and provide, and
its scripts. Places are written as locations, and what is empty is left out.
-/
namespace FusionKit

open Yaml (Document)

/-- A list of texts as a document. -/
def Yaml.texts (ts : List Text) : Document := .list (ts.map .text)

/-- An entry, unless it is empty. -/
def Yaml.optionalEntry (key : String) (value : Document) : List (Text × Document) :=
  match value with
  | .text [] | .list [] | .mapping [] => []
  | _ => [(utf8 key, value)]

namespace Index

open Yaml (texts optionalEntry naturallySorted)

/-- The document of an import. -/
def requirementDocument (idx : Index) (r : Requirement) : Document :=
  let names :=
    match r.imports with
    | .names origins => origins.map (·.name)
    | _ => []
  let mapped : List (Text × Document) :=
    match r.imports with
    | .mapped origins => origins.map fun (inner, o) => (inner, .text o.name)
    | _ => []
  .mapping
    ([(utf8 "module", .text ((idx.modules[r.target]?.map (·.name)).getD [])),
      (utf8 "type", .text (utf8 r.imports.word))] ++
      optionalEntry "names" (texts names) ++
      optionalEntry "mapped" (.mapping (naturallySorted mapped)))

/-- The document of a module. -/
def moduleDocument (idx : Index) (m : Module) : Document :=
  let provides : List (Text × Document) :=
    m.provides.map fun (name, span) => (name, .text (m.file.locate span.start).render)
  .mapping
    ([(utf8 "name", .text m.name), (utf8 "language", .text m.language)] ++
      optionalEntry "file" (.text m.file.name) ++
      optionalEntry "requires" (.list (m.requires.map idx.requirementDocument)) ++
      optionalEntry "provides" (.mapping (naturallySorted provides)))

/-- The document of a script. -/
def scriptDocument (s : Script) : Document :=
  .mapping
    ([(utf8 "name", .text s.name)] ++
      optionalEntry "top_level_modules" (texts s.topLevelModules) ++
      optionalEntry "global_bindings" (texts s.globalBindings) ++
      [(utf8 "files", texts (s.files.map (·.name)))])

/-- The index of a package as a text. -/
def dump (idx : Index) (r : Repository) : Text :=
  Document.render (.mapping
    ([(utf8 "package_path", .text r.packagePath), (utf8 "module_paths", texts r.modulePaths),
      (utf8 "modules", .list (idx.modulesByName.map idx.moduleDocument))] ++
      optionalEntry "scripts" (.list (idx.scriptsByName.map scriptDocument))))

end Index

end FusionKit
