import FusionKit.Editor.Request

/-!
# What an editor is sent

Answers, announcements and refusals as JSON, with their members in a fixed order.
-/
namespace FusionKit

/-- A place as JSON. -/
def Position.toJson (p : Position) : Json :=
  .ofMembers [("line", .ofInt p.line.toNat), ("character", .ofInt p.character.toNat)]

/-- An extent as JSON. -/
def Extent.toJson (e : Extent) : Json :=
  .ofMembers [("start", e.start.toJson), ("end", e.stop.toJson)]

/-- Something wrong in a document as JSON. All of it is an error. -/
def Diagnostic.toJson (d : Diagnostic) : Json :=
  .ofMembers
    [("range", d.extent.toJson), ("severity", .ofInt 1), ("source", .ofString "fuusak"),
      ("message", .string d.message)]

namespace Announcement

/-- The method of announcements. -/
def method : String := "textDocument/publishDiagnostics"

/-- What an announcement says, as JSON. -/
def params (a : Announcement) : Json :=
  .ofMembers [("uri", .string a.uri), ("diagnostics", .array (a.diagnostics.map Diagnostic.toJson))]

end Announcement

/-- An edit as JSON. -/
def TextEdit.toJson (e : TextEdit) : Json :=
  .ofMembers [("range", e.extent.toJson), ("newText", .string e.newText)]

/-- What the server can do, and its name. Documents are sent as a whole when they change. -/
def capabilitiesJson : Json :=
  .ofMembers
    [("capabilities",
      .ofMembers
        [("textDocumentSync", .ofMembers [("openClose", .boolean true), ("change", .ofInt 1)]),
          ("documentFormattingProvider", .boolean true)]),
      ("serverInfo",
        .ofMembers [("name", .ofString "fuusak-lsp"), ("version", .ofString "0.1.0")])]

/-- An answer as JSON. -/
def Answer.toJson : Answer → Json
  | nothing => .null
  | capabilities => capabilitiesJson
  | edits es => .array (es.map TextEdit.toJson)

/-- The number of a kind of refusal. -/
def Refusal.code : Refusal → Int
  | uninitialized => -32600
  | unknownMethod _ => -32601
  | badParams _ => -32602

end FusionKit
