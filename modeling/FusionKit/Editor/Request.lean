import FusionKit.Editor
import FusionKit.Editor.Shape

/-!
# Requests of an editor

A request is a method and its parameters. The parameters have a shape for each method; those of
methods without parameters are not looked at.
-/
namespace FusionKit

/-- Why a request is not acted on. -/
inductive Refusal where
  | uninitialized
  | unknownMethod (method : Text)
  | badParams (reason : Text)
  deriving DecidableEq, Repr

/-- The message for a refusal. -/
def Refusal.message : Refusal → Text
  | uninitialized => utf8 "server not initialized"
  | unknownMethod method => utf8 "method not supported: " ++ method
  | badParams reason => reason

namespace Request

/-- The shape of texts. -/
def textShape : Shape := .text "string"

/-- The shape of the place of a character. -/
def positionShape : Shape :=
  .record "protocol.Position" "Position" [("line", .natural32), ("character", .natural32)]

/-- The shape of the name of a document. -/
def documentShape : Shape :=
  .record "protocol.TextDocumentIdentifier" "TextDocumentIdentifier" [("uri", textShape)]

/-- The shape of the first request. -/
def startShape : Shape :=
  .record "protocol.InitializeParams" "InitializeParams"
    [("workDoneToken", .integerOrText), ("processId", .integer32),
      ("clientInfo",
        .record
          "struct \x7b Name string \"json:\\\"name\\\"\"; Version *string \"json:\\\"version,omitempty\\\"\" \x7d"
          "" [("name", textShape), ("version", textShape)]),
      ("locale", textShape), ("rootPath", textShape), ("rootUri", textShape),
      ("initializationOptions", .anything),
      ("capabilities", .mapping "protocol.ClientCapabilities"),
      ("trace", .text "protocol.TraceValue"),
      ("workspaceFolders",
        .list "[]protocol.WorkspaceFolder"
          (.record "protocol.WorkspaceFolder" "WorkspaceFolder"
            [("uri", textShape), ("name", textShape)]))]

/-- The shape of the choice of traces. -/
def traceShape : Shape :=
  .record "protocol.SetTraceParams" "SetTraceParams" [("value", .text "protocol.TraceValue")]

/-- The shape of an opened document. -/
def openedShape : Shape :=
  .record "protocol.DidOpenTextDocumentParams" "DidOpenTextDocumentParams"
    [("textDocument",
      .record "protocol.TextDocumentItem" "TextDocumentItem"
        [("uri", textShape), ("languageId", textShape), ("version", .integer32),
          ("text", textShape)])]

/-- The shape of changes, apart from each of them. -/
def changedShape : Shape :=
  .record
    "struct \x7b TextDocument protocol.VersionedTextDocumentIdentifier \"json:\\\"textDocument\\\"\"; ContentChanges []json.RawMessage \"json:\\\"contentChanges\\\"\" \x7d"
    ""
    [("textDocument",
      .record "protocol.VersionedTextDocumentIdentifier" "VersionedTextDocumentIdentifier"
        [("uri", textShape), ("version", .integer32)]),
      ("contentChanges", .list "[]json.RawMessage" .anything)]

/-- The shape of one change. -/
def changeShape : Shape :=
  .record "protocol.TextDocumentContentChangeEvent" "TextDocumentContentChangeEvent"
    [("range",
      .record "protocol.Range" "Range" [("start", positionShape), ("end", positionShape)]),
      ("rangeLength", .natural32), ("text", textShape)]

/-- The shape of a closed document. -/
def closedShape : Shape :=
  .record "protocol.DidCloseTextDocumentParams" "DidCloseTextDocumentParams"
    [("textDocument", documentShape)]

/-- The shape of a request to format. -/
def formattingShape : Shape :=
  .record "protocol.DocumentFormattingParams" "DocumentFormattingParams"
    [("workDoneToken", .integerOrText), ("textDocument", documentShape),
      ("options", .mapping "protocol.FormattingOptions")]

/-- The member of a value; null when there is none. -/
def part (name : String) (j : Json) : Json := (j.member? name).getD .null

/-- A text, when there is one. -/
def text? : Json → Option Text
  | .string t => some t
  | _ => none

/-- A text; empty when there is none. -/
def textOf (j : Json) : Text := (text? j).getD []

/-- An integer; zero when there is none. -/
def integerOf : Json → Int
  | .number written => (Decimal.int? 10 written).getD 0
  | _ => 0

/-- The items of a list; empty when there is none. -/
def itemsOf : Json → List Json
  | .array items => items
  | _ => []

/-- Parameters that fit a shape. -/
def fitting (shape : Shape) : Option Json → Except Refusal Json
  | none => .error (.badParams (utf8 "unexpected end of JSON input"))
  | some j =>
    match shape.misfit? {} j with
    | some reason => .error (.badParams reason)
    | none => .ok j

/-- The texts of changes. -/
def changeTexts (j : Json) : Except Refusal (List Text) :=
  (itemsOf (part "contentChanges" j)).mapM fun change =>
    (fitting changeShape (some change)).map fun change => textOf (part "text" change)

/-- The request with a method and parameters. -/
def ofMessage (method : Text) (params : Option Json) : Except Refusal Request := do
  let document (j : Json) : Json := part "textDocument" j
  let uri (j : Json) : Text := textOf (part "uri" (document j))
  let version (j : Json) : Int := integerOf (part "version" (document j))
  if method == utf8 "initialize" then
    let j ← fitting startShape params
    return .start (text? (part "rootUri" j)) (text? (part "rootPath" j))
  else if method == utf8 "shutdown" then return .shutdown
  else if method == utf8 "exit" then return .exit
  else if method == utf8 "$/setTrace" then
    let _ ← fitting traceShape params
    return .setTrace
  else if method == utf8 "textDocument/didOpen" then
    let j ← fitting openedShape params
    return .opened ⟨uri j, version j, textOf (part "text" (document j))⟩
  else if method == utf8 "textDocument/didChange" then
    let j ← fitting changedShape params
    return .changed (uri j) (version j) (← changeTexts j)
  else if method == utf8 "textDocument/didClose" then
    let j ← fitting closedShape params
    return .closed (uri j)
  else if method == utf8 "textDocument/formatting" then
    let j ← fitting formattingShape params
    return .formatting (uri j)
  else .error (.unknownMethod method)

end Request

namespace Editor

/-- Acts on a message. Before the session is initialised only that is possible. -/
def receive (e : Editor) (method : Text) (params : Option Json) : Except Refusal Reply × Editor :=
  if !e.isInitialized && method != utf8 "initialize" then (.error .uninitialized, e)
  else
    match Request.ofMessage method params with
    | .error r => (.error r, e)
    | .ok request =>
      let (reply, e) := e.act request
      (.ok reply, e)

end Editor

end FusionKit
