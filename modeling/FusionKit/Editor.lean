import FusionKit.Failure
import FusionKit.Log
import FusionKit.Table

/-!
# Editing sessions

What a session with an editor consists of: the documents that are open in it, what the editor
asks, and what it is told. Whenever a document is opened or changed its syntax error, if it has
one, is announced; a document is formatted on request.

A session has to be initialised before anything else, and is over for all but that once it was
shut down.
-/
namespace FusionKit

/-- A place in a document. Lines and characters count from zero, in words of 32 bits. -/
structure Position where
  line : UInt32
  character : UInt32
  deriving DecidableEq, Repr

/-- A part of a document. -/
structure Extent where
  start : Position
  stop : Position
  deriving DecidableEq, Repr

namespace Extent

/-- A number as a word of 32 bits; a negative one counts as zero. -/
def word (n : Int) : UInt32 := UInt32.ofNat n.toNat

/-- The start of a document. -/
def origin : Extent := ⟨⟨0, 0⟩, ⟨0, 0⟩⟩

/-- The extent of a width that starts at a location, which counts from one. -/
def ofLocation (l : Location) (width : Int) : Extent :=
  let line := word (l.line - 1)
  let character := word (l.col - 1)
  ⟨⟨line, character⟩, ⟨line, character + word width⟩⟩

/-- The extent of a failure: one character at its place, or the start of the document. -/
def ofFailure (f : Failure) : Extent :=
  match f.place? with
  | some (l, _) => if 0 < l.line then ofLocation l 1 else origin
  | none => origin

end Extent

/-- What a failure says apart from its place. -/
def Failure.complaint (f : Failure) : Text :=
  match f.place? with
  | some (_, text) => text
  | none => f.message

/-- The path that a document has in messages: what follows `file://`, or all of its name. -/
def pathOfUri (uri : Text) : Text := Text.trimStart (utf8 "file://") uri

/-- An open document. -/
structure OpenDocument where
  uri : Text
  version : Int
  content : Text
  deriving DecidableEq, Repr

namespace OpenDocument

/-- What is wrong with a document. -/
def failure? (d : OpenDocument) : Option Failure :=
  match parse (pathOfUri d.uri) d.content with
  | .error e => some (.ofSyntax e)
  | .ok nodes =>
    match Node.layoutAll nodes with
    | .error f => some (.misplaced f)
    | .ok _ => none

end OpenDocument

/-- A document with what was wrong with its contents when they were last read. -/
structure ReadDocument extends OpenDocument where
  failure? : Option Failure
  deriving DecidableEq, Repr

instance : Coe ReadDocument OpenDocument := ⟨ReadDocument.toOpenDocument⟩

/-- Reads the contents of a document. -/
def OpenDocument.read (d : OpenDocument) : ReadDocument := ⟨d, d.failure?⟩

/-- Something wrong in a document. -/
structure Diagnostic where
  extent : Extent
  message : Text
  deriving DecidableEq, Repr

/-- All that is wrong in a document, as it is announced. -/
structure Announcement where
  uri : Text
  diagnostics : List Diagnostic := []
  deriving DecidableEq, Repr

/-- A part of a document and the text that takes its place. -/
structure TextEdit where
  extent : Extent
  newText : Text
  deriving DecidableEq, Repr

/-- What an editor asks or tells. -/
inductive Request where
  | start (rootUri rootPath : Option Text)
  | shutdown
  | exit
  | setTrace
  | opened (document : OpenDocument)
  /-- A document changed; each text is all of its contents. -/
  | changed (uri : Text) (version : Int) (texts : List Text)
  | closed (uri : Text)
  | formatting (uri : Text)
  deriving DecidableEq, Repr

/-- What a request is answered with. -/
inductive Answer where
  | nothing
  | capabilities
  | edits (edits : List TextEdit)
  deriving DecidableEq, Repr

/-- What a request leads to. -/
structure Reply where
  answer : Answer := .nothing
  announcements : List Announcement := []
  /-- Announcements that go out over the connection of an earlier request. -/
  belated : List Announcement := []
  log : List LogEntry := []
  deriving DecidableEq, Repr

/-- A session with an editor. -/
structure Editor where
  settings : Settings := .default
  documents : Table ReadDocument := []
  isInitialized : Bool := false
  /-- Whether there is a connection over which announcements can go out. -/
  isConnected : Bool := false
  rootPath : Text := []
  /-- How many times the editor asked for the end. -/
  exits : Nat := 0

namespace Editor

/-- What is announced of a document. -/
def announce (d : ReadDocument) : Reply :=
  match d.failure? with
  | none => { announcements := [{ uri := d.uri }] }
  | some f =>
    { announcements := [⟨d.uri, [⟨.ofFailure f, f.complaint⟩]⟩]
      log :=
        [⟨.debug, utf8 "syntax error",
          [(utf8 "path", pathOfUri d.uri), (utf8 "error", f.message)]⟩] }

/-- The edits that format a document: none when there is nothing to do or it cannot be done, else
one that takes the place of all lines. -/
def editsFor (s : Settings) (d : OpenDocument) : Answer :=
  if d.content.isEmpty then .nothing
  else
    match format s (pathOfUri d.uri) d.content with
    | .error _ => .nothing
    | .ok formatted =>
      if formatted == d.content then .nothing
      else
        let lines := d.content.countP (· == byte '\n')
        .edits [⟨⟨⟨0, 0⟩, ⟨Extent.word lines, 0⟩⟩, formatted⟩]

/-- Keeps a document open under a name. -/
def put (e : Editor) (uri : Text) (d : ReadDocument) : Editor :=
  { e with documents := e.documents.put uri d, isConnected := true }

/-- The document with a name after a change of its contents, also when it is not open yet. -/
def changed (e : Editor) (uri : Text) (version : Int) (content : Text) : ReadDocument :=
  let d : OpenDocument := ((e.documents.get? uri).map (·.toOpenDocument)).getD ⟨uri, 0, []⟩
  { d with version, content }.read

/-- What a request leads to. -/
def act (e : Editor) : Request → Reply × Editor
  | .start rootUri rootPath =>
    let root := ((rootUri.map pathOfUri).or rootPath).getD e.rootPath
    ({ answer := .capabilities
       log := [⟨.debug, utf8 "initialize", [(utf8 "working_dir", root)]⟩] },
      { e with rootPath := root, isInitialized := true, isConnected := true })
  | .shutdown => ({}, { e with isInitialized := false })
  | .exit => ({}, { e with exits := e.exits + 1 })
  | .setTrace => ({}, e)
  | .opened d => (announce d.read, e.put d.uri d.read)
  | .changed uri version texts =>
    let d := e.changed uri version (texts.getLastD [])
    (announce d, e.put uri d)
  | .closed uri =>
    ({ belated := if e.isConnected then [{ uri }] else [] },
      { e with documents := e.documents.filter (·.1 != uri) })
  | .formatting uri =>
    match e.documents.get? uri with
    | none => ({}, e)
    | some d => ({ answer := editsFor e.settings d }, e)

end Editor

end FusionKit
