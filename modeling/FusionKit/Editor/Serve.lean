import FusionKit.Editor.Wire
import FusionKit.Json.Read

/-!
# Serving an editor

Messages come one after the other, each after a header that gives its length. A request with an
identity is answered; what is announced goes out before the answer. The session ends with the
input, at a message that makes no sense, or when the editor says so.
-/
namespace FusionKit

namespace Json

/-- The member of an object with exactly a name. -/
def exactMember? (name : String) : Json → Option Json
  | object members => (members.reverse.find? fun m => m.1 == utf8 name).map (·.2)
  | _ => none

mutual

/-- A value with the members of its objects in order of their names. -/
def ordered : Json → Json
  | .array items => .array (orderedItems items)
  | .object members =>
    .object (((orderedMembers members).mergeSort fun a b => Text.le a.1 b.1))
  | j => j

/-- Items with the members of their objects in order. -/
def orderedItems : List Json → List Json
  | [] => []
  | j :: js => j.ordered :: orderedItems js

/-- Members with the members of their values in order. -/
def orderedMembers : List (Text × Json) → List (Text × Json)
  | [] => []
  | (name, j) :: members => (name, j.ordered) :: orderedMembers members

end

end Json

namespace Wire

/-- A message with its header. -/
def frame (j : Json) : Text :=
  let body := j.render
  utf8 "Content-Length: " ++ Text.ofNat body.length ++ utf8 "\r\n\r\n" ++ body

/-- The length that a line of a header gives. -/
def lengthOf? (line : Text) : Option Nat := do
  let n ← Decimal.nat? 10 line.strip
  guard (Word.isUInt32 n)
  return n

/-- The length that a header gives, and what follows the header. -/
def header? : Nat → Nat → Text → Option (Nat × Text)
  | 0, _, _ => none
  | fuel + 1, length, t => do
    let line := t.takeWhile (· != byte '\r')
    let rest ← Text.cutStart? (utf8 "\r\n") (t.drop line.length)
    if line.isEmpty then return (length, rest)
    else
      match Text.cutStart? (utf8 "Content-Length: ") line with
      | none => header? fuel length rest
      | some written => header? fuel (← lengthOf? written) rest

/-- The first message of a text, and what follows it. -/
def message? (t : Text) : Option (Json × Text) := do
  let (length, rest) ← header? (t.length + 1) 0 t
  guard (length != 0)
  let (j, _) ← (Json.readFirst (rest.take length)).toOption
  return (j, rest.drop length)

/-- The identity of a request as it is given back; none when it is no identity. A number counts as
a word of 64 bits. -/
def identity? : Json → Option Json
  | .number written => do
    let n ← Decimal.int? 10 written
    guard (Word.isInt64 n)
    return .ofInt (n % UInt64.size)
  | .string t => some (.string t)
  | _ => none

/-- A request: its method, its parameters, and its identity if it has one. -/
structure Call where
  method : Text
  params : Option Json
  identity : Option Json

/-- What a message is. -/
inductive Incoming where
  | call (c : Call)
  /-- The answer to a question that was never asked. -/
  | answer

/-- Reads a message. -/
def incoming? (j : Json) : Option Incoming := do
  let isAnswer := (j.exactMember? "result").isSome ||
    match j.exactMember? "error" with
    | none | some .null => false
    | some _ => true
  match j.exactMember? "method" with
  | none | some .null => if isAnswer then some .answer else none
  | some (.string method) =>
    guard !isAnswer
    let identity ←
      match j.exactMember? "id" with
      | none | some .null => pure none
      | some id => (identity? id).map some
    return .call ⟨method, (j.exactMember? "params").map Json.ordered, identity⟩
  | some _ => none

/-- An announcement as a message. -/
def announcement (a : Announcement) : Json :=
  .ofMembers
    [("jsonrpc", .ofString "2.0"), ("method", .ofString Announcement.method), ("params", a.params)]

/-- The answer to a request as a message. -/
def response (identity : Json) : Except Refusal Reply → Json
  | .ok reply =>
    .ofMembers
      [("id", identity), ("result", reply.answer.toJson), ("jsonrpc", .ofString "2.0")]
  | .error r =>
    .ofMembers
      [("id", identity),
        ("error", .ofMembers [("code", .ofInt r.code), ("message", .string r.message)]),
        ("jsonrpc", .ofString "2.0")]

end Wire

namespace Editor

open Wire

/-- What is sent after a request. -/
def sent (c : Call) (outcome : Except Refusal Reply) : Text :=
  let announced :=
    match outcome with
    | .ok reply => reply.announcements ++ reply.belated
    | .error _ => []
  (announced.map announcement ++ (c.identity.map (response · outcome)).toList).flatMap frame

/-- What one message leads to: what is sent, what is logged, and the session after it; none when
the session ends with the message. -/
def serveOne (e : Editor) (j : Json) : Option (Text × List LogEntry × Editor) := do
  match ← incoming? j with
  | .answer => return ([], [], e)
  | .call c =>
    guard (c.method != utf8 "exit")
    let (outcome, e) := e.receive c.method c.params
    let log :=
      match outcome with
      | .ok reply => reply.log
      | .error _ => []
    return (sent c outcome, log, e)

/-- Serves the messages of a text, by their number. -/
def serveMessages : Nat → Editor → Text → Text × List LogEntry
  | 0, _, _ => ([], [])
  | fuel + 1, e, t =>
    match message? t with
    | none => ([], [])
    | some (j, rest) =>
      match e.serveOne j with
      | none => ([], [])
      | some (output, log, e) =>
        let (more, moreLog) := serveMessages fuel e rest
        (output ++ more, log ++ moreLog)

/-- Serves the messages of a text. Gives what is sent and what is logged. -/
def serve (e : Editor) (input : Text) : Text × List LogEntry :=
  serveMessages (input.length + 1) e input

end Editor

end FusionKit
