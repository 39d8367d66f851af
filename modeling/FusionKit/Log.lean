import FusionKit.Text.Blank
import FusionKit.Text.Case
import FusionKit.Text.Quoted
import FusionKit.Text.Width

/-!
# Log lines

A log entry is a level, a message and fields. It is one line, except that a value of several
lines stands below the others with a bar at its left. Values that could be misread are quoted.

A line has parts with names of their own: the time, the level, a prefix, the caller and the
message. A field with such a name is that part: it is shown without its key, unless only
something other than a text could be shown there.
-/
namespace FusionKit

/-- How urgent a log entry is. -/
inductive Level where
  | debug
  | info
  | warn
  | error
  deriving DecidableEq, Repr

namespace Level

/-- The place of a level in the order of urgency. -/
def rank : Level → Nat
  | debug => 0
  | info => 1
  | warn => 2
  | error => 3

/-- The name of a level. -/
def name : Level → String
  | debug => "debug"
  | info => "info"
  | warn => "warn"
  | error => "error"

/-- The mark of a level at the start of a line. -/
def mark : Level → String
  | debug => "DEBU"
  | info => "INFO"
  | warn => "WARN"
  | error => "ERRO"

/-- The level with a name, in capitals or not; `info` when there is none. -/
def ofName (t : Text) : Level :=
  let t := t.lowered
  if t == utf8 "debug" then debug
  else if t == utf8 "warn" || t == utf8 "warning" then warn
  else if t == utf8 "error" then error
  else info

end Level

/-- One entry of a log. -/
structure LogEntry where
  level : Level
  message : Text
  fields : List (Text × Text) := []
  deriving DecidableEq, Repr

namespace LogEntry

/-- Tabs as they are shown. -/
def untabbed (t : Text) : Text := t.flatMap fun b => if b == byte '\t' then utf8 "    " else [b]

/-- Carriage returns before line feeds are left out. -/
def unreturned : Text → Text
  | [] => []
  | [b] => [b]
  | a :: b :: t =>
    if a == byte '\r' && b == byte '\n' then unreturned (b :: t) else a :: unreturned (b :: t)

/-- The number of cells that a line takes. -/
def cellsOf (t : Text) : Nat := (t.chars.map cells).foldl (· + ·) 0

/-- A name as it is shown: its lines fill a box. -/
def boxed (t : Text) : Text :=
  let lines := Text.piecesAt (byte '\n') (unreturned (untabbed t))
  let width := (lines.map cellsOf).foldl max 0
  Text.joinWith (utf8 "\n")
    (lines.map fun line => line ++ List.replicate (width - cellsOf line) (byte ' '))

/-- Whether a value with this glyph is quoted. -/
def isUnsafe : Glyph → Bool
  | .stray _ => true
  | .char c => c == '"' || c == '=' || c == '\ufffd' || isBlank c || !isPrintable c

/-- A character of a value: those that do not print are written as escapes, and so is the double
quote where `quotes` says so. -/
def valueChar (quotes : Bool) (c : Char) : Text :=
  if quotes && c == '"' then utf8 "\\\""
  else if isPrintable c then Text.ofChars [c]
  else
    match Quoted.letter? c with
    | some l => [byte '\\', byte l]
    | none =>
      if c.toNat < 0x20 then utf8 "\\x" ++ Quoted.hex 2 c.toNat
      else if c.toNat < 0x10000 then utf8 "\\u" ++ Quoted.hex 4 c.toNat
      else utf8 "\\U" ++ Quoted.hex 8 c.toNat

/-- A value with its escapes. A value that needs none is kept byte by byte. -/
def escaped (quotes : Bool) (t : Text) : Text :=
  if t.chars.all fun c => isPrintable c && c != '"' then t
  else t.chars.flatMap (valueChar quotes)

/-- The lines of a value below its key; the last one is ended only when more fields follow. -/
def barred (more : Bool) : List Text → Text
  | [] => []
  | [line] =>
    if line.isEmpty then []
    else utf8 "  │ " ++ escaped false line ++ (if more then utf8 "\n" else [])
  | line :: next :: lines =>
    utf8 "  │ " ++ escaped false line ++ utf8 "\n" ++ barred more (next :: lines)

/-- A field with a key; `more` says whether other fields follow. -/
def keyed (more : Bool) (key value : Text) : Text :=
  if value.isEmpty then utf8 " " ++ boxed key ++ utf8 "=\"\""
  else if value.contains (byte '\n') then
    utf8 "\n  " ++ boxed key ++ utf8 "=\n" ++ barred more (Text.piecesAt (byte '\n') value)
  else if value.glyphs.any isUnsafe then
    utf8 " " ++ boxed key ++ utf8 "=\"" ++ escaped true value ++ utf8 "\""
  else utf8 " " ++ boxed key ++ utf8 "=" ++ value

/-- One field; `more` says whether other fields follow. A field without a key is left out, and so
are a time and a level that are texts. -/
def field (more : Bool) (key value : Text) : Text :=
  if key.isEmpty || key == utf8 "time" || key == utf8 "level" then []
  else if key == utf8 "msg" then utf8 " " ++ untabbed value
  else if key == utf8 "caller" then utf8 " " ++ boxed (utf8 "<" ++ value ++ utf8 ">")
  else if key == utf8 "prefix" then utf8 " " ++ boxed (value ++ utf8 ":")
  else keyed more key value

/-- The fields of an entry, one after the other. -/
def fieldsText : List (Text × Text) → Text
  | [] => []
  | (key, value) :: rest => field (!rest.isEmpty) key value ++ fieldsText rest

/-- An entry as it is written. An empty message is left out. -/
def render (e : LogEntry) : Text :=
  utf8 e.level.mark ++ (if e.message.isEmpty then [] else utf8 " " ++ untabbed e.message) ++
    fieldsText e.fields ++ utf8 "\n"

/-- The fields made of alternating keys and values. A last key without a value says so, unless it
names a part that only a text can fill. -/
def pairs : List Text → List (Text × Text)
  | [] => []
  | [key] =>
    let key := if key == utf8 "caller" || key == utf8 "prefix" then [] else key
    [(key, utf8 "missing value")]
  | key :: value :: rest => (key, value) :: pairs rest

end LogEntry

/-- A list as the value of a field. -/
def Text.bracketed (ts : List Text) : Text := utf8 "[" ++ Text.joinWith (utf8 " ") ts ++ utf8 "]"

/-- What of a log is written when levels below `least` are left out. -/
def LogEntry.renderAll (least : Level) (entries : List LogEntry) : Text :=
  (entries.filter fun e => least.rank ≤ e.level.rank).flatMap render

end FusionKit
