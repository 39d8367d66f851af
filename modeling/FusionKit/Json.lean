import FusionKit.Text.Case
import FusionKit.Text.Quoted

/-!
# JSON

Values of the data format in which editors talk to the server, and their text. Members of an
object keep their order; of two members with one name the later counts. A number is kept as it is
written. In the text, the characters that mean something in markup are written as escapes.
-/
namespace FusionKit

/-- A JSON value. -/
inductive Json where
  | null
  | boolean (b : Bool)
  | number (written : Text)
  | string (t : Text)
  | array (items : List Json)
  | object (members : List (Text × Json))
  deriving Repr, Inhabited

namespace Json

/-- An integer as a value. -/
def ofInt (n : Int) : Json := number (Text.ofInt n)

/-- A string literal as a value. -/
def ofString (s : String) : Json := string (utf8 s)

/-- An object from members named by literals. -/
def ofMembers (members : List (String × Json)) : Json :=
  object (members.map fun (name, value) => (utf8 name, value))

/-- The word for the kind of a value. -/
def kind : Json → String
  | null => "null"
  | boolean _ => "bool"
  | number _ => "number"
  | string _ => "string"
  | array _ => "array"
  | object _ => "object"

/-- The character of a string between quotes. -/
def escapedChar (c : Char) : Text :=
  if c == '"' then utf8 "\\\""
  else if c == '\\' then utf8 "\\\\"
  else if c == '\n' then utf8 "\\n"
  else if c == '\r' then utf8 "\\r"
  else if c == '\t' then utf8 "\\t"
  else if c.toNat < 0x20 || c == '<' || c == '>' || c == '&' || c == '\u2028' || c == '\u2029' then
    utf8 "\\u" ++ Quoted.hex 4 c.toNat
  else Text.ofChars [c]

/-- A string between quotes. A stray byte is written as U+FFFD, escaped. -/
def quoted (t : Text) : Text :=
  let glyph : Glyph → Text
    | .char c => escapedChar c
    | .stray _ => utf8 "\\ufffd"
  utf8 "\"" ++ t.glyphs.flatMap glyph ++ utf8 "\""

mutual

/-- The text of a value. -/
def render : Json → Text
  | .null => utf8 "null"
  | .boolean b => utf8 (if b then "true" else "false")
  | .number written => written
  | .string t => quoted t
  | .array items => utf8 "[" ++ renderItems items ++ utf8 "]"
  | .object members => utf8 "\x7b" ++ renderMembers members ++ utf8 "\x7d"

/-- The text of the items of an array. -/
def renderItems : List Json → Text
  | [] => []
  | [item] => render item
  | item :: next :: items => render item ++ utf8 "," ++ renderItems (next :: items)

/-- The text of the members of an object. -/
def renderMembers : List (Text × Json) → Text
  | [] => []
  | [(name, value)] => quoted name ++ utf8 ":" ++ render value
  | (name, value) :: next :: members =>
    quoted name ++ utf8 ":" ++ render value ++ utf8 "," ++ renderMembers (next :: members)

end

/-- The member of an object with a name, in any case. -/
def member? (name : String) : Json → Option Json
  | object members =>
    (members.reverse.find? fun m => m.1.folded == Text.folded (utf8 name)).map (·.2)
  | _ => none

end Json

end FusionKit
