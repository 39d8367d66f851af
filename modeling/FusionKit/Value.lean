import FusionKit.Decimal
import FusionKit.Json
import FusionKit.Text.Blank
import FusionKit.Text.Case

/-!
# Configured values

What a configuration file holds, whatever its format: values without a fixed type, which the
settings then read as texts, truth values or lists. The names in a table count whatever their
case.
-/
namespace FusionKit

/-- A value of a configuration file. -/
inductive Value where
  | null
  | boolean (b : Bool)
  /-- An integer, with the word for its type in the format that it comes from. -/
  | integer (n : Int) (type : String)
  | real (d : Decimal)
  /-- An infinity, or what is no number. -/
  | unreal (spelling : String)
  /-- A date or a time, with the word for its type in the format that it comes from. -/
  | moment (type : String) (shown : Text)
  | text (t : Text)
  | list (items : List Value)
  | table (entries : List (Text × Value))
  deriving Repr, Inhabited

namespace Value

/-- The entry of a table with a name, which is in lower case. -/
def entry? (name : Text) : Value → Option Value
  | table entries =>
    match (entries.reverse.find? fun e => e.1.lowered == name).map (·.2) with
    | some null => none
    | found => found
  | _ => none

/-- The value at the end of a path through tables. A name may itself join parts of the path with
dots, and the longest such name is tried first. -/
def at? : Nat → List Text → Value → Option Value
  | 0, _, _ => none
  | fuel + 1, path, v =>
    (List.range path.length).reverse.findSome? fun i =>
      match v.entry? (Text.joinWith (utf8 ".") (path.take (i + 1))) with
      | none => none
      | some found => if i + 1 = path.length then some found else at? fuel (path.drop (i + 1)) found

/-- The value at the end of a path through tables. -/
def atPath? (path : List Text) (v : Value) : Option Value := at? (path.length + 1) path v

/-- Whether a path is cut short by a value that is no table. -/
def isCut : List Text → Value → Bool
  | [], _ => false
  | [_], _ => false
  | name :: path, v =>
    match v.entry? name with
    | none => false
    | some (table entries) => isCut path (table entries)
    | some _ => true

/-- A value as a text, when it is one by nature or a number, a truth value or a date. -/
def text? : Value → Option Text
  | text t => some t
  | boolean b => some (utf8 (if b then "true" else "false"))
  | integer n _ => some (Text.ofInt n)
  | real d => d.shortest?
  | unreal spelling => some (utf8 spelling)
  | moment _ shown => some shown
  | null => some []
  | list _ => none
  | table _ => none

/-- The texts that count as true. -/
def trueTexts : List String := ["1", "t", "T", "TRUE", "true", "True"]

/-- A value as a truth value: numbers are true unless they are zero, and a few texts are. -/
def isTrue : Value → Bool
  | boolean b => b
  | integer n _ => n != 0
  | real d => !d.isNothing
  | unreal _ => true
  | text t => trueTexts.any fun s => utf8 s == t
  | _ => false

/-- A value as a list of texts. A text stands for its words. -/
def texts : Value → List Text
  | list items => items.map fun v => v.text?.getD []
  | text t => t.words
  | null => []
  | v => v.text?.toList

mutual

/-- A JSON value. -/
def ofJson : Json → Value
  | .null => .null
  | .boolean b => .boolean b
  | .number written => ((Decimal.ofText? written).map .real).getD .null
  | .string t => .text t
  | .array items => .list (ofItems items)
  | .object members => .table (ofMembers members)

/-- JSON values. -/
def ofItems : List Json → List Value
  | [] => []
  | item :: items => ofJson item :: ofItems items

/-- Members of a JSON object. -/
def ofMembers : List (Text × Json) → List (Text × Value)
  | [] => []
  | (name, value) :: members => (name, ofJson value) :: ofMembers members

end

end Value

end FusionKit
