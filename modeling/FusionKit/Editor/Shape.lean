import FusionKit.Decimal
import FusionKit.Json

/-!
# Shapes of JSON values

What the parts of a message have to be. A missing part, or one that is null, fits every shape, and
members without a meaning are passed over. Of several parts that do not fit the first is reported,
with the names that lead to it.
-/
namespace FusionKit

/-- What a value has to be. -/
inductive Shape where
  | anything
  | text (type : String)
  | integer32
  | natural32
  | integerOrText
  /-- An object, whatever its members. -/
  | mapping (type : String)
  | list (type : String) (item : Shape)
  /-- An object with members of known shapes. -/
  | record (type name : String) (members : List (String × Shape))
  deriving Inhabited

namespace Shape

/-- The name of the type of a shape. -/
def type : Shape → String
  | anything => "interface \x7b\x7d"
  | text type => type
  | integer32 => "int32"
  | natural32 => "uint32"
  | integerOrText => "string"
  | mapping type => type
  | list type _ => type
  | record type _ _ => type

/-- The shape of a member, and its proper name. -/
def member? (shape : Shape) (name : Text) : Option (String × Shape) :=
  match shape with
  | record _ _ members =>
    members.find? fun m => Text.folded (utf8 m.1) == name.folded
  | _ => none

/-- Whether digits are an integer in a range. -/
def isIntegerIn (range : Int → Bool) (written : Text) : Bool :=
  match Decimal.int? 10 written with
  | some n => range n
  | none => false

/-- Where a value stands: the record that it is a part of, and the names that lead to it. -/
structure Place where
  record : String := ""
  path : List String := []

/-- The message for a value that does not fit. -/
def misfit (place : Place) (found : Text) (type : String) : Text :=
  let target :=
    if place.record.isEmpty && place.path.isEmpty then utf8 "value"
    else
      utf8 "struct field " ++ utf8 place.record ++ utf8 "." ++
        Text.joinWith (utf8 ".") (place.path.map utf8)
  utf8 "json: cannot unmarshal " ++ found ++ utf8 " into Go " ++ target ++ utf8 " of type " ++
    utf8 type

/-- What a number is refused as by a shape. -/
def refusedNumber? (written : Text) : Shape → Option Text
  | anything => none
  | integer32 =>
    if isIntegerIn Word.isInt32 written then none else some (utf8 "number " ++ written)
  | natural32 =>
    if isIntegerIn Word.isUInt32 written && written.head? != some (byte '-') then none
    else some (utf8 "number " ++ written)
  | integerOrText =>
    if isIntegerIn Word.isInt32 written then none else some (utf8 "number")
  | _ => some (utf8 "number")

mutual

/-- The message for the first part of a value that does not fit a shape. -/
def misfit? (place : Place) (shape : Shape) : Json → Option Text
  | .null => none
  | .boolean _ =>
    match shape with
    | .anything => none
    | _ => some (misfit place (utf8 "bool") shape.type)
  | .number written =>
    (shape.refusedNumber? written).map fun found => misfit place found shape.type
  | .string _ =>
    match shape with
    | .anything | .text _ | .integerOrText => none
    | _ => some (misfit place (utf8 "string") shape.type)
  | .array items =>
    match shape with
    | .anything => none
    | .list _ item => misfitItem? place item items
    | _ => some (misfit place (utf8 "array") shape.type)
  | .object members =>
    match shape with
    | .anything | .mapping _ => none
    | .record _ name _ => misfitMember? ⟨name, place.path⟩ shape members
    | _ => some (misfit place (utf8 "object") shape.type)

/-- The message for the first item that does not fit a shape. -/
def misfitItem? (place : Place) (shape : Shape) : List Json → Option Text
  | [] => none
  | item :: items => (misfit? place shape item).or (misfitItem? place shape items)

/-- The message for the first member that does not fit a record. -/
def misfitMember? (place : Place) (shape : Shape) : List (Text × Json) → Option Text
  | [] => none
  | (name, value) :: members =>
    let here :=
      match shape.member? name with
      | none => none
      | some (proper, inner) => misfit? ⟨place.record, place.path ++ [proper]⟩ inner value
    here.or (misfitMember? place shape members)

end

end Shape

end FusionKit
