import FusionKit.Calendar
import FusionKit.Decimal

/-!
# Plain scalars

What a scalar means that is written without quotes: nothing, a truth value, a number, a date or
else a text. A text that would be taken for one of the others has to be quoted, and so has one
that only older readers would take for something else.
-/
namespace FusionKit.Yaml

/-- The meaning of a scalar. -/
inductive Scalar where
  | null
  | boolean (b : Bool)
  | integer (n : Int)
  | real (d : Decimal)
  /-- An infinity or what is no number, by its spelling. -/
  | unreal (spelling : String)
  | timestamp (m : Moment)
  | string (t : Text)
  deriving DecidableEq, Repr

namespace Scalar

/-- The words with a meaning. -/
def words : List (List String × Scalar) :=
  [(["true", "True", "TRUE"], boolean true), (["false", "False", "FALSE"], boolean false),
    (["", "~", "null", "Null", "NULL"], null), ([".nan", ".NaN", ".NAN"], unreal "NaN"),
    ([".inf", ".Inf", ".INF", "+.inf", "+.Inf", "+.INF"], unreal "+Inf"),
    (["-.inf", "-.Inf", "-.INF"], unreal "-Inf")]

/-- The meaning of a word. -/
def word? (t : Text) : Option Scalar :=
  (words.find? fun w => w.1.any fun s => utf8 s == t).map (·.2)

/-- The digits of a number written in a base that its first two bytes name, or in base eight
after a zero, or in base ten. -/
def based? : Text → Option Nat
  | [] => none
  | b :: t =>
    if b != byte '0' then Decimal.nat? 10 (b :: t)
    else
      match t with
      | [] => some 0
      | c :: digits =>
        if c == byte 'x' || c == byte 'X' then Decimal.nat? 16 digits
        else if c == byte 'b' || c == byte 'B' then Decimal.nat? 2 digits
        else if c == byte 'o' || c == byte 'O' then Decimal.nat? 8 digits
        else Decimal.nat? 8 t

/-- An integer that fits into a word of 64 bits, signed or, when there is no sign, unsigned. -/
def integer? (t : Text) : Option Int :=
  let (negative, digits) := Decimal.signed t
  match based? digits with
  | none => none
  | some n =>
    let value : Int := if negative then -(n : Int) else n
    if Word.isInt64 value || (digits.length == t.length && Word.isUInt64 value) then some value
    else none

/-- A number that a binary number can approximate. -/
def real? (t : Text) : Option Decimal := do
  let d ← Decimal.ofText? t
  let _ ← d.toBinary?
  return d

/-- Whether every underscore stands between two digits. -/
def separatesDigits : Text → Bool
  | [] => true
  | [b] => b != byte '_'
  | a :: b :: t =>
    if a == byte '_' then false
    else if b == byte '_' then
      Text.isDigit a &&
        match t with
        | c :: _ => Text.isDigit c && separatesDigits t
        | [] => false
    else separatesDigits (b :: t)

/-- A number that starts with a point. Underscores may separate its digits. -/
def pointed? (t : Text) : Option Decimal :=
  if separatesDigits t then real? (t.filter (· != byte '_')) else none

/-- A number of one or two digits from `low` to `high`, and what follows. -/
def short? (low high : Nat) (t : Text) : Option (Nat × Text) :=
  let digits := (t.take 2).takeWhile Text.isDigit
  let n := Decimal.natOf 10 digits
  if !digits.isEmpty && low ≤ n && n ≤ high then some (n, t.drop digits.length) else none

/-- What follows a byte. -/
def after? (c : Char) : Text → Option Text
  | b :: t => if b == byte c then some t else none
  | [] => none

/-- A day, and what follows it. -/
def day? (t : Text) : Option (Day × Text) := do
  let digits := t.takeWhile Text.isDigit
  guard (digits.length = 4)
  let (month, t) ← short? 1 12 (← after? '-' (t.drop 4))
  let (day, t) ← short? 1 31 (← after? '-' t)
  let d : Day := ⟨Decimal.natOf 10 digits, month, day⟩
  guard d.isValid
  return (d, t)

/-- The moment at a time of day, and what follows it. -/
def time? (d : Day) (t : Text) : Option (Moment × Text) := do
  let (hour, t) ← short? 0 23 t
  let (minute, t) ← short? 0 59 (← after? ':' t)
  let (second, t) ← short? 0 59 (← after? ':' t)
  let m : Moment := { day := d, hour, minute, second }
  match t with
  | p :: more =>
    let fraction := more.takeWhile Text.isDigit
    if (p == byte '.' || p == byte ',') && !fraction.isEmpty then
      return ({ m with fraction }, more.drop fraction.length)
    else return (m, t)
  | [] => return (m, [])

/-- The minutes by which a clock is ahead. -/
def zone? (t : Text) : Option Int :=
  match t with
  | [z] => if z == byte 'Z' then some 0 else none
  | [s, h₁, h₂, c, m₁, m₂] =>
    let hours := Decimal.natOf 10 [h₁, h₂]
    let minutes := Decimal.natOf 10 [m₁, m₂]
    if (s == byte '+' || s == byte '-') && c == byte ':' && [h₁, h₂, m₁, m₂].all Text.isDigit &&
        hours ≤ 24 && minutes ≤ 60 then
      let ahead : Int := hours * 60 + minutes
      some (if s == byte '-' then -ahead else ahead)
    else none
  | _ => none

/-- A date, alone or with a time of day. -/
def moment? (t : Text) : Option Moment := do
  let (d, t) ← day? t
  match t with
  | [] => return { day := d }
  | b :: time =>
    if b == byte 'T' || b == byte 't' then
      let (m, t) ← time? d time
      return { m with ahead := ← zone? t }
    else if b == byte ' ' then
      let (m, t) ← time? d (time.dropWhile (· == byte ' '))
      guard t.isEmpty
      return m
    else none

/-- An integer whose sign stands behind the letter that names its base. -/
def lateSigned? (t : Text) : Option Int :=
  match t with
  | z :: letter :: digits =>
    let base := if letter == byte 'b' then 2 else if letter == byte 'o' then 8 else 0
    if z == byte '0' && base != 0 then (Decimal.int? base digits).filter Word.isInt64 else none
  | _ => none

/-- The meaning of a scalar that starts with a digit or a sign; `dated` tells that it may be a
date. -/
def numeric (dated : Bool) (t : Text) : Scalar :=
  let digits := t.filter (· != byte '_')
  match (if dated then moment? t else none), integer? digits, real? digits, lateSigned? digits with
  | some m, _, _, _ => timestamp m
  | none, some n, _, _ => integer n
  | none, none, some d, _ => real d
  | none, none, none, some n => integer n
  | none, none, none, none => string t

/-- The meaning of a scalar without quotes; `dated` tells that it may be a date. -/
def ofText (dated : Bool) (t : Text) : Scalar :=
  match word? t with
  | some s => s
  | none =>
    match t with
    | b :: _ =>
      if Text.isDigit b || b == byte '+' || b == byte '-' then numeric dated t
      else if b == byte '.' then (pointed? t).elim (string t) real
      else string t
    | [] => null

/-- The meaning of a plain scalar. -/
def ofPlain (t : Text) : Scalar := ofText true t

/-- The tag of what a scalar means. -/
def tag : Scalar → Text
  | null => utf8 "!!null"
  | boolean _ => utf8 "!!bool"
  | integer _ => utf8 "!!int"
  | real _ => utf8 "!!float"
  | unreal _ => utf8 "!!float"
  | timestamp _ => utf8 "!!timestamp"
  | string _ => utf8 "!!str"

/-- The words that older readers take for truth values. -/
def oldBooleans : List String :=
  ["y", "Y", "yes", "Yes", "YES", "on", "On", "ON", "n", "N", "no", "No", "NO", "off", "Off",
    "OFF"]

/-- Whether a text is a number in base sixty: digits, groups after colons, and a fraction. -/
def isSexagesimal (t : Text) : Bool :=
  let isTail (b : UInt8) := Text.isDigit b || b == byte '_'
  let (_, t) := Decimal.signed t
  let group (g : Text) : Bool :=
    match g with
    | [a] => Text.isDigit a
    | [a, b] => byte '0' ≤ a && a ≤ byte '5' && Text.isDigit b
    | _ => false
  let body := t.takeWhile (· != byte '.')
  let fraction := (t.dropWhile (· != byte '.')).drop 1
  match Text.piecesAt (byte ':') body with
  | first :: groups =>
    (first.head?.any Text.isDigit) && first.all isTail && !groups.isEmpty && groups.all group &&
      fraction.all isTail
  | [] => false

/-- Whether a text stands for itself when it is written plain. -/
def isPlainText (t : Text) : Bool :=
  ofPlain t == string t && !isSexagesimal t && !oldBooleans.any fun s => utf8 s == t

end Scalar

end FusionKit.Yaml
