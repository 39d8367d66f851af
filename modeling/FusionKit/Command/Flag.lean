import FusionKit.Text.Quoted
import FusionKit.Value
import FusionKit.Yaml.Scalar

/-!
# Flags

Arguments are flags, values of flags, and operands, in any order. A flag is written `--name`; its
value follows after `=` or as the next argument. A switch needs no value and may have a letter;
letters can be written together after one dash. Two dashes alone make all that follows operands.
-/
namespace FusionKit

/-- What the value of a flag has to be. -/
inductive FlagKind where
  | text
  | integer
  | switch
  deriving DecidableEq, Repr

/-- A flag of a command. Only a switch has a letter. -/
structure Flag where
  name : String
  kind : FlagKind := .text
  letter : Option Char := none
  deriving DecidableEq, Repr

/-- Why arguments cannot be understood. -/
inductive FlagFault where
  | badForm (written : Text)
  | unknown (name : Text)
  | unknownLetter (letters : Text)
  | noValue (written : Text)
  | badValue (flag : Flag) (value : Text) (isTooLarge : Bool)
  deriving DecidableEq, Repr

namespace Flag

/-- A flag as messages name it. -/
def shown (f : Flag) : Text :=
  match f.letter with
  | some c => Text.ofChars ['-', c] ++ utf8 ", --" ++ utf8 f.name
  | none => utf8 "--" ++ utf8 f.name

/-- The texts that a switch takes for its two values. -/
def switchTexts : List String :=
  Value.trueTexts ++ ["0", "f", "F", "FALSE", "false", "False"]

/-- Whether underscores stand between digits only; the mark of a base counts as a digit. -/
def separates (afterDigit : Bool) : Text → Bool
  | [] => true
  | [b] => b != byte '_'
  | b :: t => (b != byte '_' || (afterDigit && t.head? != some (byte '_'))) &&
      separates (b != byte '_') t

/-- The number that digits and underscores spell, with the mark of a base. An underscore behind a
leading zero keeps a mark from being one. -/
def natural? (t : Text) : Option Nat :=
  let digits := t.filter (· != byte '_')
  if (utf8 "0_").isPrefixOf t then Decimal.nat? 8 digits else Yaml.Scalar.based? digits

/-- The integer that a text spells, with the mark of its base and underscores between digits. -/
def integer? (t : Text) : Option Int :=
  let (negative, digits) := Decimal.signed t
  if separates false digits then
    (natural? digits).map fun n => if negative then -(n : Int) else n
  else none

/-- Whether a text starts with more digits than a word of 64 bits has room for. What follows them
is not looked at. -/
def startsTooLarge (t : Text) : Bool :=
  let (_, digits) := Decimal.signed t
  (List.range (digits.length + 1)).any fun n =>
    (natural? (digits.take n)).any fun value => !Word.isUInt64 value

/-- Checks the value of a flag. -/
def check (f : Flag) (value : Text) : Except FlagFault Unit :=
  match f.kind with
  | .text => .ok ()
  | .switch =>
    if switchTexts.any fun s => utf8 s == value then .ok () else .error (.badValue f value false)
  | .integer =>
    match integer? value with
    | none => .error (.badValue f value (startsTooLarge value))
    | some n => if Word.isInt64 n then .ok () else .error (.badValue f value true)

end Flag

namespace FlagFault

/-- The message for a fault. -/
def message : FlagFault → Text
  | badForm written => utf8 "bad flag syntax: " ++ written
  | unknown name => utf8 "unknown flag: --" ++ name
  | unknownLetter letters =>
    utf8 "unknown shorthand flag: " ++ quotedChar (Char.ofNat (letters.headD 0).toNat) ++
      utf8 " in -" ++ letters
  | noValue written => utf8 "flag needs an argument: " ++ written
  | badValue f value isTooLarge =>
    let reader := if f.kind = .integer then "strconv.ParseInt" else "strconv.ParseBool"
    utf8 "invalid argument " ++ value.quoted ++ utf8 " for " ++ f.shown.quoted ++ utf8 " flag: " ++
      utf8 reader ++ utf8 ": parsing " ++ value.quoted ++
      utf8 (if isTooLarge then ": value out of range" else ": invalid syntax")

end FlagFault

/-- Arguments that were understood: flags with their values, and operands. -/
structure Arguments where
  given : List (String × Text) := []
  operands : List Text := []
  deriving DecidableEq, Repr

namespace Arguments

/-- Adds a flag before the others. -/
def addFlag (f : Flag) (value : Text) (a : Arguments) : Arguments :=
  { a with given := (f.name, value) :: a.given }

/-- Adds an operand before the others. -/
def addOperand (t : Text) (a : Arguments) : Arguments := { a with operands := t :: a.operands }

/-- The values given for a flag. -/
def values (a : Arguments) (name : String) : List Text :=
  (a.given.filter (·.1 == name)).map (·.2)

/-- The value of a flag: the last one given. -/
def value? (a : Arguments) (name : String) : Option Text := (a.values name).getLast?

/-- Whether a switch is on. -/
def isOn (a : Arguments) (name : String) : Bool :=
  match a.value? name with
  | some t => Value.isTrue (.text t)
  | none => false

/-- The switches that letters stand for. A value after `=` belongs to the last letter. What starts
with `test.` is a flag of a test runner and passed over. -/
def letters (flags : List Flag) : Text → Except FlagFault (List (String × Text))
  | [] => .ok []
  | b :: t =>
    if (utf8 "test.").isPrefixOf (b :: t) then .ok []
    else
      match flags.find? fun f => f.letter == some (Char.ofNat b.toNat) with
      | none => .error (.unknownLetter (b :: t))
      | some f =>
        if t.head? == some (byte '=') && 1 < t.length then do
          f.check (t.drop 1)
          return [(f.name, t.drop 1)]
        else do return (f.name, utf8 "true") :: (← letters flags t)

/-- The flag that is written by its name, and the value after `=`. -/
def named (flags : List Flag) (written : Text) : Except FlagFault (Flag × Option Text) :=
  let body := written.drop 2
  if body.isEmpty || body.head? == some (byte '-') || body.head? == some (byte '=') then
    .error (.badForm written)
  else
    let name := body.takeWhile (· != byte '=')
    match flags.find? fun f => utf8 f.name == name with
    | none => .error (.unknown name)
    | some f =>
      .ok (f, if name.length < body.length then some (body.drop (name.length + 1)) else none)

/-- Understands arguments. -/
def read (flags : List Flag) : List Text → Except FlagFault Arguments
  | [] => .ok {}
  | s :: rest =>
    if s.head? != some (byte '-') || s.length = 1 then do
      return (← read flags rest).addOperand s
    else if s == utf8 "--" then .ok { operands := rest }
    else if !(utf8 "--").isPrefixOf s then do
      let found ← letters flags (s.drop 1)
      let a ← read flags rest
      return { a with given := found ++ a.given }
    else do
      let (f, value?) ← named flags s
      match value? with
      | some value =>
        f.check value
        return (← read flags rest).addFlag f value
      | none =>
        if f.kind = .switch then return (← read flags rest).addFlag f (utf8 "true")
        else
          match rest with
          | [] => .error (.noValue s)
          | value :: rest =>
            f.check value
            return (← read flags rest).addFlag f value

end Arguments

end FusionKit
