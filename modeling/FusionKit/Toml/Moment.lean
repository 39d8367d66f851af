import FusionKit.Toml.Fault
import FusionKit.Calendar
import FusionKit.Decimal

/-!
# Dates and times

A date, a time of day, both, or both with an offset, and the text by which each is shown.
-/
namespace FusionKit.Toml

/-- The parts that a written moment has. -/
inductive MomentKind where
  | date
  | time
  | dateTime
  | offsetDateTime
  deriving DecidableEq, Repr

/-- The word for the type of a moment. -/
def MomentKind.type : MomentKind → String
  | date => "toml.LocalDate"
  | time => "toml.LocalTime"
  | dateTime => "toml.LocalDateTime"
  | offsetDateTime => "time.Time"

/-- The number that two or four digits spell. -/
def digitsOf (t : Text) : Except Fault Nat :=
  if t.all Text.isDigit then .ok (Decimal.natOf 10 t)
  else .error (.malformed "expected digit (0-9)")

/-- Refuses what breaks a rule. -/
def require (holds : Bool) (reason : String) : Except Fault Unit :=
  if holds then .ok () else .error (.malformed reason)

/-- Whether a byte of a text is the given one. -/
def hasAt (t : Text) (i : Nat) (c : Char) : Bool := t[i]? == some (byte c)

/-- A day. -/
def dayOf (t : Text) : Except Fault Day := do
  require (t.length = 10 && hasAt t 4 '-' && hasAt t 7 '-')
    "dates are expected to have the format YYYY-MM-DD"
  let year ← digitsOf (t.take 4)
  let month ← digitsOf ((t.drop 5).take 2)
  let day ← digitsOf ((t.drop 8).take 2)
  require (Day.isValid ⟨year, month, day⟩) "impossible date"
  return ⟨year, month, day⟩

/-- A time of day: its whole seconds as written, the digits of its fraction, and what follows. -/
def timeOf (t : Text) : Except Fault (Text × Text × Text) := do
  require (8 ≤ t.length) "times are expected to have the format HH:MM:SS[.NNNNNN]"
  let hour ← digitsOf (t.take 2)
  require (hour ≤ 23) "hour cannot be greater 23"
  require (hasAt t 2 ':') "expecting colon between hours and minutes"
  let minute ← digitsOf ((t.drop 3).take 2)
  require (minute ≤ 59) "minutes cannot be greater 59"
  require (hasAt t 5 ':') "expecting colon between minutes and seconds"
  let second ← digitsOf ((t.drop 6).take 2)
  require (second ≤ 60) "seconds cannot be greater 60"
  match t.drop 8 with
  | [] => return (t, [], [])
  | b :: rest =>
    if b == byte '.' then
      let fraction := rest.takeWhile Text.isDigit
      require (!fraction.isEmpty)
        (if rest.isEmpty then "nanoseconds need at least one digit"
        else "need at least one digit after fraction point")
      return (t.take 8, fraction.take 9, rest.drop fraction.length)
    else return (t.take 8, [], b :: rest)

/-- Digits of a fraction after a point, or nothing. -/
def pointed (fraction : Text) : Text := if fraction.isEmpty then [] else byte '.' :: fraction

/-- The minutes by which the clock of a time zone is ahead. -/
def zoneOf (t : Text) : Except Fault Int := do
  match t with
  | [] => .error (.malformed "invalid date-time timezone")
  | b :: rest =>
    if b == byte 'Z' || b == byte 'z' then
      require rest.isEmpty "extra bytes at the end of the timezone"
      return 0
    else
      require (t.length = 6) "invalid date-time timezone"
      require (b == byte '-' || b == byte '+') "invalid timezone offset character"
      require (hasAt t 3 ':') "expected a : separator"
      let hours ← digitsOf ((t.drop 1).take 2)
      require (hours ≤ 23) "invalid timezone offset hours"
      let minutes ← digitsOf ((t.drop 4).take 2)
      require (minutes ≤ 59) "invalid timezone offset minutes"
      let ahead : Int := hours * 60 + minutes
      return if b == byte '-' then -ahead else ahead

/-- The moment on a day at a time that has been checked. -/
def momentAt (day : Day) (time fraction : Text) (ahead : Int) : Moment :=
  let part (i : Nat) : Nat := Decimal.natOf 10 ((time.drop i).take 2)
  { day, hour := part 0, minute := part 3, second := part 6, fraction, ahead }

/-- The text that shows a written moment. -/
def momentOf (kind : MomentKind) (t : Text) : Except Fault Text := do
  match kind with
  | .date => do
    let _ ← dayOf t
    return t
  | .time => do
    let (time, fraction, rest) ← timeOf t
    require rest.isEmpty "extra characters at the end of a local time"
    return time ++ pointed fraction
  | _ => do
    require (11 ≤ t.length)
      "local datetimes are expected to have the format YYYY-MM-DDTHH:MM:SS[.NNNNNNNNN]"
    let day ← dayOf (t.take 10)
    require (hasAt t 10 'T' || hasAt t 10 't' || hasAt t 10 ' ')
      "datetime separator is expected to be T or a space"
    let (time, fraction, rest) ← timeOf (t.drop 11)
    if kind = .dateTime then
      require rest.isEmpty "extra characters at the end of a local date time"
      return t.take 10 ++ utf8 "T" ++ time ++ pointed fraction
    else
      let ahead ← zoneOf rest
      return (momentAt day time fraction ahead).settled.shown

end FusionKit.Toml
