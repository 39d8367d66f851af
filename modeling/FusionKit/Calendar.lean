import FusionKit.Text

/-!
# Dates and times of day

A moment as configuration files write it, with the difference of its clock to the clock without
daylight saving of the first meridian, and the one text by which it is shown.
-/
namespace FusionKit

namespace Calendar

/-- The number of days of a month. -/
def daysIn (year month : Nat) : Nat :=
  if month = 2 then if year % 4 = 0 && (year % 100 != 0 || year % 400 = 0) then 29 else 28
  else if [4, 6, 9, 11].contains month then 30
  else 31

/-- A numeral of at least `width` digits. -/
def paddedTo (width n : Nat) : Text :=
  let t := Text.ofNat n
  List.replicate (width - t.length) (byte '0') ++ t

end Calendar

/-- A day of the calendar. -/
structure Day where
  year : Nat
  month : Nat
  day : Nat
  deriving DecidableEq, Repr, Inhabited

namespace Day

/-- Whether the month has such a day. -/
def isValid (d : Day) : Bool :=
  1 ≤ d.month && d.month ≤ 12 && 1 ≤ d.day && d.day ≤ Calendar.daysIn d.year d.month

/-- The day after. -/
def next (d : Day) : Day :=
  if d.day < Calendar.daysIn d.year d.month then { d with day := d.day + 1 }
  else if d.month < 12 then ⟨d.year, d.month + 1, 1⟩
  else ⟨d.year + 1, 1, 1⟩

/-- The text of a day. -/
def shown (d : Day) : Text :=
  Text.joinWith (utf8 "-")
    [Calendar.paddedTo 4 d.year, Calendar.paddedTo 2 d.month, Calendar.paddedTo 2 d.day]

end Day

/-- A moment: a day, a time of day, the digits of the fraction of its second, and how many minutes
its clock is ahead. -/
structure Moment where
  day : Day
  hour : Nat := 0
  minute : Nat := 0
  second : Nat := 0
  fraction : Text := []
  ahead : Int := 0
  deriving DecidableEq, Repr, Inhabited

namespace Moment

/-- The moment whose sixtieth second, if it has one, is the first of the next minute. -/
def settled (m : Moment) : Moment :=
  if m.second < 60 then m
  else
    let m := { m with second := m.second - 60, minute := m.minute + 1 }
    let m := if m.minute < 60 then m else { m with minute := 0, hour := m.hour + 1 }
    if m.hour < 24 then m else { m with hour := 0, day := m.day.next }

/-- The difference of a clock, as a sign with four digits. -/
def zone (m : Moment) : Text :=
  let n := m.ahead.natAbs
  byte (if m.ahead < 0 then '-' else '+') ::
    (Calendar.paddedTo 2 (n / 60) ++ Calendar.paddedTo 2 (n % 60))

/-- The text of a moment. -/
def shown (m : Moment) : Text :=
  let fraction := Text.dropEndWhile (· == byte '0') (m.fraction.take 9)
  let time := Text.joinWith (utf8 ":") ([m.hour, m.minute, m.second].map (Calendar.paddedTo 2))
  let time := if fraction.isEmpty then time else time ++ byte '.' :: fraction
  Text.joinWith (utf8 " ")
    [m.day.shown, time, m.zone, if m.ahead = 0 then utf8 "UTC" else m.zone]

end Moment

end FusionKit
