import FusionKit.Text
import FusionKit.Word

/-!
# Decimal numbers

Numbers as digits and an exponent of ten, and the decimal text of the binary number next to one.
Binary numbers have 53 bits and exponents from -1074 to 971; a decimal stands for the nearest of
them, ties going to the even one. Its text has the fewest digits that lead back to it, and of
those the nearest.
-/
namespace FusionKit

/-- The number `± coefficient · 10 ^ exponent`. -/
structure Decimal where
  negative : Bool := false
  coefficient : Nat
  exponent : Int := 0
  deriving DecidableEq, Repr

namespace Decimal

/-- The value of a digit in bases up to sixteen. -/
def digit? (b : UInt8) : Option Nat :=
  if byte '0' ≤ b && b ≤ byte '9' then some (b - byte '0').toNat
  else if byte 'a' ≤ b && b ≤ byte 'f' then some ((b - byte 'a').toNat + 10)
  else if byte 'A' ≤ b && b ≤ byte 'F' then some ((b - byte 'A').toNat + 10)
  else none

/-- The number that digits of a base spell, without checking them. -/
def natOf (base : Nat) (t : Text) : Nat := t.foldl (fun n b => n * base + (digit? b).getD 0) 0

/-- Whether a byte is a digit of a base. -/
def isDigitOf (base : Nat) (b : UInt8) : Bool :=
  match digit? b with
  | some d => d < base
  | none => false

/-- The number that digits of a base spell; there is at least one. -/
def nat? (base : Nat) (t : Text) : Option Nat :=
  if !t.isEmpty && t.all (isDigitOf base) then some (natOf base t) else none

/-- A sign and what follows it. -/
def signed : Text → Bool × Text
  | b :: t =>
    if b == byte '-' then (true, t) else if b == byte '+' then (false, t) else (false, b :: t)
  | [] => (false, [])

/-- An integer with a sign. -/
def int? (base : Nat) (t : Text) : Option Int :=
  let (negative, digits) := signed t
  (nat? base digits).map fun n => if negative then -(n : Int) else n

/-- A number with an optional sign, an optional fraction and an optional exponent; there is a
digit before the exponent. -/
def ofText? (t : Text) : Option Decimal :=
  let (negative, t) := signed t
  let whole := t.takeWhile Text.isDigit
  let rest := t.dropWhile Text.isDigit
  let (fraction, rest) :=
    match rest with
    | b :: more =>
      if b == byte '.' then (more.takeWhile Text.isDigit, more.dropWhile Text.isDigit)
      else ([], rest)
    | [] => ([], [])
  let digits := whole ++ fraction
  if digits.isEmpty then none
  else
    let shift : Option Int :=
      match rest with
      | [] => some 0
      | b :: power => if b == byte 'e' || b == byte 'E' then int? 10 power else none
    shift.map fun e => ⟨negative, natOf 10 digits, e - fraction.length⟩

/-- A quotient rounded to the nearest number, ties to the even one. -/
def roundDiv (num den : Nat) : Nat :=
  let q := num / den
  let twice := 2 * (num % den)
  if twice < den || (twice == den && q % 2 == 0) then q else q + 1

/-- `num / den` scaled by a power of two. -/
def scaled (num den : Nat) (power : Int) : Nat × Nat :=
  if 0 ≤ power then (num <<< power.toNat, den) else (num, den <<< (-power).toNat)

/-- `n · 10 ^ power` as a fraction. -/
def tens (n : Nat) (power : Int) : Nat × Nat :=
  if 0 ≤ power then (n * Nat.pow 10 power.toNat, 1) else (n, Nat.pow 10 (-power).toNat)

/-- The least mantissa of 53 bits. -/
def leastFull : Nat := 1 <<< 52

/-- The mantissa and exponent of the binary number nearest to a decimal; none when it is too
large for one. -/
def toBinary? (d : Decimal) : Option (Nat × Int) :=
  let size : Int := (Nat.toDigits 10 d.coefficient).length + d.exponent
  if d.coefficient = 0 || size < -400 then some (0, 0)
  else if 400 < size then none
  else
    let (num, den) := tens d.coefficient d.exponent
    let guess : Int := (num.log2 : Int) - den.log2 - 53
    -- The guess is low by at most two, so one of three exponents leaves 53 bits.
    let fits (q : Int) : Bool := let (n, e) := scaled num den (-q); n / e < leastFull * 2
    let q := if fits guess then guess else if fits (guess + 1) then guess + 1 else guess + 2
    let q := max q (-1074)
    let (n, e) := scaled num den (-q)
    let m := roundDiv n e
    let (m, q) := if m = leastFull * 2 then (leastFull, q + 1) else (m, q)
    if 971 < q then none else some (m, q)

/-- Whether the binary number nearest to a decimal is zero. -/
def isNothing (d : Decimal) : Bool :=
  match d.toBinary? with
  | some (m, _) => m == 0
  | none => false

/-- The digits and exponent of the shortest decimal that leads back to the binary number
`m · 2 ^ q`. -/
def shortestDigits (m : Nat) (q : Int) : Nat × Int :=
  let (num, den) := scaled m 1 q
  -- The number lies between `10 ^ (size - 1)` and `10 ^ size`.
  let size : Int :=
    if den ≤ num then (Nat.toDigits 10 (num / den)).length
    else 1 - ((Nat.toDigits 10 ((den + num - 1) / num - 1)).length : Int)
  let (upNum, upDen) := scaled 1 1 (q - 1)
  let (downNum, downDen) :=
    if m = leastFull && -1074 < q then scaled 1 1 (q - 2) else (upNum, upDen)
  let attempt (count : Nat) : Option (Nat × Int) :=
    let unit := size - count
    let (uNum, uDen) := tens 1 unit
    let low := num * uDen / (den * uNum)
    -- How far the two neighbours on this grid are, in units of `1 / (den · uDen)`.
    let lowGap := num * uDen - low * uNum * den
    let highGap := (low + 1) * uNum * den - num * uDen
    let near (gap n d : Nat) : Bool :=
      let left := gap * d
      let right := n * den * uDen
      left < right || (left == right && m % 2 == 0)
    let lowHit := near lowGap downNum downDen
    let highHit := near highGap upNum upDen
    if lowHit && (!highHit || lowGap ≤ highGap) then some (low, unit)
    else if highHit then some (low + 1, unit)
    else none
  ((List.range 17).findSome? fun i => attempt (i + 1)).getD (m, q)

/-- Digits with a point at the place that an exponent says, and no exponent. -/
def positional (digits : Nat) (exponent : Int) : Text :=
  let t := Text.ofNat digits
  if 0 ≤ exponent then t ++ List.replicate exponent.toNat (byte '0')
  else
    let places := (-exponent).toNat
    let t := List.replicate (places + 1 - t.length) (byte '0') ++ t
    let whole := t.take (t.length - places)
    let fraction := Text.dropEndWhile (· == byte '0') (t.drop (t.length - places))
    if fraction.isEmpty then whole else whole ++ byte '.' :: fraction

/-- The shortest text, without an exponent, of the binary number nearest to a decimal; none when
it is too large. -/
def shortest? (d : Decimal) : Option Text :=
  d.toBinary?.map fun (m, q) =>
    let sign := if d.negative then utf8 "-" else []
    if m = 0 then sign ++ utf8 "0"
    else
      let (digits, exponent) := shortestDigits m q
      sign ++ positional digits exponent

/-- Digits with a point after the first and a power of ten with two digits at least. -/
def scientific (digits : Nat) (exponent : Int) : Text :=
  let t := Text.ofNat digits
  let power := exponent + t.length - 1
  let size := Text.ofNat power.natAbs
  t.take 1 ++ (if t.length = 1 then [] else byte '.' :: t.drop 1) ++
    utf8 (if power < 0 then "e-" else "e+") ++ List.replicate (2 - size.length) (byte '0') ++ size

/-- The shortest text of the binary number nearest to a decimal, with a power of ten when the number
is a million or more, or less than a tenth of a thousandth; none when it is too large. -/
def general? (d : Decimal) : Option Text :=
  d.toBinary?.map fun (m, q) =>
    let sign := if d.negative then utf8 "-" else []
    if m = 0 then sign ++ utf8 "0"
    else
      let (digits, exponent) := shortestDigits m q
      let power := exponent + (Text.ofNat digits).length - 1
      sign ++
        if power < -4 || 6 ≤ power then scientific digits exponent
        else positional digits exponent

end Decimal

end FusionKit
