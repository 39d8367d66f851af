import FusionKit.Token
import FusionKit.Text.Glyph

/-!
# Numerals

Integers, reals and timestamps. Each function says how many glyphs at the start of its input form
a numeral of one kind, and zero when none does. Digits may be grouped by single underscores,
except in timestamps.
-/
namespace FusionKit.Numeral

/-- Decimal digits. -/
def isDecimal (c : Char) : Bool := '0' ≤ c && c ≤ '9'

/-- Binary digits. -/
def isBinary (c : Char) : Bool := c == '0' || c == '1'

/-- Hexadecimal digits, in either case. -/
def isHex (c : Char) : Bool := isDecimal c || ('a' ≤ c && c ≤ 'f') || ('A' ≤ c && c ≤ 'F')

/-- The letters that introduce an exponent. -/
def isExponent (c : Char) : Bool := c == 'e' || c == 'E' || c == 'd' || c == 'D'

/-- Further digits of a run, each possibly after one underscore. -/
def moreDigits (isDigit : Char → Bool) : List Glyph → Nat
  | .char c :: gs =>
    if isDigit c then moreDigits isDigit gs + 1
    else if c == '_' then
      match gs with
      | .char d :: ds => if isDigit d then moreDigits isDigit ds + 2 else 0
      | _ => 0
    else 0
  | _ => 0

/-- A run of digits, grouped by single underscores. -/
def digits (isDigit : Char → Bool) : List Glyph → Nat
  | .char c :: gs => if isDigit c then moreDigits isDigit gs + 1 else 0
  | _ => 0

/-- A minus sign, if there is one. -/
def sign : List Glyph → Nat
  | .char '-' :: _ => 1
  | _ => 0

/-- An unsigned decimal integer: a lone zero, or a run of digits that starts with no zero. -/
def decimal : List Glyph → Nat
  | .char '0' :: _ => 1
  | gs => digits isDecimal gs

/-- An unsigned integer in base sixteen or two, with its base mark. -/
def based : List Glyph → Nat
  | .char '0' :: .char x :: gs =>
    let run :=
      if x == 'x' || x == 'X' then digits isHex gs
      else if x == 'b' || x == 'B' then digits isBinary gs
      else 0
    if run = 0 then 0 else run + 2
  | _ => 0

/-- An integer. -/
def int (gs : List Glyph) : Nat :=
  let s := sign gs
  let body := gs.drop s
  let n := if based body = 0 then decimal body else based body
  if n = 0 then 0 else s + n

/-- A fraction: a point and perhaps digits. -/
def fraction : List Glyph → Nat
  | .char '.' :: gs => digits isDecimal gs + 1
  | _ => 0

/-- The digits of an exponent after its letter, with an optional sign. -/
def exponentDigits : List Glyph → Nat
  | .char c :: gs =>
    if c == '+' || c == '-' then
      let n := digits isDecimal gs
      if n = 0 then 0 else n + 1
    else digits isDecimal (.char c :: gs)
  | _ => 0

/-- An exponent. -/
def exponent : List Glyph → Nat
  | .char c :: gs =>
    if isExponent c then
      let n := exponentDigits gs
      if n = 0 then 0 else n + 1
    else 0
  | _ => 0

/-- A real: a decimal integer with a fraction, an exponent or both. -/
def real (gs : List Glyph) : Nat :=
  let s := sign gs
  let body := gs.drop s
  let whole := decimal body
  if whole = 0 then 0
  else
    let f := fraction (body.drop whole)
    let e := exponent (body.drop (whole + f))
    if f + e = 0 then 0 else s + whole + f + e

/-- What follows exactly `n` decimal digits. -/
def skipDigits? : Nat → List Glyph → Option (List Glyph)
  | 0, gs => some gs
  | n + 1, .char c :: gs => if isDecimal c then skipDigits? n gs else none
  | _ + 1, _ => none

/-- What follows a given character. -/
def skipChar? (c : Char) : List Glyph → Option (List Glyph)
  | .char d :: gs => if c == d then some gs else none
  | _ => none

/-- What follows two digits, a colon and two digits. -/
def skipClock? (gs : List Glyph) : Option (List Glyph) :=
  (skipDigits? 2 gs).bind fun gs => (skipChar? ':' gs).bind (skipDigits? 2)

/-- How many decimal digits come first. -/
def plainDigits (gs : List Glyph) : Nat := (gs.takeWhile (Glyph.isCharWith isDecimal)).length

/-- Seconds, possibly with a fraction; none when they are begun and not finished. -/
def seconds? (gs : List Glyph) : Option Nat :=
  match skipChar? ':' gs with
  | none => some 0
  | some gs =>
    match skipDigits? 2 gs with
    | none => none
    | some gs =>
      match skipChar? '.' gs with
      | none => some 3
      | some gs => if plainDigits gs = 0 then none else some (plainDigits gs + 4)

/-- A zone: the letter Z, or a signed number of hours and minutes. -/
def zone : List Glyph → Nat
  | .char c :: gs =>
    if c == 'Z' then 1
    else if (c == '+' || c == '-') && (skipClock? gs).isSome then 6
    else 0
  | _ => 0

/-- The time of day after a date and the letter T, with everything up to the zone. The date and
the letter alone are a timestamp when no time follows. -/
def timeOfDay (gs : List Glyph) : Nat :=
  match skipClock? gs with
  | none => 11
  | some rest =>
    match seconds? rest with
    | none => 0
    | some s =>
      let z := zone (rest.drop s)
      if z = 0 then 0 else 16 + s + z

/-- A timestamp: a year or a month before the letter T, a date, or a date with a time. -/
def timestamp (gs : List Glyph) : Nat :=
  match skipDigits? 4 gs with
  | some (.char 'T' :: _) => 5
  | some (.char '-' :: gs) =>
    match skipDigits? 2 gs with
    | some (.char 'T' :: _) => 8
    | some (.char '-' :: gs) =>
      match skipDigits? 2 gs with
      | some (.char 'T' :: gs) => timeOfDay gs
      | some _ => 10
      | none => 0
    | _ => 0
  | _ => 0

/-- The numeral at the start of the input, with its kind; a timestamp before a real, a real
before an integer. -/
def longest? (gs : List Glyph) : Option (TokenType × Nat) :=
  if timestamp gs ≠ 0 then some (.timestamp, timestamp gs)
  else if real gs ≠ 0 then some (.real, real gs)
  else if int gs ≠ 0 then some (.int, int gs)
  else none

theorem longest?_spec {gs : List Glyph} {type : TokenType} {n : Nat} (h : longest? gs = some (type, n)) :
    type ∈ [.int, .real, .timestamp] ∧ 0 < n := by
  unfold longest? at h
  split at h
  · rename_i hlength
    cases h
    exact ⟨by decide, Nat.pos_of_ne_zero hlength⟩
  split at h
  · rename_i hlength
    cases h
    exact ⟨by decide, Nat.pos_of_ne_zero hlength⟩
  split at h
  · rename_i hlength
    cases h
    exact ⟨by decide, Nat.pos_of_ne_zero hlength⟩
  · contradiction

end FusionKit.Numeral
