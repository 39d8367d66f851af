import FusionKit.Json

/-!
# Reading JSON

A text is read from left to right. The first byte at which no value can go on is reported
together with what was being read; where the text ends too early, only that is reported.
-/
namespace FusionKit.Json

/-- Why a text is not JSON. -/
inductive Fault where
  | ended
  /-- A character that does not belong where it stands. -/
  | unexpected (c : Char) (place : String)
  deriving DecidableEq, Repr

/-- The message for a fault. -/
def Fault.message : Fault → Text
  | ended => utf8 "unexpected end of JSON input"
  | unexpected c place => utf8 "invalid character " ++ quotedChar c ++ utf8 " " ++ utf8 place

/-- A fault at the start of a text. Bytes count as the characters with their numbers. -/
def faultAt (place : String) : Text → Fault
  | [] => .ended
  | b :: _ => .unexpected (Char.ofNat b.toNat) place

/-- Whether a byte is white space. -/
def isSpace (b : UInt8) : Bool :=
  b == byte ' ' || b == byte '\t' || b == byte '\r' || b == byte '\n'

/-- The text after white space. -/
def skip (t : Text) : Text := t.dropWhile isSpace

/-- What follows a byte. -/
def expect (c : Char) (place : String) : Text → Except Fault Text
  | b :: t => if b == byte c then .ok t else .error (faultAt place (b :: t))
  | [] => .error .ended

/-- What follows the letters of a word. -/
def word (name : String) : List Char → Text → Except Fault Text
  | [], t => .ok t
  | c :: cs, t => do
    let t ← expect c ("in literal " ++ name ++ " (expecting '" ++ String.ofList [c] ++ "')") t
    word name cs t

/-- Four hexadecimal digits, their number and what follows. -/
def hex4 : Nat → Nat → Text → Except Fault (Nat × Text)
  | 0, n, t => .ok (n, t)
  | _ + 1, _, [] => .error .ended
  | count + 1, n, b :: t =>
    let digit? : Option Nat :=
      if byte '0' ≤ b && b ≤ byte '9' then some (b - byte '0').toNat
      else if byte 'a' ≤ b && b ≤ byte 'f' then some ((b - byte 'a').toNat + 10)
      else if byte 'A' ≤ b && b ≤ byte 'F' then some ((b - byte 'A').toNat + 10)
      else none
    match digit? with
    | some d => hex4 count (n * 16 + d) t
    | none => .error (faultAt "in \\u hexadecimal character escape" (b :: t))

/-- One unit of a string: text, or half of a character above U+FFFF. -/
inductive Piece where
  | text (t : Text)
  | half (n : Nat)

/-- The character that follows a backslash. -/
def escape? (b : UInt8) : Option Text :=
  if b == byte '"' || b == byte '\\' || b == byte '/' then some [b]
  else if b == byte 'b' then some [8]
  else if b == byte 'f' then some [12]
  else if b == byte 'n' then some [10]
  else if b == byte 'r' then some [13]
  else if b == byte 't' then some [9]
  else none

/-- The pieces of a string up to its closing quote, and what follows. -/
def pieces : Nat → Text → Except Fault (List Piece × Text)
  | 0, _ => .error .ended
  | _ + 1, [] => .error .ended
  | fuel + 1, b :: t =>
    if b == byte '"' then .ok ([], t)
    else if b < 0x20 then .error (faultAt "in string literal" (b :: t))
    else if b != byte '\\' then do
      let (ps, rest) ← pieces fuel t
      return (.text [b] :: ps, rest)
    else
      match t with
      | [] => .error .ended
      | e :: more =>
        if e == byte 'u' then do
          let (n, more) ← hex4 4 0 more
          let (ps, rest) ← pieces fuel more
          let isHalf := 0xd800 ≤ n && n < 0xe000
          return ((if isHalf then .half n else .text (Text.ofChars [Char.ofNat n])) :: ps, rest)
        else
          match escape? e with
          | some s => do
            let (ps, rest) ← pieces fuel more
            return (.text s :: ps, rest)
          | none => .error (faultAt "in string escape code" (e :: more))

/-- The character shown where there is none. -/
def replacement : Text := utf8 "\ufffd"

/-- The text of pieces. Two halves that belong together are one character. -/
def joined : List Piece → Text
  | [] => []
  | .text t :: ps => t ++ joined ps
  | [.half _] => replacement
  | .half _ :: .text t :: ps => replacement ++ t ++ joined ps
  | .half m :: .half n :: ps =>
    if m < 0xdc00 && 0xdc00 ≤ n then
      Text.ofChars [Char.ofNat (0x10000 + (m - 0xd800) * 1024 + (n - 0xdc00))] ++ joined ps
    else replacement ++ joined (.half n :: ps)

/-- A string after its opening quote, and what follows it. -/
def stringBody (t : Text) : Except Fault (Text × Text) := do
  let (ps, rest) ← pieces (t.length + 1) t
  return (Text.ofChars (Text.chars (joined ps)), rest)

/-- At least one digit, and what follows. -/
def digits (place : String) (t : Text) : Except Fault (Text × Text) :=
  let ds := t.takeWhile Text.isDigit
  if ds.isEmpty then .error (faultAt place t) else .ok (ds, t.drop ds.length)

/-- A number and what follows it. -/
def numeral (t : Text) : Except Fault (Text × Text) := do
  let sign := t.takeWhile (· == byte '-') |>.take 1
  let t := t.drop sign.length
  let (whole, t) ←
    match t with
    | b :: rest => if b == byte '0' then pure ([b], rest) else digits "in numeric literal" t
    | [] => .error .ended
  let (fraction, t) ←
    match t with
    | b :: rest =>
      if b == byte '.' then do
        let (ds, rest) ← digits "after decimal point in numeric literal" rest
        pure (b :: ds, rest)
      else pure ([], t)
    | [] => pure ([], t)
  let (power, t) ←
    match t with
    | b :: rest =>
      if b == byte 'e' || b == byte 'E' then do
        let mark := (rest.take 1).filter fun s => s == byte '+' || s == byte '-'
        let (ds, rest) ← digits "in exponent of numeric literal" (rest.drop mark.length)
        pure (b :: mark ++ ds, rest)
      else pure ([], t)
    | [] => pure ([], t)
  return (sign ++ whole ++ fraction ++ power, t)

/-- How deep arrays and objects may be nested. -/
def maxDepth : Nat := 10000

mutual

/-- A value after white space, inside `depth` arrays and objects, and what follows it. -/
def value : Nat → Nat → Text → Except Fault (Json × Text)
  | 0, _, _ => .error .ended
  | fuel + 1, depth, t =>
    match skip t with
    | [] => .error .ended
    | b :: rest =>
      if b == byte '"' then do
        let (s, rest) ← stringBody rest
        return (.string s, rest)
      else if (b == byte '[' || b == byte '\x7b') && maxDepth ≤ depth then
        .error (faultAt "exceeded max depth" (b :: rest))
      else if b == byte '[' then do
        match skip rest with
        | c :: more =>
          if c == byte ']' then return (.array [], more)
          else
            let (items, rest) ← items fuel (depth + 1) rest
            return (.array items, rest)
        | [] => .error .ended
      else if b == byte '\x7b' then do
        match skip rest with
        | c :: more =>
          if c == byte '\x7d' then return (.object [], more)
          else
            let (members, rest) ← members fuel (depth + 1) rest
            return (.object members, rest)
        | [] => .error .ended
      else if b == byte 't' then do
        let rest ← word "true" ['r', 'u', 'e'] rest
        return (.boolean true, rest)
      else if b == byte 'f' then do
        let rest ← word "false" ['a', 'l', 's', 'e'] rest
        return (.boolean false, rest)
      else if b == byte 'n' then do
        let rest ← word "null" ['u', 'l', 'l'] rest
        return (.null, rest)
      else if Text.isDigit b || b == byte '-' then do
        let (n, rest) ← numeral (b :: rest)
        return (.number n, rest)
      else .error (faultAt "looking for beginning of value" (b :: rest))

/-- The items of an array up to its end, and what follows. -/
def items : Nat → Nat → Text → Except Fault (List Json × Text)
  | 0, _, _ => .error .ended
  | fuel + 1, depth, t => do
    let (item, rest) ← value fuel depth t
    match skip rest with
    | [] => .error .ended
    | b :: rest =>
      if b == byte ',' then
        let (more, rest) ← items fuel depth rest
        return (item :: more, rest)
      else if b == byte ']' then return ([item], rest)
      else .error (faultAt "after array element" (b :: rest))

/-- The members of an object up to its end, and what follows. -/
def members : Nat → Nat → Text → Except Fault (List (Text × Json) × Text)
  | 0, _, _ => .error .ended
  | fuel + 1, depth, t => do
    let rest ← expect '"' "looking for beginning of object key string" (skip t)
    let (name, rest) ← stringBody rest
    let rest ← expect ':' "after object key" (skip rest)
    let (item, rest) ← value fuel depth rest
    match skip rest with
    | [] => .error .ended
    | b :: rest =>
      if b == byte ',' then
        let (more, rest) ← members fuel depth rest
        return ((name, item) :: more, rest)
      else if b == byte '\x7d' then return ([(name, item)], rest)
      else .error (faultAt "after object key:value pair" (b :: rest))

end

/-- Reads a value from the start of a text; what follows it is left. -/
def readFirst (t : Text) : Except Fault (Json × Text) := value (t.length + 1) 0 t

/-- Reads a text that is one value. -/
def read (t : Text) : Except Fault Json := do
  let (v, rest) ← readFirst t
  match skip rest with
  | [] => return v
  | rest => .error (faultAt "after top-level value" rest)

end FusionKit.Json
