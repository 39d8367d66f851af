/-!
# Text

Sources, names and messages are sequences of bytes: a source need not be valid UTF-8, and every
offset, length and column of this library counts bytes. Literals are written as strings and
enter through `utf8`.

This module holds the operations on bytes that know nothing of characters: joining, splitting at
a byte, taking a known beginning or ending away, decimal numerals and the order by bytes.
-/
namespace FusionKit

/-- A text is a sequence of bytes. -/
abbrev Text := List UInt8

/-- The UTF-8 bytes of a string. -/
def utf8 (s : String) : Text := s.toList.flatMap String.utf8EncodeChar

/-- The byte of an ASCII character. -/
abbrev byte (c : Char) : UInt8 := c.toUInt8

namespace Text

/-- The text without `beginning`, or the text itself when it does not start so. -/
def trimStart (beginning t : Text) : Text :=
  if beginning.isPrefixOf t then t.drop beginning.length else t

/-- The text without `ending`, or the text itself when it does not end so. -/
def trimEnd (ending t : Text) : Text :=
  if ending.isSuffixOf t then t.take (t.length - ending.length) else t

/-- What follows `beginning`, when the text starts so. -/
def cutStart? (beginning t : Text) : Option Text :=
  if beginning.isPrefixOf t then some (t.drop beginning.length) else none

/-- What precedes `ending`, when the text ends so. -/
def cutEnd? (ending t : Text) : Option Text :=
  if ending.isSuffixOf t then some (t.take (t.length - ending.length)) else none

/-- The pieces of a text between the occurrences of a byte; there is always at least one. -/
def piecesAt (b : UInt8) : Text → List Text
  | [] => [[]]
  | x :: t =>
    if x == b then [] :: piecesAt b t
    else
      match piecesAt b t with
      | [] => [[x]]
      | piece :: pieces => (x :: piece) :: pieces

/-- The pieces one after the other with `separator` between neighbours. -/
def joinWith (separator : Text) : List Text → Text
  | [] => []
  | [t] => t
  | t :: u :: ts => t ++ separator ++ joinWith separator (u :: ts)

/-- The offset of the first occurrence of `part`. -/
def offsetOf? (part : Text) : Text → Option Nat
  | [] => if part.isEmpty then some 0 else none
  | x :: t => if part.isPrefixOf (x :: t) then some 0 else (offsetOf? part t).map (· + 1)

/-- `n` copies of a byte; none when `n` is negative. -/
def repeated (b : UInt8) (n : Int) : Text := List.replicate n.toNat b

/-- The number of bytes from which on there is no room for a text. -/
def maxLength : Nat := 1 <<< 48

/-- The decimal numeral of a natural number. -/
def ofNat (n : Nat) : Text := (Nat.toDigits 10 n).map byte

/-- The decimal numeral of an integer. -/
def ofInt : Int → Text
  | .ofNat n => ofNat n
  | .negSucc n => byte '-' :: ofNat (n + 1)

/-- The order by bytes; a proper beginning comes first. -/
def le : Text → Text → Bool
  | [], _ => true
  | _ :: _, [] => false
  | a :: s, b :: t => if a == b then le s t else decide (a < b)

/-- The strict order by bytes. -/
def lt (s t : Text) : Bool := !le t s

/-- The texts in order, by bytes. -/
def sorted (ts : List Text) : List Text := ts.mergeSort le

/-- Whether a byte is a decimal digit. -/
def isDigit (b : UInt8) : Bool := byte '0' ≤ b && b ≤ byte '9'

/-- The six blanks of the language: space, tab, the two line ends, form feed and vertical tab. -/
def isSpace (b : UInt8) : Bool :=
  b == byte ' ' || b == byte '\t' || b == byte '\r' || b == byte '\n' || b == 0x0c || b == 0x0b

/-- The text without the bytes satisfying `p` at its end. -/
def dropEndWhile (p : UInt8 → Bool) (t : Text) : Text := (t.reverse.dropWhile p).reverse

end Text

end FusionKit
