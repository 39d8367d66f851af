import FusionKit.Text.Glyph
import FusionKit.Text.Printable

/-!
# Quoted text

The form in which texts and characters appear in dumps and messages: between quotes, with every
character that is not printable written as an escape.
-/
namespace FusionKit.Quoted

/-- The hexadecimal digit of a number below sixteen. -/
def hexDigit (n : Nat) : UInt8 :=
  if n < 10 then byte '0' + n.toUInt8 else byte 'a' + (n - 10).toUInt8

/-- The last `width` hexadecimal digits of a number. -/
def hex : Nat → Nat → Text
  | 0, _ => []
  | width + 1, n => hex width (n / 16) ++ [hexDigit (n % 16)]

/-- The control characters that have a letter of their own after the backslash. -/
def letter? (c : Char) : Option Char :=
  match c.toNat with
  | 7 => some 'a'
  | 8 => some 'b'
  | 9 => some 't'
  | 10 => some 'n'
  | 11 => some 'v'
  | 12 => some 'f'
  | 13 => some 'r'
  | _ => none

/-- One character between quotes of the given kind. -/
def char (quote c : Char) : Text :=
  if c == quote || c == '\\' then byte '\\' :: String.utf8EncodeChar c
  else if isPrintable c then String.utf8EncodeChar c
  else
    match letter? c with
    | some l => [byte '\\', byte l]
    | none =>
      if c.toNat < 0x80 then utf8 "\\x" ++ hex 2 c.toNat
      else if c.toNat < 0x10000 then utf8 "\\u" ++ hex 4 c.toNat
      else utf8 "\\U" ++ hex 8 c.toNat

/-- One glyph of a text between double quotes; a stray byte is written by its number. -/
def glyph : Glyph → Text
  | .char c => char '"' c
  | .stray b => utf8 "\\x" ++ hex 2 b.toNat

end FusionKit.Quoted

namespace FusionKit

/-- A text between double quotes. -/
def Text.quoted (t : Text) : Text :=
  byte '"' :: (t.glyphs.flatMap Quoted.glyph ++ [byte '"'])

/-- A list of texts, each between double quotes, in brackets. -/
def Text.quotedList (ts : List Text) : Text :=
  byte '[' :: (Text.joinWith (utf8 ", ") (ts.map Text.quoted) ++ [byte ']'])

/-- A character between single quotes. -/
def quotedChar (c : Char) : Text := byte '\'' :: (Quoted.char '\'' c ++ [byte '\''])

end FusionKit
