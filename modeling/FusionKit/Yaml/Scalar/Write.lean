import FusionKit.Text.Quoted
import FusionKit.Yaml.Scalar

/-!
# Writing scalars

A text is written plain if it can be, else between single quotes, and between double quotes when
it needs escapes or would be taken for something else. A text of several lines is written line by
line below a bar. Bytes that are no UTF-8 are written in base 64 under a tag that says so.

The lines after the first one of a scalar are moved right. Only what follows a line end is: lines
without characters stay empty.
-/
namespace FusionKit.Yaml

/-- Whether a character prints. -/
def isDirect (c : Char) : Bool :=
  let n := c.toNat
  (0x20 ≤ n && n ≤ 0x7e) || (0xa0 ≤ n && n ≤ 0xfffd && n != 0xfeff)

/-- Whether a character ends a line. -/
def isLineEnd (c : Char) : Bool :=
  c == '\n' || c == '\r' || c == '\u0085' || c == '\u2028' || c == '\u2029'

/-- Whether a text starts with a mark of the format. -/
def startsWithMark (t : Text) : Bool :=
  (utf8 "---").isPrefixOf t || (utf8 "...").isPrefixOf t ||
    match t with
    | [] => false
    | b :: rest =>
      (utf8 "#,[]\x7b\x7d&*!|>'\"%@`").contains b ||
        ((utf8 "-?:").contains b &&
          (rest.isEmpty || rest.head? == some (byte ' ') || rest.head? == some (byte '\t')))

/-- Whether a text holds a colon before a blank or its end, or a hash after a blank. -/
def holdsMark : Text → Bool
  | [] => false
  | [b] => b == byte ':'
  | a :: b :: t =>
    let blank (x : UInt8) := x == byte ' ' || x == byte '\t'
    (a == byte ':' && blank b) || (blank a && b == byte '#') || holdsMark (b :: t)

/-- Whether a character that satisfies `p` stands right before one that satisfies `q`. -/
def adjoins (p q : Char → Bool) : List Char → Bool
  | a :: b :: cs => (p a && q b) || adjoins p q (b :: cs)
  | _ => false

/-- The ways to write a scalar. -/
inductive ScalarStyle where
  | plain
  | single
  | double
  | literal
  deriving DecidableEq, Repr

namespace ScalarStyle

/-- Whether characters need escapes, or hold a space that would be lost at the end of a line. -/
def needsEscapes (cs : List Char) : Bool :=
  (cs.any fun c => c != '\t' && c != '\n' && !isDirect c) || adjoins (· == ' ') isLineEnd cs

/-- Whether characters can stand between single quotes. -/
def fitsSingle (cs : List Char) : Bool :=
  !needsEscapes cs && !cs.contains '\t' && !adjoins isLineEnd (· == ' ') cs

/-- Whether characters can stand below a bar. -/
def fitsLiteral (cs : List Char) : Bool := !needsEscapes cs && cs.getLast? != some ' '

/-- Whether a text can stand without quotes, whatever it means then. -/
def fitsPlain (t : Text) : Bool :=
  let cs := t.chars
  fitsSingle cs && !cs.any isLineEnd && cs.head? != some ' ' && cs.getLast? != some ' ' &&
    !startsWithMark t && !holdsMark t

/-- The style of a text; `keepsMeaning` tells that it stands for itself without quotes. -/
def choose (keepsMeaning : Bool) (t : Text) : ScalarStyle :=
  if t.contains (byte '\n') then if fitsLiteral t.chars then literal else double
  else if !keepsMeaning then double
  else if fitsPlain t then plain
  else if fitsSingle t.chars then single
  else double

end ScalarStyle

/-- One character between double quotes. -/
def escapedChar (c : Char) : Text :=
  let capitals (t : Text) := t.map fun b => if byte 'a' ≤ b && b ≤ byte 'f' then b - 32 else b
  let n := c.toNat
  if c == '"' then utf8 "\\\""
  else if c == '\\' then utf8 "\\\\"
  else if isDirect c && !isLineEnd c then Text.ofChars [c]
  else if n = 0 then utf8 "\\0"
  else if n = 0x1b then utf8 "\\e"
  else if n = 0x85 then utf8 "\\N"
  else if n = 0x2028 then utf8 "\\L"
  else if n = 0x2029 then utf8 "\\P"
  else
    match Quoted.letter? c with
    | some l => [byte '\\', byte l]
    | none =>
      if n ≤ 0xff then utf8 "\\x" ++ capitals (Quoted.hex 2 n)
      else if n ≤ 0xffff then utf8 "\\u" ++ capitals (Quoted.hex 4 n)
      else utf8 "\\U" ++ capitals (Quoted.hex 8 n)

/-- `n` spaces. -/
def spaces (n : Nat) : Text := List.replicate n (byte ' ')

/-- Characters whose lines are moved right by `n` columns. `fresh` tells that a line starts here,
and `written` how a character is written. -/
def linesFrom (n : Nat) (written : Char → Text) (fresh : Bool) : List Char → Text
  | [] => []
  | c :: cs =>
    if isLineEnd c then Text.ofChars [c] ++ linesFrom n written true cs
    else (if fresh then spaces n else []) ++ written c ++ linesFrom n written false cs

/-- How the line ends after the last line below a bar are marked: a dash for none, nothing for
one, a plus for more or for nothing else. The first character comes last. -/
def chomping : List Char → Text
  | [] => utf8 "-"
  | [c] => if isLineEnd c then utf8 "+" else utf8 "-"
  | c :: d :: _ => if isLineEnd c then if isLineEnd d then utf8 "+" else [] else utf8 "-"

/-- What stands behind the bar. A space or a line end at the start hides how far the lines are
moved right, so that is told. -/
def barHints (cs : List Char) : Text :=
  (if cs.head?.any fun c => c == ' ' || isLineEnd c then utf8 "2" else []) ++ chomping cs.reverse

/-- Characters below a bar. The bar stands on the first line when that is empty. -/
def barred (n : Nat) (cs : List Char) : Text :=
  utf8 "|" ++ barHints cs ++ (if cs.head?.any isLineEnd then [] else utf8 "\n") ++
    linesFrom n (fun c => Text.ofChars [c]) true cs

/-- The digits of base 64. -/
def base64Digit (n : Nat) : UInt8 :=
  (utf8 "ABCDEFGHIJKLMNOPQRSTUVWXYZabcdefghijklmnopqrstuvwxyz0123456789+/").getD n (byte '=')

/-- Bytes in base 64. -/
def base64 : Text → Text
  | [] => []
  | [a] => [base64Digit (a.toNat / 4), base64Digit (a.toNat % 4 * 16), byte '=', byte '=']
  | [a, b] =>
    [base64Digit (a.toNat / 4), base64Digit (a.toNat % 4 * 16 + b.toNat / 16),
      base64Digit (b.toNat % 16 * 4), byte '=']
  | a :: b :: c :: t =>
    [base64Digit (a.toNat / 4), base64Digit (a.toNat % 4 * 16 + b.toNat / 16),
      base64Digit (b.toNat % 16 * 4 + c.toNat / 64), base64Digit (c.toNat % 64)] ++ base64 t

/-- The number of digits on a line of base 64. -/
def base64Width : Nat := 70

/-- Digits in lines. The fuel is their number. -/
def inLines : Nat → Text → Text
  | 0, _ => []
  | _ + 1, [] => []
  | fuel + 1, t => t.take base64Width ++ utf8 "\n" ++ inLines fuel (t.drop base64Width)

/-- Bytes in base 64, in lines unless one is enough. -/
def base64Lines (t : Text) : Text :=
  let digits := base64 t
  if digits.length < base64Width then digits else inLines digits.length digits

/-- A scalar as it is to be written: its tag, if it needs one, its text and its style. -/
structure ScalarForm where
  tag : Text := []
  body : Text
  style : ScalarStyle
  deriving DecidableEq, Repr

namespace ScalarForm

/-- The form of a text. -/
def ofText (t : Text) : ScalarForm :=
  if t.isUtf8 then { body := t, style := .choose (Scalar.isPlainText t) t }
  else
    let body := base64Lines t
    { tag := utf8 "!!binary", body, style := .choose true body }

/-- The longest scalar that stands on a line with its value as a key. -/
def keyLimit : Nat := 128

/-- Whether a scalar that is a key can stand on a line with its value. -/
def isShortKey (f : ScalarForm) : Bool :=
  !f.body.chars.any isLineEnd && f.tag.length + f.body.length ≤ keyLimit

/-- A scalar whose further lines are moved right by `n` columns. -/
def render (n : Nat) (f : ScalarForm) : Text :=
  (if f.tag.isEmpty then [] else f.tag ++ utf8 " ") ++
    match f.style with
    | .plain => f.body
    | .single =>
      let written (c : Char) := Text.ofChars (if c == '\'' then [c, c] else [c])
      utf8 "'" ++ linesFrom n written false f.body.chars ++ utf8 "'"
    | .double => utf8 "\"" ++ f.body.chars.flatMap escapedChar ++ utf8 "\""
    | .literal => barred n f.body.chars

end ScalarForm

end FusionKit.Yaml
