import FusionKit.Token.Numeral
import FusionKit.Text.Quoted

/-!
# Lexemes

What words are made of: the characters that may stand in them, the faults that keep a word from
being read, and what a reader finds out by looking ahead without passing anything.
-/
namespace FusionKit

/-- Why no token can be read. -/
inductive LexFault where
  | strayByte (b : UInt8)
  | unterminatedComment
  | unterminatedBlob
  | charInBlob (c : Char)
  | unterminatedClob
  | charInClob (c : Char)
  | unterminatedString
  | unterminatedLongString
  | unterminatedSymbol
  | nullType (name : Text)
  | annotatingKeyword (keyword : Text)
  | numeral
  | charInNumeral (c : Char)
  | operatorOutside (c : Char)
  | unexpected (c : Char)
  deriving DecidableEq, Repr

/-- The message for a fault. -/
def LexFault.message : LexFault → Text
  | strayByte b =>
    utf8 "invalid utf-8 sequence in source text starting with byte " ++
      quotedChar (Char.ofNat b.toNat)
  | unterminatedComment => utf8 "unterminated block comment"
  | unterminatedBlob => utf8 "unterminated blob"
  | charInBlob c => utf8 "invalid character " ++ quotedChar c ++ utf8 " in blob"
  | unterminatedClob => utf8 "unterminated clob"
  | charInClob c => utf8 "unexpected text starting with " ++ quotedChar c ++ utf8 " in clob"
  | unterminatedString => utf8 "unterminated string literal"
  | unterminatedLongString => utf8 "unterminated long string literal"
  | unterminatedSymbol => utf8 "unterminated quoted symbol"
  | nullType name => utf8 "invalid null type " ++ name.quoted
  | annotatingKeyword keyword =>
    utf8 "keyword " ++ keyword ++ utf8 " cannot be used as an annotation"
  | numeral => utf8 "invalid numeric literal"
  | charInNumeral c => utf8 "invalid character " ++ quotedChar c ++ utf8 " in numeric literal"
  | operatorOutside c => utf8 "operator symbol " ++ quotedChar c ++ utf8 " outside of s-expression"
  | unexpected c => utf8 "unexpected text starting with " ++ quotedChar c

namespace Lexeme

/-- A token type that stands for a part of the source: neither the end nor a fault. -/
def IsWord (type : TokenType) : Prop := type ≠ .eof ∧ type ≠ .error

instance (type : TokenType) : Decidable (IsWord type) :=
  inferInstanceAs (Decidable (type ≠ .eof ∧ type ≠ .error))

/-- The blanks of the language. -/
def isSpace (c : Char) : Bool :=
  c == ' ' || c == '\t' || c == '\r' || c == '\n' || c == '\x0c' || c == '\x0b'

/-- Characters that an identifier starts with. -/
def isIdentStart (c : Char) : Bool :=
  ('a' ≤ c && c ≤ 'z') || ('A' ≤ c && c ≤ 'Z') || c == '_' || c == '$'

/-- Characters of an identifier. -/
def isIdent (c : Char) : Bool := isIdentStart c || Numeral.isDecimal c

/-- Characters of operator symbols. -/
def isOperator (c : Char) : Bool := "!#%&*+-./;<=>?@^`|~".toList.contains c

/-- Characters of base 64 text. -/
def isBase64 (c : Char) : Bool :=
  ('A' ≤ c && c ≤ 'Z') || ('a' ≤ c && c ≤ 'z') || Numeral.isDecimal c || c == '+' || c == '/' ||
    c == '='

/-- Delimiters that may follow a numeral. -/
def isDelimiter (c : Char) : Bool := "()[]\x7b\x7d,\"'".toList.contains c

/-- The names of the types that a null may carry. -/
def nullTypes : List String :=
  ["bool", "int", "decimal", "float", "timestamp", "symbol", "string", "clob", "blob", "list",
    "sexp", "struct"]

/-- How many characters satisfying `p` come first. -/
def run (p : Char → Bool) (gs : List Glyph) : Nat := (gs.takeWhile (Glyph.isCharWith p)).length

/-- The blanks and the two colons that make a symbol an annotation; zero when there are none. -/
def annotationMark (gs : List Glyph) : Nat :=
  let blanks := run isSpace gs
  match gs.drop blanks with
  | .char ':' :: .char ':' :: _ => blanks + 2
  | _ => 0

/-- Whether a numeral may end before `gs`. -/
def mayFollowNumeral (inSExpr : Bool) : List Glyph → Bool
  | [] => true
  | .stray _ :: _ => false
  | .char c :: gs =>
    isSpace c || isDelimiter c ||
      (c == '/' && (gs.head? == some (.char '/') || gs.head? == some (.char '*'))) ||
      (inSExpr && isOperator c && c != '.')

/-- What precedes the first two closing braces. -/
def blobBody? : List Glyph → Option (List Glyph)
  | [] => none
  | .char '\x7d' :: .char '\x7d' :: _ => some []
  | g :: gs => (blobBody? gs).map (g :: ·)

/-- Whether a string starts here. -/
def startsString : List Glyph → Bool
  | .char '"' :: _ => true
  | .char '\'' :: .char '\'' :: .char '\'' :: _ => true
  | _ => false

end Lexeme

end FusionKit
