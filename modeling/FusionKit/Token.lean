import FusionKit.Location

/-!
# Tokens

The words of the language. White space and comments are tokens too, because a formatter has to
reproduce them.
-/
namespace FusionKit

/-- The classes of tokens. -/
inductive TokenType where
  | invalid | error | eof
  | whitespace | lineComment | blockComment
  | null | bool | int | real | timestamp | symbol | quotedSymbol | operator
  | string | longString | annotate | blob
  | clobOpen | clobClose | parenOpen | parenClose | bracketOpen | bracketClose
  | braceOpen | braceClose | colon | comma
  deriving DecidableEq, Repr, Inhabited

namespace TokenType

/-- Every token type, in the order of their numbers. -/
def all : List TokenType :=
  [invalid, error, eof, whitespace, lineComment, blockComment, null, bool, int, real, timestamp,
    symbol, quotedSymbol, operator, string, longString, annotate, blob, clobOpen, clobClose,
    parenOpen, parenClose, bracketOpen, bracketClose, braceOpen, braceClose, colon, comma]

/-- The name of a token type in messages and dumps. -/
def name : TokenType → String
  | invalid => "invalid"
  | error => "error"
  | eof => "EOF"
  | whitespace => "whitespace"
  | lineComment => "//"
  | blockComment => "/*"
  | null => "null"
  | bool => "bool"
  | int => "int"
  | real => "real"
  | timestamp => "timestamp"
  | symbol => "symbol"
  | quotedSymbol => "quoted-symbol"
  | operator => "operator"
  | string => "string"
  | longString => "long-string"
  | annotate => "annotation"
  | blob => "blob"
  | clobOpen => "\x7b\x7b"
  | clobClose => "\x7d\x7d"
  | parenOpen => "("
  | parenClose => ")"
  | bracketOpen => "["
  | bracketClose => "]"
  | braceOpen => "\x7b"
  | braceClose => "\x7d"
  | colon => ":"
  | comma => ","

/-- The token type with a number; `invalid` when there is none. -/
def ofNumber (n : Nat) : TokenType := all[n]?.getD invalid

/-- The token type with a name; `invalid` when there is none. -/
def ofName (s : Text) : TokenType := (all.find? fun t => utf8 t.name == s).getD invalid

end TokenType

/-- A token with the range and the location of its text. An error token holds its message in
place of a text. -/
structure Token where
  type : TokenType
  text : Text
  span : Span
  location : Location
  deriving DecidableEq, Repr, Inhabited

end FusionKit
