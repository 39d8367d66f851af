import FusionKit.Yaml.Source

/-!
# Tokens of YAML

The words of a document, with the marks at which they start, and the spots between characters that
a scanner goes through. A scanner sees line ends in one form: `unified` makes a line feed of the
other spellings of a line break, and leaves the two separators that stand for themselves.
-/
namespace FusionKit.Yaml

/-- A place in a document: the number of characters before it, its line and its column, counted
from zero. -/
structure Mark where
  index : Nat := 0
  line : Nat := 0
  column : Nat := 0
  deriving DecidableEq, Repr, Inhabited

/-- The kinds of tokens, with what they say. -/
inductive TokenKind where
  | streamStart
  | streamEnd
  | version (major minor : Nat)
  /-- A handle of tags and what it stands for. -/
  | tagHandle (handle meaning : Text)
  | documentStart
  | documentEnd
  /-- An indent opens a sequence. -/
  | sequenceStart
  /-- An indent opens a mapping. -/
  | mappingStart
  /-- An indent closes. -/
  | blockEnd
  | bracketOpen
  | bracketClose
  | braceOpen
  | braceClose
  | comma
  | dash
  | key
  | value
  | reference (name : Text)
  | anchor (name : Text)
  | tag (handle suffix : Text)
  | scalar (plain : Bool) (t : Text)
  deriving DecidableEq, Repr, Inhabited

/-- A token and where it starts. -/
structure Token where
  kind : TokenKind
  mark : Mark
  deriving DecidableEq, Repr, Inhabited

/-- Whether a character ends a line. -/
def isBreak (c : Char) : Bool := c == '\n' || c == '\u2028' || c == '\u2029'

/-- Whether a character is a blank inside a line. -/
def isGap (c : Char) : Bool := c == ' ' || c == '\t'

/-- Whether a word ends here: at a blank, a line end or the end of the document. -/
def atWordEnd : List Char → Bool
  | [] => true
  | c :: _ => isGap c || isBreak c

/-- Whether a line ends here. -/
def atLineEnd : List Char → Bool
  | [] => true
  | c :: _ => isBreak c

/-- Whether characters start with a given one. -/
def startsWith (c : Char) (cs : List Char) : Bool := cs.head? == some c

/-- Whether characters start with a mark between documents. -/
def startsDocumentMark (cs : List Char) : Bool :=
  (['-', '-', '-'].isPrefixOf cs || ['.', '.', '.'].isPrefixOf cs) && atWordEnd (cs.drop 3)

/-- Whether a character may stand in a name. -/
def isNameChar (c : Char) : Bool := c.isAlphanum || c == '_' || c == '-'

/-- The characters with every line break that is spelled otherwise as a line feed. -/
def unified : List Char → List Char
  | [] => []
  | '\r' :: '\n' :: cs => '\n' :: unified cs
  | c :: cs => (if c == '\r' || c == '\u0085' then '\n' else c) :: unified cs

namespace Mark

/-- The mark after a character. -/
def pass (m : Mark) (c : Char) : Mark :=
  if isBreak c then ⟨m.index + 1, m.line + 1, 0⟩ else ⟨m.index + 1, m.line, m.column + 1⟩

end Mark

/-- A spot between two characters. -/
structure Spot where
  mark : Mark := {}
  rest : List Char
  deriving Repr, Inhabited

namespace Spot

/-- The spot after some characters. -/
def drop (s : Spot) (n : Nat) : Spot :=
  ⟨(s.rest.take n).foldl Mark.pass s.mark, s.rest.drop n⟩

/-- The characters that satisfy `p`, and the spot after them. -/
def span (p : Char → Bool) (s : Spot) : List Char × Spot :=
  let taken := s.rest.takeWhile p
  (taken, s.drop taken.length)

/-- The spot after the characters that satisfy `p`. -/
def skipWhile (p : Char → Bool) (s : Spot) : Spot := (s.span p).2

/-- The fault of a token that starts at `start` and goes wrong here. -/
def fault (s : Spot) (start : Mark) (reason : String) : Fault :=
  .token start.line s.mark.line reason

end Spot

end FusionKit.Yaml
