import FusionKit.Text.Glyph
import FusionKit.Decimal
import FusionKit.Yaml.Token

/-!
# Scalars as they are written

A scalar is written plain, between quotes, or as a block of lines. In the first two a line break
counts as a space, and each empty line after it as a line feed; what a scalar comes upon between
two words is gathered in a `Gap` until the next word shows that the scalar goes on. A block keeps
its lines, or joins those that are not indented further.

Each reader goes through the characters one by one; what it has read is kept last character first.
-/
namespace FusionKit.Yaml

/-- The blanks and line ends between two words of a scalar. -/
structure Gap where
  /-- The blanks before a line end, last first. -/
  blanks : List Char := []
  /-- Whether there is a line end. -/
  broken : Bool := false
  /-- The first line end, unless it is escaped. -/
  first : Option Char := none
  /-- The line ends after the first, last first. -/
  others : List Char := []
  deriving Repr, Inhabited

namespace Gap

/-- A gap with one more blank. Blanks at the start of a line do not count. -/
def addBlank (g : Gap) (c : Char) : Gap :=
  if g.broken then g else { g with blanks := c :: g.blanks }

/-- A gap with one more line end. -/
def addBreak (g : Gap) (c : Char) : Gap :=
  if g.broken then { g with others := c :: g.others }
  else { blanks := [], broken := true, first := some c, others := g.others }

/-- Whether there is nothing in a gap. -/
def isEmpty (g : Gap) : Bool := !g.broken && g.blanks.isEmpty

/-- What a gap counts as, last character first. -/
def folded (g : Gap) : List Char :=
  if !g.broken then g.blanks
  else if g.first == some '\n' then if g.others.isEmpty then [' '] else g.others
  else g.others ++ g.first.toList

end Gap

/-- Whether a plain scalar ends before a character and what follows it. -/
def endsPlain (inFlow : Bool) (c : Char) (cs : List Char) : Bool :=
  (c == ':' && atWordEnd cs) || (inFlow && [',', '?', '[', ']', '\x7b', '\x7d'].contains c)

/-- What has been read of a scalar. -/
structure Passage where
  /-- The characters read, last first. -/
  read : List Char := []
  gap : Gap := {}
  here : Spot
  deriving Repr, Inhabited

/-- The text of what has been read. -/
def Passage.text (p : Passage) : Text := Text.ofChars p.read.reverse

/-- A plain scalar that has begun at `start`. Lines after the first are indented to column
`indent` at least, unless brackets are open. -/
def plainFrom (inFlow : Bool) (indent : Nat) (start : Mark) (read : List Char) (gap : Gap)
    (m : Mark) : List Char → Except Fault Passage
  | [] => .ok ⟨read, gap, ⟨m, []⟩⟩
  | c :: cs =>
    if isGap c then
      if gap.broken && m.column < indent && c == '\t' then
        .error (Spot.fault ⟨m, c :: cs⟩ start "found a tab character that violates indentation")
      else plainFrom inFlow indent start read (gap.addBlank c) (m.pass c) cs
    else if isBreak c then plainFrom inFlow indent start read (gap.addBreak c) (m.pass c) cs
    else if !gap.isEmpty &&
        ((!inFlow && m.column < indent) || (m.column = 0 && startsDocumentMark (c :: cs)) ||
          c == '#') then
      .ok ⟨read, gap, ⟨m, c :: cs⟩⟩
    else if endsPlain inFlow c cs then .ok ⟨read, gap, ⟨m, c :: cs⟩⟩
    else plainFrom inFlow indent start (c :: (gap.folded ++ read)) {} (m.pass c) cs

/-- The fault of a quoted scalar that does not end where it should. -/
def openQuote (s : Spot) (start : Mark) : Fault :=
  if s.rest.isEmpty then s.fault start "found unexpected end of stream"
  else s.fault start "found unexpected document indicator"

/-- A scalar between single quotes, after the opening one. Two quotes stand for one. -/
def singleFrom (start : Mark) (read : List Char) (gap : Gap) (m : Mark) :
    List Char → Except Fault Passage
  | [] => .error (openQuote ⟨m, []⟩ start)
  | c :: cs =>
    if isGap c then singleFrom start read (gap.addBlank c) (m.pass c) cs
    else if isBreak c then singleFrom start read (gap.addBreak c) (m.pass c) cs
    else if m.column = 0 && startsDocumentMark (c :: cs) then
      .error (openQuote ⟨m, c :: cs⟩ start)
    else if c != '\'' then singleFrom start (c :: (gap.folded ++ read)) {} (m.pass c) cs
    else
      match cs with
      | '\'' :: more =>
        singleFrom start ('\'' :: (gap.folded ++ read)) {} ((m.pass c).pass '\'') more
      | _ => .ok ⟨gap.folded ++ read, {}, ⟨m.pass c, cs⟩⟩

/-- The characters that a letter after a backslash stands for. -/
def escapes : List (Char × Nat) :=
  [('0', 0), ('a', 7), ('b', 8), ('t', 9), ('\t', 9), ('n', 10), ('v', 11), ('f', 12), ('r', 13),
    ('e', 27), (' ', 32), ('"', 34), ('\'', 39), ('\\', 92), ('N', 0x85), ('_', 0xa0),
    ('L', 0x2028), ('P', 0x2029)]

/-- The number of hexadecimal digits after a letter that announces them. -/
def hexWidths : List (Char × Nat) := [('x', 2), ('u', 4), ('U', 8)]

/-- The value of a hexadecimal digit. -/
def hexDigit? (c : Char) : Option Nat := if c.toNat < 0x80 then Decimal.digit? (byte c) else none

/-- What a scalar between double quotes waits for. -/
inductive Expected where
  | anything
  /-- Digits of a character, of which so many are to come, and the value of those before. -/
  | digits (left value : Nat)
  deriving Repr

/-- A scalar between double quotes, after the opening one. -/
def doubleFrom (start : Mark) (read : List Char) (gap : Gap) (m : Mark) :
    Expected → List Char → Except Fault Passage
  | .digits _ _, [] => .error (Spot.fault ⟨m, []⟩ start "did not find expected hexdecimal number")
  | .digits left value, c :: cs =>
    match hexDigit? c with
    | none => .error (Spot.fault ⟨m, []⟩ start "did not find expected hexdecimal number")
    | some d =>
      let value := value * 16 + d
      if 1 < left then doubleFrom start read gap (m.pass c) (.digits (left - 1) value) cs
      else if value.isValidChar then
        doubleFrom start (Char.ofNat value :: read) gap (m.pass c) .anything cs
      else
        .error (Spot.fault ⟨m, []⟩ start "found invalid Unicode character escape code")
  | .anything, [] => .error (openQuote ⟨m, []⟩ start)
  | .anything, c :: cs =>
    if isGap c then doubleFrom start read (gap.addBlank c) (m.pass c) .anything cs
    else if isBreak c then doubleFrom start read (gap.addBreak c) (m.pass c) .anything cs
    else if m.column = 0 && startsDocumentMark (c :: cs) then
      .error (openQuote ⟨m, c :: cs⟩ start)
    else
      let read := gap.folded ++ read
      if c == '"' then .ok ⟨read, {}, ⟨m.pass c, cs⟩⟩
      else if c != '\\' then doubleFrom start (c :: read) {} (m.pass c) .anything cs
      else
        match cs with
        | [] => .error (Spot.fault ⟨m, []⟩ start "found unknown escape character")
        | e :: more =>
          let after := (m.pass c).pass e
          if isBreak e then doubleFrom start read { broken := true } after .anything more
          else
            match hexWidths.lookup e, escapes.lookup e with
            | some width, _ => doubleFrom start read {} after (.digits width 0) more
            | none, some n => doubleFrom start (Char.ofNat n :: read) {} after .anything more
            | none, none => .error (Spot.fault ⟨m, []⟩ start "found unknown escape character")

/-- What becomes of the line ends at the end of a block. -/
inductive Chomping where
  /-- None stays. -/
  | strip
  /-- The first stays. -/
  | clip
  /-- All stay. -/
  | keep
  deriving DecidableEq, Repr, Inhabited

/-- The head of a block: what becomes of its end, and its indent if that is given. -/
structure BlockHead where
  chomping : Chomping := .clip
  indent : Option Nat := none
  deriving Repr, Inhabited

/-- Reads a sign of chomping. -/
def chompingAt? (cs : List Char) : Option Chomping :=
  match cs with
  | '+' :: _ => some .keep
  | '-' :: _ => some .strip
  | _ => none

/-- Reads the digit of an indent. -/
def indentAt? (s : Spot) (start : Mark) : Except Fault (Option Nat) :=
  match s.rest with
  | c :: _ =>
    if c == '0' then .error (s.fault start "found an indentation indicator equal to 0")
    else .ok (if c.isDigit then some (c.toNat - '0'.toNat) else none)
  | [] => .ok none

/-- The head of a block after its first character, and the spot after the line of it. -/
def blockHead (start : Mark) (s : Spot) : Except Fault (BlockHead × Spot) := do
  let (head, s) ←
    match chompingAt? s.rest with
    | some chomping => do
      let s := s.drop 1
      match ← indentAt? s start with
      | some n => pure (BlockHead.mk chomping (some n), s.drop 1)
      | none => pure (BlockHead.mk chomping none, s)
    | none => do
      match ← indentAt? s start with
      | some n =>
        let s := s.drop 1
        match chompingAt? s.rest with
        | some chomping => pure (BlockHead.mk chomping (some n), s.drop 1)
        | none => pure (BlockHead.mk .clip (some n), s)
      | none => pure ({}, s)
  let s := s.skipWhile isGap
  let s := if startsWith '#' s.rest then s.skipWhile (!isBreak ·) else s
  if !atLineEnd s.rest then
    .error (s.fault start "did not find expected comment or line break")
  return (head, s.drop 1)

/-- What has been read of a block. -/
structure BlockState where
  /-- The indent of the lines, once it is known. -/
  indent : Option Nat
  /-- The largest column that a line without text reaches. -/
  deepest : Nat := 0
  read : List Char := []
  /-- The line end of the last line with text. -/
  lineEnd : Option Char := none
  /-- The line ends after it, last first. -/
  breaks : List Char := []
  /-- Whether the last line with text starts with a blank. -/
  afterBlank : Bool := false
  deriving Repr, Inhabited

namespace BlockState

/-- The indent of a block whose first line with text has been found. -/
def settled (b : BlockState) (least : Nat) : Nat :=
  b.indent.getD (max (max b.deepest least) 1)

/-- Starts a line with text. In a folded block the break before it is a space, or nothing if empty
lines follow, unless one of the two lines starts with a blank. -/
def startLine (folds : Bool) (b : BlockState) (c : Char) : BlockState :=
  let joins := folds && !b.afterBlank && !isGap c && b.lineEnd == some '\n'
  let read :=
    if joins then if b.breaks.isEmpty then ' ' :: b.read else b.read
    else b.lineEnd.toList ++ b.read
  { b with
    read := c :: (b.breaks ++ read), lineEnd := none, breaks := [], afterBlank := isGap c }

/-- The text of a block that has ended. -/
def text (b : BlockState) (chomping : Chomping) : Text :=
  let read :=
    match chomping with
    | .strip => b.read
    | .clip => b.lineEnd.toList ++ b.read
    | .keep => b.breaks ++ (b.lineEnd.toList ++ b.read)
  Text.ofChars read.reverse

/-- Whether a line has not reached the indent of a block. -/
def isShort (b : BlockState) (column : Nat) : Bool :=
  match b.indent with
  | none => true
  | some n => column < n

end BlockState

/-- The lines of a block. `inLine` tells that the text of a line has begun; lines are indented to
column `least` at least. -/
def blockFrom (folds : Bool) (least : Nat) (start : Mark) (inLine : Bool) (b : BlockState)
    (m : Mark) : List Char → Except Fault (BlockState × Spot)
  | [] => .ok (b, ⟨m, []⟩)
  | c :: cs =>
    if inLine then
      if isBreak c then
        blockFrom folds least start false { b with lineEnd := some c } (m.pass c) cs
      else blockFrom folds least start true { b with read := c :: b.read } (m.pass c) cs
    else if c == ' ' && b.isShort m.column then
      let b := { b with deepest := max b.deepest (m.column + 1) }
      blockFrom folds least start false b (m.pass c) cs
    else if c == '\t' && b.isShort m.column then
      .error (Spot.fault ⟨m, []⟩ start
        "found a tab character where an indentation space is expected")
    else if isBreak c then
      blockFrom folds least start false { b with breaks := c :: b.breaks } (m.pass c) cs
    else
      let indent := b.settled least
      let b := { b with indent := some indent }
      if m.column = indent then
        blockFrom folds least start true (b.startLine folds c) (m.pass c) cs
      else .ok (b, ⟨m, c :: cs⟩)

/-- A block scalar after its first character, in a collection whose indent is `indent`. -/
def blockScalar (folds : Bool) (indent : Int) (start : Mark) (s : Spot) :
    Except Fault (Text × Spot) := do
  let (head, s) ← blockHead start s
  let given := head.indent.map fun n => if 0 ≤ indent then indent.toNat + n else n
  let (b, s) ←
    blockFrom folds (indent + 1).toNat start false { indent := given } s.mark s.rest
  return (b.text head.chomping, s)

end FusionKit.Yaml
