import FusionKit.Text.Blank
import FusionKit.Text.Width

/-!
# Word wrap

A text broken into lines of a limited width, measured in terminal cells. Lines break at blanks,
which are then dropped, and after hyphens; a word that is too wide for any line stays whole.
Escape sequences, from the escape character up to a letter, take no room.
-/
namespace FusionKit.Wrap

/-- Whether a character starts an escape sequence. -/
def isEscape (c : Char) : Bool := c == '\x1b'

/-- Whether a character ends an escape sequence. -/
def endsEscape (c : Char) : Bool := c.isAlpha || c == '@'

/-- The number of cells of a text with escape sequences; `inEscape` says whether it starts within
one. -/
def width (inEscape : Bool) : List Char → Nat
  | [] => 0
  | c :: cs =>
    if isEscape c then width true cs
    else if inEscape then width (!endsEscape c) cs
    else cells c + width false cs

/-- What is written so far: finished text, then blanks and a word that are not placed yet. -/
structure State where
  done : List Char := []
  blanks : List Char := []
  word : List Char := []
  /-- The length of the last line of `done`. -/
  length : Nat := 0
  inEscape : Bool := false

namespace State

/-- The number of bytes of the blanks. -/
def blankSize (s : State) : Nat := (Text.ofChars s.blanks).length

/-- Places the blanks. -/
def placeBlanks (s : State) : State :=
  { s with done := s.done ++ s.blanks, length := s.length + s.blankSize, blanks := [] }

/-- Places the word, if there is one, and the blanks before it. -/
def placeWord (s : State) : State :=
  if s.word.isEmpty then s
  else
    let s := s.placeBlanks
    { s with done := s.done ++ s.word, length := s.length + width false s.word, word := [] }

/-- Starts a line; blanks that are not placed are dropped. -/
def breakLine (s : State) : State :=
  { s with done := s.done ++ ['\n'], length := 0, blanks := [] }

/-- Keeps blanks at the end of a line when they fit there and no word follows them. -/
def settleBlanks (limit : Nat) (s : State) : State :=
  if !s.word.isEmpty then s
  else if limit < s.length + s.blankSize then { s with length := 0, blanks := [] }
  else { s with done := s.done ++ s.blanks, blanks := [] }

/-- One more character. -/
def next (limit : Nat) (s : State) (c : Char) : State :=
  if isEscape c then { s with word := s.word ++ [c], inEscape := true }
  else if s.inEscape then { s with word := s.word ++ [c], inEscape := !endsEscape c }
  else if c == '\n' then (s.settleBlanks limit).placeWord.breakLine
  else if isBlank c then
    let s := s.placeWord
    { s with blanks := s.blanks ++ [c] }
  else if c == '-' then
    let s := s.placeBlanks.placeWord
    { s with done := s.done ++ [c] }
  else
    let s := { s with word := s.word ++ [c] }
    let wide := width false s.word
    if limit < s.length + s.blankSize + wide && wide < limit then s.breakLine else s

end State

end FusionKit.Wrap

namespace FusionKit

/-- A text wrapped to a number of cells. Blanks at its end are dropped. -/
def Text.wrapped (limit : Nat) (t : Text) : Text :=
  Text.ofChars (t.chars.foldl (Wrap.State.next limit) {}).placeWord.done

end FusionKit
