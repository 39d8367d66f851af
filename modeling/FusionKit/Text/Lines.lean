import FusionKit.Text.Blank

/-!
# Lines and indents

The measurements of text on which layout decisions rest: line breaks, the column after the last
byte, indents and their common part. A line break is a carriage return, a line feed, or the two
in this order; a line of `Text.lines` ends at a line feed.
-/
namespace FusionKit.Text

/-- The number of line breaks: a carriage return and a line feed right after it are one. -/
def countBreaks : Text → Nat
  | [] => 0
  | [b] => if b == byte '\r' || b == byte '\n' then 1 else 0
  | b :: c :: t =>
    if b == byte '\r' then
      if c == byte '\n' then countBreaks t + 1 else countBreaks (c :: t) + 1
    else if b == byte '\n' then countBreaks (c :: t) + 1
    else countBreaks (c :: t)

/-- The number of bytes after the last line feed. -/
def column (t : Text) : Nat := (t.reverse.takeWhile (· != byte '\n')).length

/-- Whether a text of at least two bytes ends with a space or a line feed. -/
def endsWithGap (t : Text) : Bool :=
  match t.reverse with
  | b :: _ :: _ => b == byte ' ' || b == byte '\n'
  | _ => false

/-- Whether the last byte is one of `choices`. -/
def endsWithOneOf (choices t : Text) : Bool :=
  match t.getLast? with
  | some b => choices.contains b
  | none => false

/-- Whether a byte counts as indent. -/
def isIndent (b : UInt8) : Bool := b == byte ' ' || b == byte '\t'

/-- The number of spaces and tabs at the start of a text. -/
def indentLength (t : Text) : Nat := (t.takeWhile isIndent).length

/-- The lines of a text. A final line feed starts no further line, and a carriage return at the
end of a line is no part of it. -/
def lines (t : Text) : List Text :=
  if t.isEmpty then []
  else
    let pieces := piecesAt (byte '\n') t
    let kept := if pieces.getLast? == some [] then pieces.dropLast else pieces
    kept.map (trimEnd [byte '\r'])

/-- The smallest indent of the lines that are not all white space; zero when there is none. -/
def commonIndent (t : Text) : Nat :=
  (((lines t).filter fun line => !isAllBlank line).map indentLength).min?.getD 0

/-- Drops a space or tab while no more than `limit` of them were seen on its line. -/
def dropIndent (limit : Nat) : Nat → Text → Text
  | _, [] => []
  | seen, b :: t =>
    if isIndent b then
      if limit < seen + 1 then b :: dropIndent limit (seen + 1) t else dropIndent limit (seen + 1) t
    else if b == byte '\n' then b :: dropIndent limit 0 t
    else b :: dropIndent limit seen t

/-- The text without the indent that its lines have in common. -/
def trimIndent (t : Text) : Text := dropIndent (commonIndent t) 0 t

/-- Puts `pad` before the first byte of every line but the first that has one. -/
def padLines (pad : Text) : Bool → Text → Text
  | _, [] => []
  | fresh, b :: t =>
    if b == byte '\n' then b :: padLines pad true t
    else if fresh then pad ++ b :: padLines pad false t
    else b :: padLines pad false t

/-- The text with every line after the first moved right by `indent` columns, empty lines
excepted. -/
def indentLines (indent : Int) (t : Text) : Text := padLines (repeated (byte ' ') indent) false t

/-- The text with its lines moved right, if there is room for the indent. -/
def indentLines? (indent : Int) (t : Text) : Option Text :=
  if indent ≤ maxLength then some (indentLines indent t) else none

/-- The text with the blanks at the end of each line dropped and each line ended by a line
feed. -/
def trimLineEnds (t : Text) : Text :=
  (lines t).flatMap fun line => dropEndWhile isSpace line ++ [byte '\n']

end FusionKit.Text
