import FusionKit.Report
import FusionKit.Text.Wrap

/-!
# Rendering reports

A report is shown as a headline, then each place with its line of source and a row of carets
below it, then the notes. Tabs are shown as four blanks. In colour, parts are put between escape
sequences.
-/
namespace FusionKit

/-- When output is in colour. -/
inductive ColorMode where
  /-- On a terminal only. -/
  | auto
  | always
  | never
  deriving DecidableEq, Repr

namespace ColorMode

/-- The name of a mode. -/
def name : ColorMode → String
  | auto => "auto"
  | always => "always"
  | never => "never"

/-- The mode with a name; none given means `auto`. -/
def ofName (t : Text) : Except Failure ColorMode :=
  if t.isEmpty || t == utf8 "auto" then .ok auto
  else if t == utf8 "always" then .ok always
  else if t == utf8 "never" then .ok never
  else
    .error (.other
      (utf8 "invalid color mode " ++ t.quoted ++ utf8 ": expected auto, always or never"))

/-- Whether output that is no terminal is in colour. -/
def isEnabled (m : ColorMode) : Bool := m == always

end ColorMode

/-- The escape sequences around the parts of a report. -/
structure Palette where
  bold : Text := []
  yellow : Text := []
  boldRed : Text := []
  boldBlue : Text := []
  boldCyan : Text := []
  reset : Text := []

/-- The palette with colours. -/
def Palette.colored : Palette where
  bold := utf8 "\x1b[1m"
  yellow := utf8 "\x1b[33m"
  boldRed := utf8 "\x1b[1;31m"
  boldBlue := utf8 "\x1b[1;34m"
  boldCyan := utf8 "\x1b[1;36m"
  reset := utf8 "\x1b[0m"

/-- How reports are shown. -/
structure ReportStyle where
  color : ColorMode := .auto
  /-- The width of the output; the usual one when it is not positive. -/
  width : Int := 0
  /-- Reads a source that a highlight does not bring along. -/
  read : Text → Option Text := fun _ => none

namespace ReportStyle

variable (style : ReportStyle)

/-- The palette of a style. -/
def palette : Palette := if style.color.isEnabled then .colored else {}

/-- The colour and the word of a severity in a headline. -/
def severityMark : Severity → Text × Text
  | .error => (style.palette.boldRed, utf8 "error")
  | .warning => (style.palette.yellow, utf8 "warning")
  | .note => (style.palette.boldCyan, utf8 "note")
  | .unknown => ([], [])

/-- The first line of a report. -/
def headline (r : Report) : Text :=
  let p := style.palette
  let (color, word) := style.severityMark r.severity
  color ++ p.bold ++ word ++ p.reset ++ utf8 ":" ++ p.reset ++ utf8 " " ++ p.bold ++ r.message ++
    p.reset ++ utf8 "\n"

/-- The number of columns before the text of a note. -/
def noteIndent : Nat := 11

/-- The width of the text of notes. -/
def noteWidth : Nat :=
  let width := if style.width ≤ 0 then 80 else style.width
  (max (width - noteIndent) 20).toNat

/-- A note, wrapped. -/
def note (t : Text) : Text :=
  let p := style.palette
  match Text.piecesAt (byte '\n') (t.wrapped style.noteWidth) with
  | [] => []
  | first :: lines =>
    utf8 "   " ++ p.boldCyan ++ utf8 "=" ++ p.reset ++ utf8 " note: " ++ first ++ utf8 "\n" ++
      lines.flatMap fun line => Text.repeated (byte ' ') noteIndent ++ line ++ utf8 "\n"

/-- The length from which on a line of source is not shown, nor any after it. -/
def longLine : Nat := 65536

/-- The source of a highlight. -/
def sourceOf? (h : Highlight) : Option Text :=
  h.source <|> if h.file.isEmpty || h.file == utf8 "<stdin>" then none else style.read h.file

/-- The lines of a source that can be shown. -/
def showableLines (source : Text) : List Text :=
  let pieces := (Text.piecesAt (byte '\n') source).takeWhile (·.length < longLine)
  pieces.map (Text.trimEnd [byte '\r'])

/-- The line of source at a highlight; empty when there is none. -/
def sourceLine (h : Highlight) : Text :=
  if h.line ≤ 0 then []
  else ((style.sourceOf? h).bind fun t => (showableLines t)[h.line.toNat - 1]?).getD []

/-- The place of a highlight. -/
def place (h : Highlight) : Text :=
  if h.line ≤ 0 then h.file
  else if h.col ≤ 0 then h.file ++ utf8 ":" ++ Text.ofInt h.line
  else h.file ++ utf8 ":" ++ Text.ofInt h.line ++ utf8 ":" ++ Text.ofInt h.col

/-- The bytes that end a word. -/
def isWordEnd : Glyph → Bool := Glyph.isCharWith fun c => " \t()[]\x7b\x7d,".toList.contains c

/-- The last column of the word at a column. -/
def wordEnd (line : Text) (col : Int) : Int :=
  if col ≤ 0 || (line.length : Int) < col then col
  else
    let word := (Text.glyphs (line.drop (col.toNat - 1))).takeWhile fun g => !isWordEnd g
    max col (col - 1 + (Text.ofGlyphs word).length)

/-- The number of columns that a text takes with tabs shown. -/
def shownWidth (t : Text) : Nat :=
  (t.glyphs.map fun g => if g == .char '\t' then 4 else 1).foldr (· + ·) 0

/-- The first column of a highlight. -/
def firstCol (h : Highlight) : Int := if h.col ≤ 0 then 1 else h.col

/-- The number of columns of a highlight. -/
def columns (line : Text) (h : Highlight) : Int :=
  let endCol := if h.endCol ≤ 0 then wordEnd line (firstCol h) else h.endCol
  max endCol (firstCol h) - firstCol h + 1

/-- The blanks and the carets below a line for the columns of a highlight. -/
def underline (line : Text) (h : Highlight) : Text × Text :=
  let col := firstCol h
  let before := if 1 < col && col - 1 ≤ line.length then line.take (col.toNat - 1) else []
  (Text.repeated (byte ' ') (shownWidth before), Text.repeated (byte '^') (columns line h))

/-- Whether there is room for the carets of a highlight. -/
def hasRoom (h : Highlight) : Bool :=
  let line := style.sourceLine h
  line.isEmpty || columns line h ≤ Text.maxLength

/-- A place with its line of source. -/
def highlight (h : Highlight) : Text :=
  let p := style.palette
  let line := style.sourceLine h
  let arrow := utf8 "  " ++ p.boldBlue ++ utf8 "-->" ++ p.reset ++ utf8 " " ++ place h ++ utf8 "\n"
  if line.isEmpty then arrow ++ utf8 "   " ++ p.boldBlue ++ utf8 "|" ++ p.reset ++ utf8 "\n"
  else
    let number := Text.ofInt h.line
    let bar (t : Text) : Text := utf8 " " ++ p.boldBlue ++ t ++ utf8 " |" ++ p.reset
    let gap := bar (Text.repeated (byte ' ') number.length)
    let shown := line.flatMap fun b => if b == byte '\t' then utf8 "    " else [b]
    let (blanks, carets) := underline line h
    let label :=
      if h.label.isEmpty then [] else utf8 " " ++ p.boldRed ++ h.label ++ p.reset
    arrow ++ gap ++ utf8 "\n" ++ bar number ++ utf8 "  " ++ shown ++ utf8 "\n" ++ gap ++
      utf8 "  " ++ blanks ++ p.boldRed ++ carets ++ p.reset ++ label ++ utf8 "\n" ++ gap ++
      utf8 "\n"

/-- A report as it is shown. -/
def render (r : Report) : Text :=
  style.headline r ++ r.highlights.flatMap style.highlight ++ r.notes.flatMap style.note

/-- Reports with an empty line between them. -/
def renderAll (rs : List Report) : Text := Text.joinWith (utf8 "\n") (rs.map style.render)

/-- Reports with an empty line between them, if there is room for their highlights. -/
def renderAll? (rs : List Report) : Option Text :=
  if rs.all fun r => r.highlights.all style.hasRoom then some (style.renderAll rs) else none

end ReportStyle

end FusionKit
