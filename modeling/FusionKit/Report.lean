import FusionKit.Check
import FusionKit.Failure
import FusionKit.Text.Lines

/-!
# Reports

What the reader of the output is told: a message, places in sources to look at, and notes. Columns
count bytes from one, and the last column of a highlight belongs to it; a highlight without one
ends with the word at its start.
-/
namespace FusionKit

/-- How serious a report is. -/
inductive Severity where
  | error
  | warning
  | note
  | unknown
  deriving DecidableEq, Repr

/-- The word for a severity. -/
def Severity.name : Severity → String
  | error => "error"
  | warning => "warning"
  | note => "note"
  | unknown => "unknown"

/-- A place to look at. -/
structure Highlight where
  file : Text
  line : Int
  col : Int
  /-- The last column; zero when it is to be found. -/
  endCol : Int := 0
  label : Text := []
  /-- The contents of the file, when they are at hand. -/
  source : Option Text := none
  deriving DecidableEq, Repr

/-- A message with places and notes. -/
structure Report where
  severity : Severity := .error
  message : Text
  highlights : List Highlight := []
  notes : List Text := []
  deriving DecidableEq, Repr

namespace Report

/-- The number of bytes before the end of a line. -/
def lineLength (t : Text) : Nat := (t.takeWhile fun b => b != byte '\r' && b != byte '\n').length

/-- The report of an error in a range of a source. A range of several lines is highlighted up to
the end of its first line. -/
def ofSpan (file source : Text) (span : Span) (message : Text) : Report :=
  let start := Location.locate file source span.start
  let endCol : Int :=
    if span.stop ≤ span.start then start.col
    else
      let last := Location.locate file source (span.stop - 1)
      if last.line = start.line then last.col
      else start.col + lineLength (source.drop start.pos.toNat) - 1
  { message,
    highlights :=
      [{ file, line := start.line, col := start.col, endCol := max endCol start.col,
         source := some source }] }

/-- The report of an error in a range of a source; none when the range starts before the source and
ends on a later line than the first, since then nothing can be highlighted. -/
def ofSpan? (file source : Text) (span : Span) (message : Text) : Option Report :=
  let start := Location.locate file source span.start
  let last := Location.locate file source (span.stop - 1)
  if span.start < 0 && span.start < span.stop && last.line != start.line then none
  else some (ofSpan file source span message)

/-- The report of a failure, at its place if it has one. -/
def ofFailure (f : Failure) (source : Option Text) : Report :=
  match f.place? with
  | none => { message := f.message }
  | some (l, message) =>
    { message, highlights := [{ file := l.file, line := l.line, col := l.col, source }] }

/-- The report of a problem, with a note that names its file. -/
def ofProblem (p : Problem) : Report :=
  let r := ofSpan p.file.name p.file.source p.span p.complaint.message
  { r with notes := if p.file.path.isEmpty then [] else [utf8 "in " ++ p.file.path] }

end Report

end FusionKit
