import FusionKit.Text
import FusionKit.Word

/-!
# Places in a source

A `Span` is a range of offsets, a `Mark` an offset together with its line and column, and a
`Location` names a mark of a file in messages. Lines end at line feeds and columns count bytes;
both start at one. `Location.locate` reads the mark of an offset off the bytes in front of it.
-/
namespace FusionKit

/-- The half-open range of offsets from `start` up to `stop`. -/
structure Span where
  start : Int
  stop : Int
  deriving DecidableEq, Repr, Inhabited

namespace Span

/-- The number of offsets in a span. -/
def length (s : Span) : Int := Word.wrap64 (s.stop - s.start)

/-- The smallest span that covers two spans. -/
def join (s t : Span) : Span := ⟨min s.start t.start, max s.stop t.stop⟩

/-- The part of a source that a span covers; none when the span does not lie in it. -/
def text? (s : Span) (source : Text) : Option Text :=
  if 0 ≤ s.start ∧ s.start ≤ s.stop ∧ s.stop ≤ source.length then
    some ((source.drop s.start.toNat).take (s.stop - s.start).toNat)
  else none

/-- A byte of an excerpt: quotes, tabs and line ends are escaped, nothing else is. -/
def excerptByte (b : UInt8) : Text :=
  if b == byte '"' then utf8 "\\\""
  else if b == byte '\t' then utf8 "\\t"
  else if b == byte '\n' then utf8 "\\n"
  else if b == byte '\r' then utf8 "\\r"
  else [b]

/-- The number of bytes after which an excerpt is cut. -/
def excerptLimit : Nat := 40

/-- The text of a span as dumps show it. -/
def excerpt? (s : Span) (source : Text) : Option Text := do
  let t ← s.text? source
  let shown := (t.take excerptLimit).flatMap excerptByte
  let close := if excerptLimit < t.length then "...\" (truncated)" else "\""
  return byte '"' :: (shown ++ utf8 close)

end Span

/-- An offset with its line and column. -/
structure Mark where
  offset : Nat := 0
  line : Nat := 1
  col : Nat := 1
  deriving DecidableEq, Repr, Inhabited

namespace Mark

/-- The mark behind one byte. -/
def next (m : Mark) (b : UInt8) : Mark :=
  if b == byte '\n' then ⟨m.offset + 1, m.line + 1, 1⟩ else ⟨m.offset + 1, m.line, m.col + 1⟩

/-- The mark behind the bytes of a text that starts at `m`. -/
def after (m : Mark) (t : Text) : Mark := t.foldl next m

end Mark

/-- A place in a named file. -/
structure Location where
  file : Text := []
  pos : Int := 0
  line : Int := 0
  col : Int := 0
  deriving DecidableEq, Repr, Inhabited

namespace Location

/-- The location of a mark of a file. -/
def ofMark (file : Text) (m : Mark) : Location := ⟨file, m.offset, m.line, m.col⟩

/-- The location of an offset of a source; an offset past the end is moved to it. -/
def locate (file source : Text) (pos : Int) : Location :=
  let m := Mark.after {} (source.take pos.toNat)
  ⟨file, min pos source.length, m.line, m.col⟩

/-- A location as messages show it. -/
def render (l : Location) : Text :=
  if l.pos < 0 then l.file
  else if l.line = 0 then l.file ++ utf8 "[" ++ Text.ofInt l.pos ++ utf8 "]"
  else if l.col = 0 then l.file ++ utf8 ":" ++ Text.ofInt l.line
  else l.file ++ utf8 ":" ++ Text.ofInt l.line ++ utf8 ":" ++ Text.ofInt l.col

end Location

end FusionKit
