import FusionKit.Text.Lines

/-!
# Pages

The text written so far. Layout decisions look at nothing else: the column, the last byte, and
whether there is a gap at the end. The text is kept last byte first, where all of these are near.
-/
namespace FusionKit

/-- Written text, last byte first. -/
structure Page where
  reversed : Text := []
  deriving DecidableEq, Repr, Inhabited

namespace Page

/-- The text on a page. -/
def text (p : Page) : Text := p.reversed.reverse

/-- Writes a text at the end. -/
def write (p : Page) (t : Text) : Page := ⟨t.reverseAux p.reversed⟩

/-- Writes a literal at the end. -/
def put (p : Page) (s : String) : Page := p.write (utf8 s)

/-- Writes spaces, none for a negative number. -/
def spaces (p : Page) (n : Int) : Page := p.write (Text.repeated (byte ' ') n)

/-- Writes line feeds and the indent of the line after them. -/
def newlines (p : Page) (count indent : Int) : Page :=
  (p.write (Text.repeated (byte '\n') count)).spaces indent

/-- The number of bytes on the last line. -/
def column (p : Page) : Nat := (p.reversed.takeWhile (· != byte '\n')).length

/-- Whether the last byte is one of `choices`. -/
def endsWithOneOf (p : Page) (choices : String) : Bool :=
  match p.reversed with
  | b :: _ => (utf8 choices).contains b
  | [] => false

/-- Whether there are at least two bytes, and the last is a space or a line feed. -/
def endsWithGap (p : Page) : Bool :=
  match p.reversed with
  | b :: _ :: _ => b == byte ' ' || b == byte '\n'
  | _ => false

/-- Writes a space when `condition` holds. -/
def spaceIf (p : Page) (condition : Bool) : Page := if condition then p.put " " else p

theorem text_write (p : Page) (t : Text) : (p.write t).text = p.text ++ t := by
  simp [text, write, List.reverseAux_eq]

end Page

end FusionKit
