import FusionKit.Text.Letter
import FusionKit.Yaml.Scalar.Write

/-!
# Writing YAML

Documents of texts, lists and mappings, written in block style. What a key or an entry holds is
indented by two columns below it; an empty list is written in place.

Keys have a natural order, in which runs of digits count as numbers.
-/
namespace FusionKit.Yaml

/-- A document. -/
inductive Document where
  | text (t : Text)
  | list (items : List Document)
  | mapping (entries : List (Text × Document))
  deriving Inhabited

/-- A text up to the start of a line. -/
def ended (t : Text) : Text := if t.chars.getLast?.any isLineEnd then t else t ++ utf8 "\n"

namespace Document

/-- Whether a document is written in place. -/
def isFlat : Document → Bool
  | text _ => true
  | list items => items.isEmpty
  | mapping entries => entries.isEmpty

mutual

/-- A document that starts at column `n`, up to the start of a line. -/
def write (n : Nat) : Document → Text
  | .text t => ended ((ScalarForm.ofText t).render n)
  | .list items => if items.isEmpty then utf8 "[]\n" else (writeItems n items).drop n
  | .mapping entries =>
    if entries.isEmpty then utf8 "\x7b\x7d\n" else (writeEntries n entries).drop n

/-- The items of a list at column `n`. -/
def writeItems (n : Nat) : List Document → Text
  | [] => []
  | d :: ds => spaces n ++ utf8 "- " ++ d.write (n + 2) ++ writeItems n ds

/-- The entries of a mapping at column `n`. A key that cannot stand on the line of its value has
a mark of its own. -/
def writeEntries (n : Nat) : List (Text × Document) → Text
  | [] => []
  | (key, value) :: entries =>
    let k := ScalarForm.ofText key
    let written := k.render (n + 2)
    let below := value.write (n + 2)
    (if !k.isShortKey then
      spaces n ++ utf8 "? " ++ ended written ++ spaces n ++ utf8 ": " ++ below
    else if value.isFlat then spaces n ++ written ++ utf8 ": " ++ below
    else spaces n ++ written ++ utf8 ":\n" ++ spaces (n + 2) ++ below) ++
      writeEntries n entries

end

/-- A document as it is written. -/
def render (d : Document) : Text := d.write 0

end Document

/-- The number that a run of digits spells after a start, in words of 64 bits. -/
def runValue (start : Int) (run : List Char) : Int :=
  run.foldl (fun n c => Int.bmod (n * 10 + (c.toNat - '0'.toNat : Int)) UInt64.size) start

/-- The order of two names from their first difference on. `inDigits` says whether the characters
before it are digits, and `counted` whether a nonzero one is among these. -/
def divergentLt (inDigits counted : Bool) (a b : Char) (as bs : List Char) : Bool :=
  if isLetter a && isLetter b then a < b
  else if isLetter a || isLetter b then if inDigits then isLetter a else isLetter b
  else
    let start : Int := if (a == '0' || b == '0') && counted then 1 else 0
    let aRun := (a :: as).takeWhile isDecimalDigit
    let bRun := (b :: bs).takeWhile isDecimalDigit
    let aValue := runValue start aRun
    let bValue := runValue start bRun
    if aValue != bValue then aValue < bValue
    else if aRun.length != bRun.length then aRun.length < bRun.length
    else a < b

/-- The natural order of names. -/
def naturalLt (inDigits counted : Bool) : List Char → List Char → Bool
  | [], bs => !bs.isEmpty
  | _ :: _, [] => false
  | a :: as, b :: bs =>
    if a == b then
      let digit := isDecimalDigit a
      naturalLt digit (digit && (counted || a != '0')) as bs
    else divergentLt inDigits counted a b as bs

/-- Entries in the natural order of their names. -/
def naturallySorted {β : Type} (entries : List (Text × β)) : List (Text × β) :=
  entries.mergeSort fun a b => !naturalLt false false b.1.chars a.1.chars

end FusionKit.Yaml
