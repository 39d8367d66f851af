import FusionKit.Layout
import FusionKit.Settings

/-!
# Indents of s-expressions

Where the lines of an s-expression after its first one start. That depends on what stands on the
first line and on the symbol at the head.
-/
namespace FusionKit

/-- How the further lines of an s-expression are indented. -/
inductive IndentStyle where
  /-- One column past the opening parenthesis. -/
  | endOfOpening
  /-- Under the first argument after the head symbol. -/
  | endOfOpeningSymbol
  /-- Two columns past the opening parenthesis. -/
  | fixed
  deriving DecidableEq, Repr

namespace IndentStyle

/-- The name of a style. -/
def name : IndentStyle → String
  | endOfOpening => "end-of-opening"
  | endOfOpeningSymbol => "end-of-opening-symbol"
  | fixed => "fixed"

/-- The styles in the order of their numbers. -/
def all : List IndentStyle := [endOfOpening, endOfOpeningSymbol, fixed]

/-- The name of the style with a number. -/
def nameOfNumber (n : Int) : String :=
  if n < 0 then "undetermined" else ((all[n.toNat]?).map name).getD "undetermined"

end IndentStyle

/-- More line breaks than this make a form headed by a smart symbol large. -/
def largeForm : Int := 3

namespace Settings

/-- The style of an s-expression with the given items whose parenthesis stands in column
`opening`, and the column of its first argument where that matters. -/
def continuation (s : Settings) (items : List Node) (opening : Int) : IndentStyle × Int :=
  match items with
  | [] => (.endOfOpening, 0)
  | first :: _ =>
    match first.symbol? with
    | none => (if first.kind = .sexpr then .fixed else .endOfOpening, 0)
    | some symbol =>
      let alone := Node.contentBeforeBreak items = 1
      let col := if alone then 0 else Word.wrap64 (opening + symbol.length + 2)
      let large := s.isSmartIndent symbol && decide (largeForm < Node.breaksOf items)
      if alone || s.isFixedIndent symbol || large then (.fixed, col)
      else (.endOfOpeningSymbol, col)

/-- The column in which the further lines of an s-expression start. -/
def continuationColumn (s : Settings) (items : List Node) (opening : Int) : Int :=
  match s.continuation items opening with
  | (.endOfOpening, _) => Word.wrap64 (opening + 1)
  | (.fixed, _) => Word.wrap64 (opening + 2)
  | (.endOfOpeningSymbol, col) => col

end Settings

namespace Node

/-- Whether a node is the symbol that encloses the arguments of a lambda. -/
def isPipe (n : Node) : Bool := n.symbol? == some (utf8 "|")

/-- For each item of an s-expression, whether a space follows it. Pipes stand tight against the
arguments between them; `argList` tells that a pipe came first. -/
def spacingAfter (argList : Bool) : List Node → List Bool
  | [] => []
  | n :: ns =>
    let space :=
      if argList && n.isPipe then true
      else
        match ns with
        | [] => false
        | next :: _ => !(argList && next.isPipe) && !n.isNewlines
    space :: spacingAfter argList ns

/-- For each item of an s-expression, whether a space follows it. -/
def spacing : List Node → List Bool
  | [] => []
  | n :: ns => if n.isPipe then false :: spacingAfter true ns else spacingAfter false (n :: ns)

end Node

end FusionKit
