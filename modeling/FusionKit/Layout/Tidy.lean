import FusionKit.Layout

/-!
# Tidy newlines

The normal form of newline runs inside lists, s-expressions and structs: none at the start, none
at the end except after a line comment, nothing but newlines means nothing at all, and a form
whose own contents start on a new line starts on a new line itself. Only newline runs come and
go; all else stays in its place.
-/
namespace FusionKit.Node

/-- The items of a form together with what each of them becomes. -/
abbrev Row := List (Node × Node)

/-- Without a newline run at the start, nor at the end unless a line comment comes before it. -/
def trimEdges (row : Row) : Row :=
  let row :=
    match row with
    | (n, t) :: rest => if n.isNewlines then rest else (n, t) :: rest
    | [] => []
  match row.reverse with
  | (last, _) :: (before, t) :: rest =>
    if last.isNewlines && !before.isCommentLine then ((before, t) :: rest).reverse else row
  | _ => row

/-- Nothing, when there are only newline runs. -/
def clearEmpty (row : Row) : Row := if row.all (·.1.isNewlines) then [] else row

/-- Whether there is content, and a newline run in front of everything. -/
def startsOnNewLine (items : List Node) : Bool :=
  items.any isContent && (items.head?.map isNewlines).getD false

/-- The single newline put in front of a node. -/
def breakBefore (n : Node) : Node := ⟨{ kind := .newlines, span := n.span, count := 1 }, []⟩

/-- What the items become, with a newline in front of each form whose contents start on a new
line, unless it stands first or after a newline run. -/
def breakRow (afterBreak : Bool) : Row → List Node
  | [] => []
  | (n, t) :: rest =>
    let others := t :: breakRow n.isNewlines rest
    if n.isCompound && startsOnNewLine n.items && !afterBreak then breakBefore n :: others
    else others

mutual

/-- The tidy form of a node whose edges are trimmed twice: once for itself and once as an item of
another form. -/
def tidyItem : Node → Node
  | ⟨label, items⟩ =>
    if label.kind.isCompound then
      ⟨label, breakRow true (trimEdges (trimEdges (clearEmpty (items.zip (tidyItems items)))))⟩
    else ⟨label, items⟩

/-- The tidy forms of the items of a node. -/
def tidyItems : List Node → List Node
  | [] => []
  | n :: ns => tidyItem n :: tidyItems ns

end

/-- The tidy form of a top-level node. -/
def tidy (n : Node) : Node :=
  if n.isCompound then
    { n with items := breakRow true (trimEdges (clearEmpty (n.items.zip (tidyItems n.items)))) }
  else n

end FusionKit.Node
