import FusionKit.Layout.Indent
import FusionKit.Layout.Page
import FusionKit.Layout.Tidy

/-!
# Printing layout trees

Each node is written after what is on the page already; the indent given to a node is the column
after a newline that is written for it. Forms compute the columns of their items themselves.
-/
namespace FusionKit

namespace Page

/-- Writes annotations. -/
def annotations (p : Page) (l : Label) : Page := p.write l.annotations.flatten

/-- Writes a scalar with its annotations. -/
def scalar (p : Page) (l : Label) : Page :=
  let p := p.annotations l
  match l.kind with
  | .quotedString => ((p.put "\"").write l.value).put "\""
  | .blob =>
    let p := p.put "\x7b\x7b"
    (if l.value.isEmpty then p else (p.put " ").write l.value).put " \x7d\x7d"
  | _ => p.write l.value

/-- Writes the items of a clob, each after a gap. -/
def clobItem (indent : Int) (p : Page) (n : Node) : Page :=
  let p := p.spaceIf (!n.isNewlines && !p.endsWithGap)
  match n.kind with
  | .newlines => p.newlines n.label.count indent
  | .multilineString => ((p.put "'''").write n.value).put "'''"
  | _ => p.scalar n.label

/-- Writes a clob. -/
def clob (p : Page) (indent : Int) (l : Label) (items : List Node) : Page :=
  let p := (p.annotations l).put "\x7b\x7b"
  let inner : Int := if Node.contentBeforeBreak items = 0 then indent + 1 else p.column + 1
  let p := items.foldl (clobItem inner) p
  (p.spaceIf (!p.endsWithGap)).put "\x7d\x7d"

/-- Writes the lines of a block comment after the first, each behind a star in column `indent`;
an empty last line is left out. -/
def commentRest (indent : Nat) (p : Page) : List Text → Page
  | [] => p
  | line :: rest =>
    let blank := line.isAllBlank
    if blank && rest.isEmpty then p
    else
      let p := ((p.spaces indent).put "*").spaceIf (!blank)
      commentRest indent ((p.write line).put "\n") rest

/-- Writes a block comment whose continuation lines start with a star under the first one. -/
def blockComment (p : Page) (lines : List Text) : Page :=
  let indent := p.column + 1
  let p := p.put "/*"
  match lines with
  | [line] => (((p.put " ").write line.strip).put " ").put "*/"
  | [] => p.put "*/"
  | line :: rest =>
    let p := ((p.spaceIf (!line.isAllBlank)).write line).put "\n"
    ((commentRest indent p rest).spaces indent).put "*/"

/-- Writes a long string, its contents moved to its column if so set. -/
def longString (p : Page) (s : Settings) (l : Label) : Page :=
  let p := p.annotations l
  let col := p.column
  let contents :=
    if s.formatLongStrings then l.value.trimIndent.indentLines col else l.value
  let p := (p.put "'''").write (Text.dropEndWhile Text.isIndent contents)
  (if p.endsWithOneOf "\n" then p.spaces col else p).put "'''"

/-- Writes the key of a struct member. -/
def structKey (p : Page) (l : Label) : Page :=
  ((p.spaceIf (!p.endsWithOneOf "\n")).write l.value).put ":"

end Page

namespace Node

/-- The indent after a newline run of a struct whose brace stands in column `opening`: under the
keys before a key, further in before a value, under the brace when nothing follows. -/
def structIndent (opening : Int) (rest : List Node) : Int :=
  match rest.find? fun n => n.isValue || n.isStructKey with
  | none => opening
  | some n => if n.isStructKey then opening + 1 else opening + 4

/-- Writes a comma when another value follows a value. -/
def comma (p : Page) (n : Node) (rest : List Node) : Page :=
  if n.isValue && rest.any isValue then p.put "," else p

mutual

/-- Writes a node. -/
def print (s : Settings) (indent : Int) (p : Page) : Node → Page
  | ⟨label, items⟩ =>
    match label.kind with
    | .clob => p.clob indent label items
    | .commentBlock => p.blockComment label.lines
    | .commentLine => (p.write label.value).spaces indent
    | .multilineString => p.longString s label
    | .newlines => p.newlines label.count indent
    | .structKey => p.structKey label
    | .list =>
      let p := p.annotations label
      (printList s p.column (p.put "[") items).put "]"
    | .sexpr =>
      let p := p.annotations label
      (printSExpr s (s.continuationColumn items p.column) (p.put "(") items (spacing items)).put ")"
    | .struct =>
      let p := p.annotations label
      let p := printStruct s p.column (p.put "\x7b") items
      (p.spaceIf (!p.endsWithOneOf "\x7b\x7d \n")).put "\x7d"
    | _ => p.scalar label

/-- Writes the items of a list whose bracket stands in column `opening`. -/
def printList (s : Settings) (opening : Int) (p : Page) : List Node → Page
  | [] => p
  | n :: ns =>
    let p := p.spaceIf (!n.isNewlines && p.endsWithOneOf ",")
    let indent := if n.isNewlines && ns.isEmpty then opening else opening + 1
    printList s opening (comma (print s indent p n) n ns) ns

/-- Writes the items of an s-expression, with spaces after those that have one. -/
def printSExpr (s : Settings) (indent : Int) (p : Page) : List Node → List Bool → Page
  | n :: ns, gaps =>
    printSExpr s indent ((print s indent p n).spaceIf (gaps.head?.getD false)) ns gaps.tail
  | [], _ => p

/-- Writes the items of a struct whose brace stands in column `opening`. -/
def printStruct (s : Settings) (opening : Int) (p : Page) : List Node → Page
  | [] => p
  | n :: ns =>
    if n.isNewlines then printStruct s opening (print s (structIndent opening ns) p n) ns
    else
      let p := p.spaceIf (p.endsWithOneOf ":/" || n.isComment)
      printStruct s opening (comma (print s 0 p n) n ns) ns

end

mutual

/-- Whether there is room for the newline runs of a node. -/
def hasRoom : Node → Bool
  | ⟨label, items⟩ => (label.kind != .newlines || label.count ≤ Text.maxLength) && haveRoom items

/-- Whether there is room for the newline runs of some nodes. -/
def haveRoom : List Node → Bool
  | [] => true
  | n :: ns => hasRoom n && haveRoom ns

end

/-- The printed form of a layout tree: the newline runs tidied if so set, the nodes one after the
other, and no blanks at the ends of lines. -/
def printed (s : Settings) (nodes : List Node) : Text :=
  let nodes := if s.fixesNewlines then nodes.map tidy else nodes
  (nodes.foldl (fun p n => print s 0 p n) {}).text.trimLineEnds

/-- The printed form of a layout tree, if there is room for its newline runs. -/
def printed? (s : Settings) (nodes : List Node) : Option Text :=
  if haveRoom (if s.fixesNewlines then nodes.map tidy else nodes) then some (printed s nodes)
  else none

end Node

end FusionKit
