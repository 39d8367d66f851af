import FusionKit.Node.Dump
import FusionKit.Text.Lines

/-!
# Layout trees

The tree that is printed: the tree of a source with struct members dissolved into keys and
values, so that a struct is one row of keys, values, comments and newline runs. Trees built by
hand may be malformed; laying them out reports the first node that is out of place.
-/
namespace FusionKit

/-- A node that is out of place. -/
inductive LayoutFault where
  | outsideStruct (kind : Kind) (span : Span)
  | invalid (span : Span)
  | insideStruct (kind : Kind) (span : Span)
  | insideClob (kind : Kind) (span : Span)
  deriving DecidableEq, Repr

/-- The message for a misplaced node. -/
def LayoutFault.message (f : LayoutFault) : Text :=
  let at_ (what : Text) (span : Span) : Text :=
    utf8 "syntax tree invariant violated: " ++ what ++ utf8 " at [" ++ Text.ofInt span.start ++
      utf8 ", " ++ Text.ofInt span.stop ++ utf8 ")"
  match f with
  | outsideStruct kind span => at_ (utf8 kind.name ++ utf8 " outside of a struct") span
  | invalid span => at_ (utf8 "invalid node") span
  | insideStruct kind span => at_ (utf8 kind.name ++ utf8 " directly inside a struct") span
  | insideClob kind span => at_ (utf8 kind.name ++ utf8 " inside a clob") span

namespace Node

/-- Whether a node may be an item of a clob. -/
def fitsClob (n : Node) : Bool :=
  match n.kind with
  | .quotedString | .multilineString | .newlines => true
  | _ => false

mutual

/-- The layout tree of a node. -/
def layout : Node → Except LayoutFault Node
  | ⟨label, items⟩ =>
    match label.kind with
    | .list | .sexpr => do return ⟨label, ← layoutAll items⟩
    | .struct => do return ⟨label, ← layoutStruct items⟩
    | .clob => do
      let laid ← layoutAll items
      match laid.find? fun n => !n.fitsClob with
      | some n => .error (.insideClob n.kind n.span)
      | none => return ⟨label, laid⟩
    | .structMember | .structKey => .error (.outsideStruct label.kind label.span)
    | .invalid => .error (.invalid label.span)
    | _ => .ok ⟨label, []⟩

/-- The layout trees of some nodes. -/
def layoutAll : List Node → Except LayoutFault (List Node)
  | [] => .ok []
  | n :: ns => do
    let first ← layout n
    let others ← layoutAll ns
    return first :: others

/-- The layout trees of the items of a struct. -/
def layoutStruct : List Node → Except LayoutFault (List Node)
  | [] => .ok []
  | ⟨label, items⟩ :: ns => do
    let first ←
      if label.kind = .structMember then layoutMember items
      else if label.kind.isComment || label.kind == .newlines then
        .ok [⟨label, []⟩]
      else .error (.insideStruct label.kind label.span)
    let others ← layoutStruct ns
    return first ++ others

/-- The layout trees of the items of a struct member. -/
def layoutMember : List Node → Except LayoutFault (List Node)
  | [] => .ok []
  | n :: ns => do
    let first ←
      if n.kind = .structKey then
        .ok ⟨{ kind := .structKey, span := n.span, value := n.value }, []⟩
      else layout n
    let others ← layoutMember ns
    return first :: others

end

/-- The line breaks among the items of a clob; a long string counts its bytes. -/
def clobBreaks (items : List Node) : Int :=
  (items.map fun n =>
    match n.kind with
    | .multilineString => (n.value.length : Int)
    | .newlines => n.label.count
    | _ => 0).foldr (fun a b => Word.wrap64 (a + b)) 0

mutual

/-- The line breaks that a layout tree takes. -/
def breaks : Node → Int
  | ⟨label, items⟩ =>
    match label.kind with
    | .commentLine => 1
    | .commentBlock => label.lines.length
    | .newlines => label.count
    | .multilineString => label.value.countBreaks
    | .list | .sexpr | .struct => breaksOf items
    | .clob => clobBreaks items
    | _ => 0

/-- The line breaks that some layout trees take. -/
def breaksOf : List Node → Int
  | [] => 0
  | n :: ns => Word.wrap64 (n.breaks + breaksOf ns)

end

/-- How many nodes that are neither comments nor newline runs come before the first newline
run. -/
def contentBeforeBreak : List Node → Nat
  | [] => 0
  | n :: ns =>
    if n.isContent then contentBeforeBreak ns + 1
    else if n.isNewlines then 0
    else contentBeforeBreak ns

/-- What the dump of a layout tree tells of a node beside its range. -/
def layoutDetail (n : Node) : Text :=
  match n.kind with
  | .newlines => utf8 " count=" ++ Text.ofInt n.label.count
  | .commentBlock => utf8 " lines=" ++ Text.quotedList n.label.lines
  | .list | .sexpr | .struct | .clob =>
    utf8 " newlines=" ++ Text.ofInt n.breaks ++ utf8 " before_newline=" ++
      Text.ofNat (contentBeforeBreak n.items)
  | _ => utf8 " value=" ++ n.value.quoted

/-- The dump of the layout tree of a source. -/
def dumpLayout? (source : Text) (nodes : List Node) : Option Text :=
  (dumpLinesAll? layoutDetail source 0 nodes).map List.flatten

end Node

end FusionKit
