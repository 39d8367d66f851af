import FusionKit.Node
import FusionKit.Text.Quoted

/-!
# Dumps of trees

An indented listing of a tree, one line for each node, with the part of the source that the node
covers. There is none when a node covers what is not in the source.
-/
namespace FusionKit

/-- Two spaces for each level. -/
def dumpIndent (depth : Nat) : Text := List.replicate (2 * depth) (byte ' ')

namespace Label

/-- The part of a dump line that all kinds share. -/
def dumpHead? (l : Label) (source : Text) (depth : Nat) : Option Text := do
  let excerpt ← l.span.excerpt? source
  let notes :=
    if l.annotations.isEmpty then [] else utf8 " annotations=" ++ Text.quotedList l.annotations
  return dumpIndent depth ++ utf8 l.kind.name ++ utf8 " span=" ++ excerpt ++ notes

/-- What the dump of a source tree tells of a label beside its range. -/
def dumpDetail (l : Label) : Text :=
  match l.kind with
  | .newlines => utf8 " count=" ++ Text.ofInt l.count
  | .commentBlock => utf8 " lines=" ++ Text.quotedList l.lines
  | .commentLine | .multilineString | .structKey => utf8 " value=" ++ l.value.quoted
  | kind => if kind.isAtomic then utf8 " value=" ++ l.value.quoted else []

end Label

namespace Node

mutual

/-- The dump lines of a node at some depth, of which `detail` writes the end. -/
def dumpLines? (detail : Node → Text) (source : Text) (depth : Nat) : Node → Option (List Text)
  | ⟨label, items⟩ => do
    let head ← label.dumpHead? source depth
    let below ← dumpLinesAll? detail source (depth + 1) items
    return (head ++ detail ⟨label, items⟩ ++ [byte '\n']) :: below

/-- The dump lines of some nodes at some depth. -/
def dumpLinesAll? (detail : Node → Text) (source : Text) (depth : Nat) :
    List Node → Option (List Text)
  | [] => some []
  | n :: ns => do
    let first ← dumpLines? detail source depth n
    let others ← dumpLinesAll? detail source depth ns
    return first ++ others

end

/-- The dump of the tree of a source. -/
def dump? (source : Text) (nodes : List Node) : Option Text :=
  (dumpLinesAll? (·.label.dumpDetail) source 0 nodes).map List.flatten

end Node

end FusionKit
