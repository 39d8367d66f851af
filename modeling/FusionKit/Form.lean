import FusionKit.Node.Parse

/-!
# Forms

What a file says, apart from how it is laid out: the tree of its values. Comments and newline
runs are gone, and a struct holds its keys and values side by side. Only symbols, strings and the
three groups have a meaning for what follows, so all other values are alike.
-/
namespace FusionKit

/-- A value of a file. -/
inductive Form where
  /-- A symbol as it is written, quotes included. -/
  | symbol (span : Span) (written : Text)
  | string (span : Span) (text : Text)
  | sexpr (span : Span) (items : List Form)
  | list (span : Span) (items : List Form)
  | struct (span : Span) (items : List Form)
  | other (span : Span)
  deriving Repr, Inhabited

namespace Form

/-- The range of a form. -/
def span : Form → Span
  | symbol s _ | string s _ | sexpr s _ | list s _ | struct s _ | other s => s

/-- The text of a symbol as written. -/
def symbol? : Form → Option Text
  | symbol _ written => some written
  | _ => none

/-- The name that a symbol stands for. -/
def name? (f : Form) : Option Text := f.symbol?.map Text.unquoted

mutual

/-- The forms that a node contributes to what it stands in. -/
def ofNode : Node → List Form
  | ⟨label, items⟩ =>
    match label.kind with
    | .structMember => ofNodes items
    | .commentBlock | .commentLine | .newlines => []
    | .symbol => [.symbol label.span label.value]
    | .quotedString => [.string label.span label.value]
    | .sexpr => [.sexpr label.span (ofNodes items)]
    | .list => [.list label.span (ofNodes items)]
    | .struct => [.struct label.span (ofNodes items)]
    | _ => [.other label.span]

/-- The forms of some nodes. -/
def ofNodes : List Node → List Form
  | [] => []
  | n :: ns => ofNode n ++ ofNodes ns

end

end Form

/-- A parsed file. -/
structure SourceFile where
  /-- The path in messages. -/
  name : Text := []
  /-- The path from the root; empty for what is not read from a file. -/
  path : Text := []
  source : Text := []
  nodes : List Node := []
  deriving Repr, Inhabited

namespace SourceFile

/-- The values of a file. -/
def forms (f : SourceFile) : List Form := Form.ofNodes f.nodes

/-- The location of an offset of a file. -/
def locate (f : SourceFile) (pos : Int) : Location := Location.locate f.name f.source pos

/-- Parses a source that is held in memory. -/
def ofSource (name source : Text) : Except SyntaxError SourceFile := do
  return { name, source, nodes := ← parse name source }

end SourceFile

end FusionKit
