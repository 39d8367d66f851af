import FusionKit.Yaml.Fault

/-!
# Nodes of YAML documents

The tree of a document. Every node has the line where it starts and a tag that says what it is. A
reference holds the number of the anchored node that it stands for, so a node may refer to one that
it is part of; what that means is for the reader of values to say.
-/
namespace FusionKit.Yaml

namespace Tag

/-- The tags of the format itself, in short form. -/
def ofWord (word : String) : Text := utf8 "!!" ++ utf8 word

/-- What the short form of a tag of the format stands for. -/
def family : Text := utf8 "tag:yaml.org,2002:"

/-- The short form of a tag. -/
def short (tag : Text) : Text :=
  match Text.cutStart? family tag with
  | some rest => utf8 "!!" ++ rest
  | none => tag

/-- Whether a tag leaves it to the node what it is. -/
def isOpen (tag : Text) : Bool := tag.isEmpty || tag == utf8 "!"

end Tag

/-- A node of a document. -/
inductive Node where
  | scalar (line : Nat) (tag : Text) (t : Text)
  | sequence (line : Nat) (tag : Text) (items : List Node)
  | mapping (line : Nat) (tag : Text) (entries : List (Node × Node))
  /-- The reference with number `id` to the anchored node with number `target`. -/
  | reference (line id : Nat) (name : Text) (target : Nat)
  deriving Repr, Inhabited

namespace Node

/-- The line where a node starts. -/
def line : Node → Nat
  | scalar line _ _ => line
  | sequence line _ _ => line
  | mapping line _ _ => line
  | reference line _ _ _ => line

/-- The text of a node; that of a collection is empty. -/
def text : Node → Text
  | scalar _ _ t => t
  | reference _ _ name _ => name
  | _ => []

/-- The tag of a node. A reference has none. -/
def tag : Node → Text
  | scalar _ tag _ => tag
  | sequence _ tag _ => tag
  | mapping _ tag _ => tag
  | reference _ _ _ _ => []

/-- Whether two nodes count as the same key: they are of one sort and have one text. -/
def isSameKey : Node → Node → Bool
  | scalar _ _ s, scalar _ _ t => s == t
  | sequence .., sequence .. => true
  | mapping .., mapping .. => true
  | reference _ _ s _, reference _ _ t _ => s == t
  | _, _ => false

/-- Whether a key says that its value is merged into the mapping. -/
def isMerge : Node → Bool
  | scalar _ tag t => t == utf8 "<<" && tag == Tag.ofWord "merge"
  | _ => false

/-- Whether a node is a mapping. -/
def isMapping : Node → Bool
  | mapping .. => true
  | _ => false

end Node

/-- The tree of a document and its anchored nodes with their numbers. -/
structure Tree where
  root : Node
  anchored : List (Nat × Node)
  deriving Repr, Inhabited

namespace Tree

/-- The anchored node with a number. -/
def target? (d : Tree) (id : Nat) : Option Node := d.anchored.lookup id

/-- What a node stands for: itself, or the node that it refers to. -/
def resolve (d : Tree) : Node → Option Node
  | .reference _ _ _ target => d.target? target
  | n => some n

end Tree

end FusionKit.Yaml
