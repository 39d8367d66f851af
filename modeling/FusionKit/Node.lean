import FusionKit.Location

/-!
# Nodes

The tree of a source file. It keeps comments and runs of newlines beside the values, so that the
file can be printed again. Which parts of a label mean something depends on its kind:

* scalars and struct keys have a value, scalars also annotations;
* a line comment has a value, slashes included, and a block comment has lines;
* a newline run has a count;
* lists, s-expressions, structs and clobs have annotations and items;
* a struct holds comments, newline runs and members, a member its key, then comments and newline
  runs, then one value.
-/
namespace FusionKit

/-- The kinds of nodes. -/
inductive Kind where
  | invalid
  | blob | boolean | integer | null | quotedString | real | symbol | timestamp
  | clob | commentBlock | commentLine | list | multilineString | newlines | sexpr | struct
  | structMember | structKey
  /-- Any kind that is none of the others. -/
  | unknown
  deriving DecidableEq, Repr, Inhabited

namespace Kind

/-- The kinds in the order of their numbers, without `unknown`. -/
def all : List Kind :=
  [invalid, blob, boolean, integer, null, quotedString, real, symbol, timestamp, clob,
    commentBlock, commentLine, list, multilineString, newlines, sexpr, struct, structMember,
    structKey]

/-- The name of a kind in dumps and messages. -/
def name : Kind → String
  | invalid => "Invalid"
  | blob => "Blob"
  | boolean => "Boolean"
  | integer => "Integer"
  | null => "Null"
  | quotedString => "QuotedString"
  | real => "Real"
  | symbol => "Symbol"
  | timestamp => "Timestamp"
  | clob => "Clob"
  | commentBlock => "CommentBlock"
  | commentLine => "CommentLine"
  | list => "List"
  | multilineString => "MultilineString"
  | newlines => "Newlines"
  | sexpr => "SExpr"
  | struct => "Struct"
  | structMember => "StructMember"
  | structKey => "StructKey"
  | unknown => "Invalid"

/-- The kind with a number. -/
def ofNumber (n : Int) : Kind :=
  if n < 0 then unknown else all[n.toNat]?.getD unknown

/-- The kind with a name; `invalid` when there is none. -/
def ofName (s : Text) : Kind := (all.find? fun k => utf8 k.name == s).getD invalid

/-- Whether a kind is a scalar of one token on one line. -/
def isAtomic : Kind → Bool
  | blob | boolean | integer | null | quotedString | real | symbol | timestamp => true
  | _ => false

/-- Whether a kind is a list, an s-expression or a struct. -/
def isCompound : Kind → Bool
  | list | sexpr | struct => true
  | _ => false

/-- Whether a kind is a comment. -/
def isComment : Kind → Bool
  | commentLine | commentBlock => true
  | _ => false

end Kind

/-- What a node holds beside its items. -/
structure Label where
  kind : Kind
  span : Span := ⟨0, 0⟩
  annotations : List Text := []
  value : Text := []
  lines : List Text := []
  count : Int := 0
  deriving DecidableEq, Repr, Inhabited

/-- A label over the nodes below it. -/
structure Node where
  label : Label
  items : List Node
  deriving Repr, Inhabited

/-- A text without one pair of single quotes around it. -/
def Text.unquoted (t : Text) : Text :=
  match t with
  | q :: rest =>
    if q == byte '\'' && rest.getLast? == some (byte '\'') then rest.dropLast else t
  | [] => t

namespace Node

/-- The kind of a node. -/
abbrev kind (n : Node) : Kind := n.label.kind

/-- The range of a node. -/
abbrev span (n : Node) : Span := n.label.span

/-- The text of a node. -/
abbrev value (n : Node) : Text := n.label.value

/-- Whether a node is a run of newlines. -/
def isNewlines (n : Node) : Bool := n.kind == .newlines

/-- Whether a node is a comment. -/
def isComment (n : Node) : Bool := n.kind.isComment

/-- Whether a node is a line comment. -/
def isCommentLine (n : Node) : Bool := n.kind == .commentLine

/-- Whether a node is the key of a struct member. -/
def isStructKey (n : Node) : Bool := n.kind == .structKey

/-- Whether a node is a list, an s-expression or a struct. -/
def isCompound (n : Node) : Bool := n.kind.isCompound

/-- Whether a node is neither a comment nor a run of newlines. -/
def isContent (n : Node) : Bool := !n.isComment && !n.isNewlines

/-- Whether a node is a value: content that is not a key. -/
def isValue (n : Node) : Bool := n.isContent && !n.isStructKey

/-- The text of a symbol as written. -/
def symbol? (n : Node) : Option Text := if n.kind = .symbol then some n.value else none

/-- The name that a symbol stands for, whether it is quoted or not. -/
def name? (n : Node) : Option Text := n.symbol?.map Text.unquoted

/-- The contents of a quoted string. -/
def string? (n : Node) : Option Text := if n.kind = .quotedString then some n.value else none

mutual

/-- The content among the items of a node. A struct member counts as its key and its value. -/
def valueItems : Node → List Node
  | ⟨_, items⟩ => contents items

/-- The content among some nodes. -/
def contents : List Node → List Node
  | [] => []
  | n :: ns =>
    (if n.kind = .structMember then n.valueItems else if n.isContent then [n] else []) ++
      contents ns

end

mutual

/-- The ranges of a node and of all nodes below it, each before those below it. -/
def spans : Node → List Span
  | ⟨label, items⟩ => label.span :: spansOf items

/-- The ranges of some nodes and of all nodes below them. -/
def spansOf : List Node → List Span
  | [] => []
  | n :: ns => n.spans ++ spansOf ns

end

end Node

end FusionKit
