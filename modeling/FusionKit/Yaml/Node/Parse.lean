import FusionKit.Yaml.Node
import FusionKit.Yaml.Scalar
import FusionKit.Yaml.Token.Queue

/-!
# Trees from tokens

The tokens of the first document of a stream make its tree. What follows that document is of no
concern, except that the tokens next to its end have to be scanned.
-/
namespace FusionKit.Yaml

/-- A document that is being read. -/
structure Reading where
  queue : Queue
  /-- The handles of tags and what they stand for. -/
  handles : List (Text × Text) := []
  /-- The anchors so far with the numbers of their nodes, the last first. -/
  anchors : List (Text × Nat) := []
  /-- The anchored nodes that are complete. -/
  anchored : List (Nat × Node) := []
  references : Nat := 0
  deriving Inhabited

/-- Steps of reading a document. -/
abbrev ReadM := StateT Reading (Except Fault)

namespace ReadM

/-- The next token. -/
def peek : ReadM Token := do
  let r ← get
  let (t, queue) ← r.queue.peek
  set { r with queue }
  return t

/-- Passes the next token. -/
def skip : ReadM Unit := modify fun r => { r with queue := r.queue.skip }

/-- Fails at a token, inside something that starts at a mark. -/
def fail {α : Type} (start : Mark) (t : Token) (reason : String) : ReadM α :=
  throw (.order start.line t.mark.line reason)

end ReadM

/-- What stands before a node: where it starts, its anchor and its tag. -/
structure Properties where
  start : Mark
  anchor : Option Text := none
  tag : Text := []
  deriving Repr, Inhabited

/-- The tag that a handle and a suffix stand for. -/
def tagOf (start : Mark) (t : Token) (handle suffix : Text) : ReadM Text := do
  if handle.isEmpty then return suffix
  else
    match (← get).handles.lookup handle with
    | some meaning => return meaning ++ suffix
    | none => ReadM.fail start t "found undefined tag handle"

/-- Reads an anchor and a tag in any order, as far as they are there. -/
def properties : ReadM Properties := do
  let t ← ReadM.peek
  match t.kind with
  | .anchor name =>
    ReadM.skip
    let u ← ReadM.peek
    match u.kind with
    | .tag handle suffix =>
      ReadM.skip
      let _ ← ReadM.peek
      return ⟨t.mark, some name, ← tagOf t.mark u handle suffix⟩
    | _ => return { start := t.mark, anchor := some name }
  | .tag handle suffix =>
    ReadM.skip
    let u ← ReadM.peek
    match u.kind with
    | .anchor name =>
      ReadM.skip
      let _ ← ReadM.peek
      return ⟨t.mark, some name, ← tagOf t.mark t handle suffix⟩
    | _ => return { start := t.mark, tag := ← tagOf t.mark t handle suffix }
  | _ => return { start := t.mark }

/-- A scalar. What it is goes by its tag, or else by how it is written. -/
def scalarNode (mark : Mark) (tag : Text) (plain : Bool) (t : Text) : Node :=
  let tag :=
    if !Tag.isOpen tag then Tag.short tag
    else if !plain then Tag.ofWord "str"
    else if t == utf8 "<<" then Tag.ofWord "merge"
    else (Scalar.ofPlain t).tag
  .scalar (mark.line + 1) tag t

/-- The scalar that stands where nothing is written. -/
def emptyNode (mark : Mark) : Node := scalarNode mark [] true []

/-- The tag of a collection. -/
def collectionTag (tag : Text) (word : String) : Text :=
  if Tag.isOpen tag then Tag.ofWord word else Tag.short tag

/-- Gives a number to the anchor of a node. -/
def beginNode (p : Properties) : ReadM (Option Nat) := do
  match p.anchor with
  | none => return none
  | some name =>
    let r ← get
    let id := r.anchors.length
    set { r with anchors := (name, id) :: r.anchors }
    return some id

/-- Keeps a node if it is anchored. -/
def endNode (id : Option Nat) (n : Node) : ReadM Node := do
  match id with
  | none => return n
  | some id =>
    modify fun r => { r with anchored := (id, n) :: r.anchored }
    return n

/-- A reference to a node that has an anchor. -/
def referenceNode (t : Token) (name : Text) : ReadM Node := do
  let r ← get
  match r.anchors.lookup name with
  | none => throw (.unknownAnchor name)
  | some target =>
    set { r with references := r.references + 1 }
    ReadM.skip
    return .reference (t.mark.line + 1) r.references name target

/-- The fault of a document that is nested too deep for the fuel. -/
def tooDeep : Fault := .order 0 0 "exceeded max depth"

mutual

/-- A node. `block` tells that indents may open collections, and `compact` that a sequence may
stand in the column of the mapping around it. -/
def node : Nat → Bool → Bool → ReadM Node
  | 0, _, _ => throw tooDeep
  | fuel + 1, block, compact => do
    let t ← ReadM.peek
    match t.kind with
    | .reference name => referenceNode t name
    | _ =>
      let p ← properties
      let t ← ReadM.peek
      let line := p.start.line + 1
      let id ← beginNode p
      match t.kind, block, compact with
      | .dash, _, true =>
        endNode id (.sequence line (collectionTag p.tag "seq") (← compactItems fuel))
      | .scalar plain s, _, _ =>
        ReadM.skip
        endNode id (scalarNode p.start p.tag plain s)
      | .bracketOpen, _, _ =>
        ReadM.skip
        endNode id (.sequence line (collectionTag p.tag "seq") (← flowItems fuel t.mark true))
      | .braceOpen, _, _ =>
        ReadM.skip
        endNode id (.mapping line (collectionTag p.tag "map") (← flowEntries fuel t.mark true))
      | .sequenceStart, true, _ =>
        ReadM.skip
        endNode id (.sequence line (collectionTag p.tag "seq") (← blockItems fuel t.mark))
      | .mappingStart, true, _ =>
        ReadM.skip
        endNode id (.mapping line (collectionTag p.tag "map") (← blockEntries fuel t.mark))
      | _, _, _ =>
        if p.anchor.isSome || !p.tag.isEmpty then endNode id (scalarNode p.start p.tag true [])
        else ReadM.fail p.start t "did not find expected node content"

/-- The items of a sequence that an indent has opened at `start`. -/
def blockItems : Nat → Mark → ReadM (List Node)
  | 0, _ => throw tooDeep
  | fuel + 1, start => do
    let t ← ReadM.peek
    match t.kind with
    | .dash =>
      ReadM.skip
      let item ←
        match (← ReadM.peek).kind with
        | .dash | .blockEnd => pure (emptyNode t.mark)
        | _ => node fuel true false
      return item :: (← blockItems fuel start)
    | .blockEnd =>
      ReadM.skip
      return []
    | _ => ReadM.fail start t "did not find expected '-' indicator"

/-- The items of a sequence in the column of the mapping around it. -/
def compactItems : Nat → ReadM (List Node)
  | 0 => throw tooDeep
  | fuel + 1 => do
    let t ← ReadM.peek
    match t.kind with
    | .dash =>
      ReadM.skip
      let item ←
        match (← ReadM.peek).kind with
        | .dash | .key | .value | .blockEnd => pure (emptyNode t.mark)
        | _ => node fuel true false
      return item :: (← compactItems fuel)
    | _ => return []

/-- The entries of a mapping that an indent has opened at `start`. -/
def blockEntries : Nat → Mark → ReadM (List (Node × Node))
  | 0, _ => throw tooDeep
  | fuel + 1, start => do
    let t ← ReadM.peek
    match t.kind with
    | .key =>
      ReadM.skip
      let key ← blockPart fuel t.mark
      let u ← ReadM.peek
      let value ←
        match u.kind with
        | .value => do
          ReadM.skip
          blockPart fuel u.mark
        | _ => pure (emptyNode u.mark)
      return (key, value) :: (← blockEntries fuel start)
    | .blockEnd =>
      ReadM.skip
      return []
    | _ => ReadM.fail start t "did not find expected key"

/-- A key or a value after its sign at `mark`, or nothing. -/
def blockPart : Nat → Mark → ReadM Node
  | 0, _ => throw tooDeep
  | fuel + 1, mark => do
    match (← ReadM.peek).kind with
    | .key | .value | .blockEnd => return emptyNode mark
    | _ => node fuel true true

/-- The items of a sequence in brackets that opens at `start`, before its first item or after
another. -/
def flowItems : Nat → Mark → Bool → ReadM (List Node)
  | 0, _, _ => throw tooDeep
  | fuel + 1, start, first => do
    let t ← ReadM.peek
    match t.kind, first with
    | .bracketClose, _ =>
      ReadM.skip
      return []
    | .comma, false =>
      ReadM.skip
      flowItem fuel start
    | _, true => flowItem fuel start
    | _, false => ReadM.fail start t "did not find expected ',' or ']'"

/-- An item of a sequence in brackets and those after it, or the end of the sequence. -/
def flowItem : Nat → Mark → ReadM (List Node)
  | 0, _ => throw tooDeep
  | fuel + 1, start => do
    let t ← ReadM.peek
    match t.kind with
    | .bracketClose =>
      ReadM.skip
      return []
    | .key =>
      ReadM.skip
      let entry ← flowPair fuel
      let item := Node.mapping (t.mark.line + 1) (Tag.ofWord "map") [entry]
      return item :: (← flowItems fuel start false)
    | _ =>
      let item ← node fuel false false
      return item :: (← flowItems fuel start false)

/-- A key and its value that are an item of a sequence in brackets. Where the key is missing, the
token that stands in its place is passed. -/
def flowPair : Nat → ReadM (Node × Node)
  | 0 => throw tooDeep
  | fuel + 1 => do
    let t ← ReadM.peek
    let key ←
      match t.kind with
      | .value | .comma | .bracketClose => do
        ReadM.skip
        pure (emptyNode t.mark)
      | _ => node fuel false false
    let u ← ReadM.peek
    match u.kind with
    | .value => do
      ReadM.skip
      match (← ReadM.peek).kind with
      | .comma | .bracketClose => return (key, emptyNode u.mark)
      | _ => return (key, ← node fuel false false)
    | _ => return (key, emptyNode u.mark)

/-- The entries of a mapping in braces that opens at `start`, before its first entry or after
another. -/
def flowEntries : Nat → Mark → Bool → ReadM (List (Node × Node))
  | 0, _, _ => throw tooDeep
  | fuel + 1, start, first => do
    let t ← ReadM.peek
    match t.kind, first with
    | .braceClose, _ =>
      ReadM.skip
      return []
    | .comma, false =>
      ReadM.skip
      flowEntry fuel start
    | _, true => flowEntry fuel start
    | _, false => ReadM.fail start t "did not find expected ',' or '\x7d'"

/-- An entry of a mapping in braces and those after it, or the end of the mapping. -/
def flowEntry : Nat → Mark → ReadM (List (Node × Node))
  | 0, _ => throw tooDeep
  | fuel + 1, start => do
    let t ← ReadM.peek
    match t.kind with
    | .braceClose =>
      ReadM.skip
      return []
    | .key =>
      ReadM.skip
      let u ← ReadM.peek
      let key ←
        match u.kind with
        | .value | .comma | .braceClose => pure (emptyNode u.mark)
        | _ => node fuel false false
      let v ← ReadM.peek
      let value ←
        match v.kind with
        | .value => do
          ReadM.skip
          let w ← ReadM.peek
          match w.kind with
          | .comma | .braceClose => pure (emptyNode w.mark)
          | _ => node fuel false false
        | _ => pure (emptyNode v.mark)
      return (key, value) :: (← flowEntries fuel start false)
    | _ =>
      let key ← node fuel false false
      let u ← ReadM.peek
      return (key, emptyNode u.mark) :: (← flowEntries fuel start false)

end

/-- The handles of tags that every document has. -/
def standardHandles : List (Text × Text) := [(utf8 "!", utf8 "!"), (utf8 "!!", Tag.family)]

/-- Reads the directives before a document. Each takes a token. -/
def directives : Nat → Bool → ReadM Unit
  | 0, _ => throw tooDeep
  | fuel + 1, versioned => do
    let t ← ReadM.peek
    match t.kind with
    | .version major minor =>
      if versioned then ReadM.fail {} t "found duplicate %YAML directive"
      if major != 1 || minor != 1 then ReadM.fail {} t "found incompatible YAML document"
      ReadM.skip
      directives fuel true
    | .tagHandle handle meaning =>
      if ((← get).handles.lookup handle).isSome then
        ReadM.fail {} t "found duplicate %TAG directive"
      modify fun r => { r with handles := r.handles ++ [(handle, meaning)] }
      ReadM.skip
      directives fuel versioned
    | _ => modify fun r => { r with handles := r.handles ++ standardHandles }

/-- What an explicit document holds, after its mark. -/
def explicitContent (fuel : Nat) : ReadM Node := do
  let t ← ReadM.peek
  match t.kind with
  | .version .. | .tagHandle .. | .documentStart | .documentEnd | .streamEnd =>
    return emptyNode t.mark
  | _ => node fuel true false

/-- The tree of the first document, if there is one. -/
def firstDocument (fuel : Nat) : ReadM (Option Node) := do
  let _ ← ReadM.peek
  ReadM.skip
  let t ← ReadM.peek
  match t.kind with
  | .streamEnd => return none
  | .version .. | .tagHandle .. | .documentStart =>
    directives fuel false
    let u ← ReadM.peek
    if u.kind != .documentStart then
      ReadM.fail {} u "did not find expected <document start>"
    ReadM.skip
    let root ← explicitContent fuel
    let _ ← ReadM.peek
    return some root
  | _ =>
    directives fuel false
    let root ← node fuel true false
    let _ ← ReadM.peek
    return some root

/-- The first document of a text, if there is one. -/
def Tree.parse (t : Text) : Except Fault (Option Tree) := do
  let cs ← charsOf t
  let fuel := 8 * (cs.length + 2)
  let (root, r) ← (firstDocument fuel).run { queue := .ofChars cs }
  return root.map fun root => ⟨root, r.anchored⟩

end FusionKit.Yaml
