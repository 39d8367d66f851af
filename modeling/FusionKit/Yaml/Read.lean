import FusionKit.Value
import FusionKit.Yaml.Node.Parse

/-!
# Values of YAML documents

The tree of a document stands for a value. Scalars mean what their tags say, references stand for
the nodes that they name, and a mapping takes up the entries of the mappings that are merged into
it, unless it has such an entry itself. Keys are scalars, and no key may occur twice.

The whole document is a mapping with texts as keys, or empty.
-/
namespace FusionKit.Yaml

namespace Scalar

/-- What a scalar with a tag means. An integer will do where a real number is wanted. -/
def resolve (tag t : Text) : Except Fault Scalar :=
  if tag == Tag.ofWord "str" || tag == Tag.ofWord "binary" || tag == Tag.ofWord "merge" then
    .ok (string t)
  else
    let s := ofText (tag == Tag.ofWord "timestamp") t
    if s.tag == tag then .ok s
    else
      match s with
      | integer n =>
        if tag == Tag.ofWord "float" && Word.isInt64 n then
          .ok (real ⟨n < 0, n.natAbs, 0⟩)
        else .error (.wrongTag s.tag t tag)
      | s => .error (.wrongTag s.tag t tag)

/-- A scalar as a text. -/
def text : Scalar → Text
  | null => []
  | boolean b => utf8 (if b then "true" else "false")
  | integer n => Text.ofInt n
  | real d => d.shortest?.getD []
  | unreal spelling => utf8 spelling
  | timestamp m => m.shown
  | string t => t

/-- The word for the type of an integer: a word with a sign if it fits. -/
def integerType (n : Int) : String := if Word.isInt64 n then "int" else "uint64"

/-- A scalar as a configured value. -/
def toValue : Scalar → Value
  | null => .null
  | boolean b => .boolean b
  | integer n => .integer n (integerType n)
  | real d => .real d
  | unreal spelling => .unreal spelling
  | timestamp m => .moment "time.Time" m.shown
  | string t => .text t

/-- A scalar as faults show it. -/
def literal : Scalar → Text
  | null => utf8 "interface \x7b\x7d(nil)"
  | integer n =>
    if Word.isInt64 n then Text.ofInt n else utf8 "0x" ++ Quoted.hex 1 n.toNat
  | real d => d.general?.getD []
  | string t => t.quoted
  | s => s.text

end Scalar

/-- The value of a digit of base sixty-four. -/
def sextet? (b : UInt8) : Option Nat :=
  if byte 'A' ≤ b && b ≤ byte 'Z' then some (b - byte 'A').toNat
  else if byte 'a' ≤ b && b ≤ byte 'z' then some ((b - byte 'a').toNat + 26)
  else if Text.isDigit b then some ((b - byte '0').toNat + 52)
  else if b == byte '+' then some 62
  else if b == byte '/' then some 63
  else none

/-- The bytes of four digits, of which the last may be padding. -/
def tripletOf? (a b c d : UInt8) : Option Text := do
  let high := (← sextet? a) * 4096 + (← sextet? b) * 64
  if c == byte '=' then
    guard (d == byte '=')
    return [(high / 1024).toUInt8]
  else
    let high := high + (← sextet? c)
    if d == byte '=' then return [(high / 1024).toUInt8, (high / 4 % 256).toUInt8]
    else
      let n := high * 64 + (← sextet? d)
      return [(n / 65536).toUInt8, (n / 256 % 256).toUInt8, (n % 256).toUInt8]

/-- The bytes that digits of base sixty-four stand for. Only the last group may be padded. -/
def base64? : Text → Option Text
  | [] => some []
  | a :: b :: c :: d :: t => do
    let bytes ← tripletOf? a b c d
    guard (d != byte '=' || t.isEmpty)
    return bytes ++ (← base64? t)
  | _ => none

/-- What a scalar node means. -/
def scalarOf (tag t : Text) : Except Fault Scalar := do
  let s ← Scalar.resolve tag t
  if tag == Tag.ofWord "binary" then
    match base64? (t.filter fun b => b != byte '\n' && b != byte '\r') with
    | some bytes => return .string bytes
    | none => .error .notBase64
  else return s

/-- What a node stands for. -/
inductive Datum where
  | scalar (s : Scalar)
  | list (items : List Datum)
  /-- A mapping; `named` tells that all its keys are texts. -/
  | table (named : Bool) (entries : List (Scalar × Datum))
  deriving Repr, Inhabited

namespace Datum

mutual

/-- A datum as a configured value. -/
def toValue : Datum → Value
  | .scalar s => s.toValue
  | .list items => .list (itemValues items)
  | .table _ entries => .table (entryValues entries)

/-- The values of items. -/
def itemValues : List Datum → List Value
  | [] => []
  | d :: ds => d.toValue :: itemValues ds

/-- The values of entries, with their keys as texts. -/
def entryValues : List (Scalar × Datum) → List (Text × Value)
  | [] => []
  | (k, d) :: es => (k.text, d.toValue) :: entryValues es

end

mutual

/-- A datum as faults show it. -/
def literal : Datum → Text
  | .scalar s => s.literal
  | .list items =>
    utf8 "[]interface \x7b\x7d\x7b" ++ Text.joinWith (utf8 ", ") (itemLiterals items) ++
      utf8 "\x7d"
  | .table named entries =>
    utf8 (if named then "map[string]" else "map[interface \x7b\x7d]") ++
      utf8 "interface \x7b\x7d\x7b" ++
      Text.joinWith (utf8 ", ") (Text.sorted (entryLiterals entries)) ++ utf8 "\x7d"

/-- Items as faults show them. -/
def itemLiterals : List Datum → List Text
  | [] => []
  | d :: ds => d.literal :: itemLiterals ds

/-- Entries as faults show them. -/
def entryLiterals : List (Scalar × Datum) → List Text
  | [] => []
  | (k, d) :: es => (k.literal ++ utf8 ":" ++ d.literal) :: entryLiterals es

end

end Datum

/-- Entries of a mapping. -/
abbrev Entries := List (Scalar × Datum)

/-- The entries with one more, which takes the place of one with the same key. -/
def Entries.put (es : Entries) (k : Scalar) (d : Datum) : Entries :=
  if es.any (·.1 == k) then es.map fun e => if e.1 == k then (k, d) else e else es ++ [(k, d)]

/-- How far the reading of values has come. -/
structure Tally where
  /-- How many nodes have been read, and how many of them through references. -/
  nodes : Nat := 0
  referred : Nat := 0
  /-- Messages on nodes that are not what they should be, the last first. -/
  misfits : List Text := []
  deriving Repr, Inhabited

/-- Steps of reading values. -/
abbrev ValueM := StateT Tally (Except Fault)

/-- Whether so many of the nodes come through references that the document is refused: more than
99 of 100 of them, and fewer in documents of more than 400000 nodes. -/
def Tally.isExcessive (t : Tally) : Bool :=
  let part : Int :=
    if t.nodes ≤ 400000 then 99 * 3600000
    else if 4000000 ≤ t.nodes then 10 * 3600000
    else 99 * 3600000 - 89 * ((t.nodes : Int) - 400000)
  100 < t.referred && 1000 < t.nodes && part * t.nodes < t.referred * 360000000

/-- Counts a node. -/
def countNode (viaReference : Bool) : ValueM Unit := do
  let t ← get
  let t := { t with nodes := t.nodes + 1, referred := t.referred + if viaReference then 1 else 0 }
  if t.isExcessive then throw .tooManyAliases
  set t

/-- Reports a node that is not of the type that is wanted. -/
def reportMisfit (n : Node) (type : String) : ValueM Unit := do
  let tag := n.tag
  let t := n.text
  let sample :=
    if tag == Tag.ofWord "seq" || tag == Tag.ofWord "map" then t
    else if 10 < t.length then utf8 " `" ++ t.take 7 ++ utf8 "...`"
    else utf8 " `" ++ t ++ utf8 "`"
  modify fun s => { s with
    misfits := (utf8 "line " ++ Text.ofNat n.line ++ utf8 ": cannot unmarshal " ++ tag ++ sample ++
      utf8 " into " ++ utf8 type) :: s.misfits }

/-- The messages on keys that occur again. -/
def repeatedKeys : List Node → List Text
  | [] => []
  | k :: ks =>
    ((ks.filter k.isSameKey).map fun k' =>
      utf8 "line " ++ Text.ofNat k'.line ++ utf8 ": mapping key " ++ k'.text.quoted ++
        utf8 " already defined at line " ++ Text.ofNat k.line) ++ repeatedKeys ks

/-- Reports keys that occur again. -/
def reportRepeated (entries : List (Node × Node)) : ValueM Bool := do
  let messages := repeatedKeys (entries.map (·.1))
  modify fun s => { s with misfits := messages.reverse ++ s.misfits }
  return !messages.isEmpty

/-- Whether all keys of a mapping are texts. -/
def hasTextKeys (d : Tree) (entries : List (Node × Node)) : Bool :=
  entries.all fun e =>
    match d.resolve e.1 with
    | some n => n.tag == Tag.ofWord "str" || n.tag == Tag.ofWord "merge"
    | none => false

/-- Follows a reference, which must not lead back to itself. -/
def follow {α : Type} (d : Tree) (path : List Nat) (id target : Nat) (name : Text)
    (read : List Nat → Node → ValueM α) : ValueM α := do
  if path.contains id then throw (.insideItself name)
  match d.target? target with
  | some n => read (id :: path) n
  | none => throw (.unknownAnchor name)

/-- A key as a text, if it is one. -/
def textKey (d : Tree) : Nat → List Nat → Node → ValueM (Option Scalar)
  | 0, _, _ => throw tooDeep
  | fuel + 1, path, n => do
    countNode !path.isEmpty
    match n with
    | .reference _ id name target => follow d path id target name (textKey d fuel)
    | .scalar _ tag t => do
      match ← scalarOf tag t with
      | .null => return none
      | s => return some (.string (if tag == Tag.ofWord "binary" then s.text else t))
    | .mapping _ _ entries => do
      if !(← reportRepeated entries) then reportMisfit n "string"
      return none
    | n => do
      reportMisfit n "string"
      return none

mutual

/-- What a node stands for; nothing when it has been reported. `path` are the references that have
been followed. -/
def datum (d : Tree) : Nat → List Nat → Node → ValueM (Option Datum)
  | 0, _, _ => throw tooDeep
  | fuel + 1, path, n => do
    countNode !path.isEmpty
    match n with
    | .reference _ id name target => follow d path id target name (datum d fuel)
    | .scalar _ tag t => return some (.scalar (← scalarOf tag t))
    | .sequence _ _ items => return some (.list (← items.filterMapM (datum d fuel path)))
    | .mapping _ _ entries =>
      if ← reportRepeated entries then return none
      else
        let named := hasTextKeys d entries
        let (es, _) ← addEntries d fuel path named none entries entries []
        return some (.table named es)

/-- A key, which must be a scalar. -/
def keyOf (d : Tree) : Nat → List Nat → Bool → Node → ValueM (Option Scalar)
  | 0, _, _, _ => throw tooDeep
  | fuel + 1, path, named, n => do
    if named then textKey d fuel path n
    else
      match ← datum d fuel path n with
      | some (.scalar s) => return some s
      | some k => throw (.unfitKey k.literal)
      | none => return none

/-- Puts entries into a mapping, and then what is to be merged into it. `seen` are the keys that
are not to be put any more, when the entries are merged themselves; `whole` are all the entries
that belong together. -/
def addEntries (d : Tree) : Nat → List Nat → Bool → Option (List Scalar) →
    List (Node × Node) → List (Node × Node) → Entries → ValueM (Entries × Option (List Scalar))
  | 0, _, _, _, _, _, _ => throw tooDeep
  | fuel + 1, path, named, seen, whole, [], es =>
    match (whole.filter fun e => e.1.isMerge).getLast? with
    | none => return (es, seen)
    | some (_, source) => do
      let known ←
        match seen with
        | some keys => pure keys
        | none => do
          let keys ← whole.filterMapM fun e => datum d fuel path e.1
          pure (keys.filterMap fun
            | .scalar s => some s
            | _ => none)
      let (es, known) ← merge d fuel path named known source es
      return (es, seen.map fun _ => known)
  | fuel + 1, path, named, seen, whole, (k, v) :: rest, es => do
    if k.isMerge then addEntries d fuel path named seen whole rest es
    else
      match ← keyOf d fuel path named k with
      | none => addEntries d fuel path named seen whole rest es
      | some key =>
        if (seen.getD []).contains key then addEntries d fuel path named seen whole rest es
        else
          let seen := seen.map (key :: ·)
          match ← datum d fuel path v with
          | some value => addEntries d fuel path named seen whole rest (es.put key value)
          | none => addEntries d fuel path named seen whole rest es

/-- Merges a mapping, or several of them, into a mapping. -/
def merge (d : Tree) : Nat → List Nat → Bool → List Scalar → Node → Entries →
    ValueM (Entries × List Scalar)
  | 0, _, _, _, _, _ => throw tooDeep
  | fuel + 1, path, named, known, source, es =>
    match source with
    | .sequence _ _ items =>
      items.foldlM
        (fun (es, known) n => mergeOne d fuel path named known n es)
        (es, known)
    | n => mergeOne d fuel path named known n es

/-- Merges a mapping into a mapping. -/
def mergeOne (d : Tree) : Nat → List Nat → Bool → List Scalar → Node → Entries →
    ValueM (Entries × List Scalar)
  | 0, _, _, _, _, _ => throw tooDeep
  | fuel + 1, path, named, known, n, es => do
    if !((d.resolve n).any Node.isMapping) then throw .notMergeable
    countNode !path.isEmpty
    match n with
    | .reference _ id name target =>
      follow d path id target name fun path n => mergeOne d fuel path named known n es
    | .mapping _ _ entries =>
      if ← reportRepeated entries then return (es, known)
      else
        let (es, known') ← addEntries d fuel path named (some known) entries entries es
        return (es, known'.getD known)
    | _ => throw .notMergeable

end

/-- The type that a document has to have. -/
def wantedType : String := "map[string]interface \x7b\x7d"

/-- The entries of a document. -/
def rootEntries (d : Tree) (fuel : Nat) : ValueM Entries := do
  countNode false
  countNode false
  match d.root with
  | .mapping _ _ entries =>
    if ← reportRepeated entries then return []
    else return (← addEntries d fuel [] true none entries entries []).1
  | .scalar _ tag t => do
    match ← scalarOf tag t with
    | .null => return []
    | _ => do
      reportMisfit d.root wantedType
      return []
  | n => do
    reportMisfit n wantedType
    return []

/-- Reads a document that is a mapping or empty. -/
def read (t : Text) : Except Fault Value := do
  match ← Tree.parse t with
  | none => return .table []
  | some d =>
    let size := t.length + 2
    let (es, tally) ← (rootEntries d (8 * size * size)).run {}
    if tally.misfits.isEmpty then return (Datum.table true es).toValue
    else .error (.misfits tally.misfits.reverse)

end FusionKit.Yaml
