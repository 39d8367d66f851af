import FusionKit.Toml.Fault
import FusionKit.Value

/-!
# TOML documents

The tables of a document while its lines are read one after the other. A table may be declared
once; a table that dotted keys made is closed by the next header; a table that a header merely
passed through can still be declared.
-/
namespace FusionKit.Toml

/-- How a table came about. -/
inductive Making where
  /-- A header passed through it. -/
  | implied
  /-- A dotted key passed through it. -/
  | dotted
  /-- A header declared it. -/
  | declared
  deriving DecidableEq, Repr

/-- What a name of a table under construction holds. -/
inductive Entry where
  | value (v : Value)
  | table (making : Making) (entries : List (Text × Entry))
  /-- An array of tables; the last one is open. -/
  | tables (earlier : List (List (Text × Entry))) (last : List (Text × Entry))
  deriving Inhabited

/-- What an entry is. -/
def Entry.holding : Entry → Holding
  | value _ => .value
  | table _ _ => .table
  | tables _ _ => .tables

/-- The contents of a table under construction. -/
abbrev Entries := List (Text × Entry)

/-- Gives a name an entry, at the place of the one it has or at the end. -/
def setEntry (name : Text) (e : Entry) : Entries → Entries
  | [] => [(name, e)]
  | (n, old) :: rest => if n == name then (n, e) :: rest else (n, old) :: setEntry name e rest

/-- Changes the table at the end of the path of a header. -/
def descend (f : Entries → Except Conflict Entries) : List Text → Entries → Except Conflict Entries
  | [], es => f es
  | name :: path, es =>
    match es.lookup name with
    | none => do return setEntry name (.table .implied (← descend f path [])) es
    | some (.value _) => .error (.notTable name .value)
    | some (.table making inner) => do
      return setEntry name (.table making (← descend f path inner)) es
    | some (.tables earlier last) => do
      return setEntry name (.tables earlier (← descend f path last)) es

/-- Declares a table. -/
def openTable (name : Text) (es : Entries) : Except Conflict Entries :=
  match es.lookup name with
  | none => .ok (setEntry name (.table .declared []) es)
  | some (.table .declared _) => .error (.declaredTwice name)
  | some (.table _ inner) => .ok (setEntry name (.table .declared inner) es)
  | some e => .error (.notHeader name e.holding)

/-- Declares a further table of an array. -/
def openElement (name : Text) (es : Entries) : Except Conflict Entries :=
  match es.lookup name with
  | none => .ok (setEntry name (.tables [] []) es)
  | some (.tables earlier last) => .ok (setEntry name (.tables (earlier ++ [last]) []) es)
  | some e => .error (.notTables name e.holding)

/-- Gives a key, plain or dotted, a value. -/
def assign (v : Value) : List Text → Entries → Except Conflict Entries
  | [], es => .ok es
  | [name], es =>
    if (es.lookup name).isSome then .error (.definedTwice name)
    else .ok (es ++ [(name, .value v)])
  | name :: path, es =>
    match es.lookup name with
    | none => do return es ++ [(name, .table .dotted (← assign v path []))]
    | some (.table .declared _) => .error (.closed name)
    | some (.table making inner) => do
      return setEntry name (.table making (← assign v path inner)) es
    | some e => .error (.notTable name e.holding)

mutual

/-- Closes the tables that dotted keys made. -/
def Entry.close : Entry → Entry
  | .value v => .value v
  | .table making es => .table (if making = .dotted then .declared else making) (closeAll es)
  | .tables earlier last => .tables earlier (closeAll last)

/-- Closes the tables that dotted keys made in a table. -/
def closeAll : List (Text × Entry) → List (Text × Entry)
  | [] => []
  | (name, e) :: es => (name, e.close) :: closeAll es

end

mutual

/-- The value of an entry. -/
def Entry.toValue : Entry → Value
  | .value v => v
  | .table _ es => .table (valuesOf es)
  | .tables earlier last => .list (tablesOf earlier ++ [.table (valuesOf last)])

/-- The values of the entries of a table. -/
def valuesOf : List (Text × Entry) → List (Text × Value)
  | [] => []
  | (name, e) :: es => (name, e.toValue) :: valuesOf es

/-- The values of the tables of an array. -/
def tablesOf : List (List (Text × Entry)) → List Value
  | [] => []
  | es :: rest => .table (valuesOf es) :: tablesOf rest

end

/-- The tables read so far and the path of the open one. -/
structure Document where
  entries : Entries := []
  current : List Text := []

namespace Document

/-- Follows a header. -/
def header (d : Document) (isArray : Bool) (path : List Text) : Except Conflict Document := do
  let closed ← descend (fun es => .ok (closeAll es)) d.current d.entries
  let name := path.getLastD []
  let enter := if isArray then openElement name else openTable name
  return { entries := ← descend enter path.dropLast closed, current := path }

/-- Follows a key with its value. -/
def keyValue (d : Document) (path : List Text) (v : Value) : Except Conflict Document := do
  return { d with entries := ← descend (assign v path) d.current d.entries }

/-- The value of a document. -/
def toValue (d : Document) : Value := .table (valuesOf d.entries)

end Document

end FusionKit.Toml
