import FusionKit.Command.Flag
import FusionKit.Text.Case

/-!
# Commands

The commands of the program, the flags and operands of each, and how arguments choose one. The
first argument that is neither a flag nor the value of one names the command. Which arguments are
values can only be told from the flags that are known before the command is.
-/
namespace FusionKit

/-- What the program can be asked to do. -/
inductive Command where
  | format
  | formatAll
  | dumpTree
  | dumpLayout
  | dumpIndex
  | createConfig
  | check
  | serve
  deriving DecidableEq, Repr

/-- How many operands a command takes. -/
inductive Arity where
  | any
  | none
  | exactly (n : Nat)
  | atMost (n : Nat)
  deriving DecidableEq, Repr

namespace Command

/-- All commands. -/
def all : List Command :=
  [format, formatAll, dumpTree, dumpLayout, dumpIndex, createConfig, check, serve]

/-- The name of a command. -/
def name : Command → String
  | format => "fmt"
  | formatAll => "format-all"
  | dumpTree => "debug-ast"
  | dumpLayout => "debug-ist"
  | dumpIndex => "debug-index"
  | createConfig => "create-config"
  | check => "check"
  | serve => "lsp"

/-- The names under which a command is known. -/
def names (c : Command) : List String :=
  match c with
  | format => [c.name, "format"]
  | _ => [c.name]

/-- The flags of all commands. -/
def sharedFlags : List Flag :=
  [⟨"config", .text, none⟩, ⟨"color", .text, none⟩, ⟨"log-level", .text, none⟩]

/-- The flag that asks for help. -/
def helpFlag : Flag := ⟨"help", .switch, some 'h'⟩

/-- The flags of a command alone. -/
def ownFlags : Command → List Flag
  | format =>
    [⟨"write", .switch, some 'w'⟩, ⟨"diff", .switch, some 'd'⟩, ⟨"list", .switch, some 'l'⟩,
      ⟨"exclude", .text, none⟩, ⟨"workers", .integer, none⟩]
  | formatAll => [⟨"workers", .integer, none⟩]
  | check => [⟨"watch", .switch, none⟩]
  | _ => []

/-- The flags of a command. -/
def flags (c : Command) : List Flag := c.ownFlags ++ sharedFlags ++ [helpFlag]

/-- Flags of a command of which only one may be given. -/
def exclusive : Command → List String
  | format => ["write", "diff", "list"]
  | _ => []

/-- How many operands a command takes. -/
def arity : Command → Arity
  | format => .any
  | formatAll => .none
  | dumpTree => .exactly 1
  | dumpLayout => .exactly 1
  | dumpIndex => .atMost 1
  | createConfig => .none
  | check => .atMost 1
  | serve => .none

/-- The command with a name. -/
def ofName? (t : Text) : Option Command := all.find? fun c => c.names.any fun n => utf8 n == t

/-- The names of the commands that tell about the others. -/
def helpers : List String := ["help", "completion"]

end Command

/-- Why no command can be run. -/
inductive UsageFault where
  | unknownCommand (name : Text)
  | flag (fault : FlagFault)
  | operand (command : Command) (first : Text)
  | operandCount (limit : Nat) (isMost : Bool) (received : Nat)
  | exclusive (group given : List String)
  deriving DecidableEq, Repr

/-- What arguments ask for. -/
inductive Invocation where
  | help
  | run (command : Command) (arguments : Arguments)
  deriving DecidableEq, Repr

namespace Invocation

/-- Whether an argument, by the look of it, has its value in the next one. No shared flag is a
switch, so before the command is known every flag without a value counts as such. -/
def awaitsValue (s : Text) : Bool :=
  !s.contains (byte '=') &&
    ((utf8 "--").isPrefixOf s || (s.head? == some (byte '-') && s.length = 2))

/-- The arguments that are neither flags nor values of flags. -/
def words : List Text → List Text
  | [] => []
  | s :: rest =>
    if s == utf8 "--" then []
    else if awaitsValue s then
      match rest with
      | [] => []
      | _ :: more => words more
    else if s.isEmpty || s.head? == some (byte '-') then words rest
    else s :: words rest

/-- The arguments without the first one that is the given word. -/
def without (word : Text) : List Text → List Text
  | [] => []
  | s :: rest =>
    if s == utf8 "--" then s :: rest
    else if awaitsValue s then
      match rest with
      | [] => [s]
      | value :: more => s :: value :: without word more
    else if s == word && s.head? != some (byte '-') then rest
    else s :: without word rest

/-- The distance between two names: how many bytes have to be added, taken away or replaced. -/
def distance (s t : Text) : Nat :=
  let step (row : List Nat) (b : UInt8) : List Nat :=
    (t.zip (row.zip row.tail)).foldl
      (fun done (c, diagonal, above) =>
        done ++ [if b == c then diagonal else 1 + min (min diagonal above) (done.getLastD 0)])
      [row.headD 0 + 1]
  (s.foldl step (List.range (t.length + 1))).getLastD 0

/-- The commands whose names are close to a name, or start with it. -/
def suggestions (name : Text) : List String :=
  (Command.all.map Command.name ++ ["completion"]).filter fun n =>
    distance name.lowered (utf8 n) ≤ 2 || name.lowered.isPrefixOf (utf8 n)

/-- Checks the number of operands. -/
def checkOperands (c : Command) (operands : List Text) : Except UsageFault Unit :=
  match c.arity with
  | .any => .ok ()
  | .none =>
    match operands with
    | [] => .ok ()
    | first :: _ => .error (.operand c first)
  | .exactly n =>
    if operands.length = n then .ok () else .error (.operandCount n false operands.length)
  | .atMost n =>
    if operands.length ≤ n then .ok () else .error (.operandCount n true operands.length)

/-- Understands the arguments of the program. -/
def read (args : List Text) : Except UsageFault Invocation := do
  match words args with
  | [] =>
    let _ ← (Arguments.read (Command.sharedFlags ++ [Command.helpFlag]) args).mapError .flag
    return .help
  | name :: _ =>
    match Command.ofName? name with
    | none =>
      if Command.helpers.any fun n => utf8 n == name then return .help
      else .error (.unknownCommand name)
    | some c =>
      let arguments ← (Arguments.read c.flags (without name args)).mapError .flag
      if arguments.isOn Command.helpFlag.name then return .help
      checkOperands c arguments.operands
      return .run c arguments

/-- Refuses flags that exclude each other. -/
def checkExclusive (c : Command) (a : Arguments) : Except UsageFault Unit :=
  let given := c.exclusive.filter fun name => (a.value? name).isSome
  if given.length ≤ 1 then .ok ()
  else .error (.exclusive c.exclusive (given.mergeSort fun s t => s ≤ t))

end Invocation

namespace UsageFault

/-- The message for a fault. -/
def message : UsageFault → Text
  | unknownCommand name =>
    let close := Invocation.suggestions name
    utf8 "unknown command " ++ name.quoted ++ utf8 " for \"fuusak\"" ++
      if close.isEmpty then []
      else
        utf8 "\n\nDid you mean this?\n" ++
          close.flatMap fun n => utf8 "\t" ++ utf8 n ++ utf8 "\n"
  | flag fault => fault.message
  | operand command first =>
    utf8 "unknown command " ++ first.quoted ++ utf8 " for " ++
      (utf8 "fuusak " ++ utf8 command.name).quoted
  | operandCount limit isMost received =>
    utf8 "accepts " ++ (if isMost then utf8 "at most " else []) ++ Text.ofNat limit ++
      utf8 " arg(s), received " ++ Text.ofNat received
  | exclusive group given =>
    let listed (names : List String) : Text :=
      utf8 "[" ++ Text.joinWith (utf8 " ") (names.map utf8) ++ utf8 "]"
    utf8 "if any flags in the group " ++ listed group ++
      utf8 " are set none of the others can be; " ++ listed given ++ utf8 " were all set"

end UsageFault

end FusionKit
