import FusionKit.Command
import FusionKit.Diff
import FusionKit.Editor.Serve
import FusionKit.FileTree.Select
import FusionKit.Format.Files
import FusionKit.Index.Dump
import FusionKit.Report.Render
import FusionKit.Settings.Load

/-!
# Running commands

A command is run on the files, variables and input that it finds, and leaves files, two outputs
and a code behind. The code is 0 when all is well, 1 when something is to be done or the command
failed as a whole, and 2 when something is wrong with the files. Log lines go where errors go, in
the order in which things happen.
-/
namespace FusionKit

/-- What a command finds. -/
structure Surroundings where
  tree : FileTree := {}
  environment : Table Text := []
  input : Text := []

/-- What a command leaves behind. -/
structure Outcome where
  code : Nat
  output : Text
  errors : Text
  tree : FileTree

/-- How a command comes to an end before its time. -/
inductive Ending where
  | failed (message : Text)
  | code (n : Nat)
  deriving DecidableEq, Repr

/-- What a running command has written so far, and the files as they are now. -/
structure Progress where
  output : Text := []
  errors : Text := []
  tree : FileTree
  level : Level := .warn

/-- A command that is running. -/
abbrev RunM := ExceptT Ending (StateM Progress)

namespace RunM

/-- Writes to the output. -/
def print (t : Text) : RunM Unit := modify fun p => { p with output := p.output ++ t }

/-- Writes to the output for errors. -/
def printError (t : Text) : RunM Unit := modify fun p => { p with errors := p.errors ++ t }

/-- Logs what happened, unless the level is too low. -/
def log (entries : List LogEntry) : RunM Unit :=
  modify fun p => { p with errors := p.errors ++ LogEntry.renderAll p.level entries }

/-- Logs one entry. -/
def logOne (level : Level) (message : String) (fields : List (String × Text)) : RunM Unit :=
  log [⟨level, utf8 message, fields.map fun (key, value) => (utf8 key, value)⟩]

/-- The files as they are now. -/
def tree : RunM FileTree := do return (← get).tree

/-- Fails with a message. -/
def fail {α : Type} (message : Text) : RunM α := throw (.failed message)

/-- Goes on with a result, or fails with the message for what went wrong. -/
def orFail {α ε : Type} (message : ε → Text) : Except ε α → RunM α
  | .ok a => pure a
  | .error e => fail (message e)

/-- Ends with a code, unless it is zero. -/
def finish (code : Nat) : RunM Unit := if code = 0 then pure () else throw (.code code)

/-- Runs a command to its end. -/
def outcome (m : RunM Unit) (t : FileTree) : Outcome :=
  match m.run { tree := t } with
  | (.ok _, p) => ⟨0, p.output, p.errors, p.tree⟩
  | (.error (.code n), p) => ⟨n, p.output, p.errors, p.tree⟩
  | (.error (.failed message), p) =>
    ⟨1, p.output, p.errors ++ utf8 "error: " ++ message ++ utf8 "\n", p.tree⟩

end RunM

namespace Command

open RunM

/-- What is done with formatted files. -/
inductive FormatMode where
  | print
  | write
  | diff
  | list
  deriving DecidableEq, Repr

/-- The mode that switches choose. -/
def FormatMode.ofArguments (a : Arguments) : FormatMode :=
  if a.isOn "list" then list
  else if a.isOn "diff" then diff
  else if a.isOn "write" then write
  else print

/-- Formats the input. -/
def formatInput (s : Settings) (input : Text) : RunM Unit := do
  let name := utf8 "<stdin>"
  print (← orFail Failure.message ((FusionKit.format s name input).mapError .ofFormat))

/-- Replaces a file. Gives the code for how it went. -/
def replaceFile (path content : Text) : RunM Nat := do
  match (← tree).replace path content with
  | .ok t =>
    modify fun p => { p with tree := t }
    return 0
  | .error e =>
    printError (utf8 "error: " ++ e.message ++ utf8 "\n")
    return 2

/-- Does with a formatted file what the mode says. Gives the code for how it went. -/
def deliver (color : ColorMode) (mode : FormatMode) (o : FormatOutcome) : RunM Nat := do
  logOne .debug "formatting" [("path", o.path)]
  match o.result with
  | .error e =>
    printError (ReportStyle.render { color } (.ofFailure e (some o.source)))
    return 2
  | .ok formatted =>
    match mode with
    | .print =>
      print formatted
      return 0
    | .list =>
      if o.changed then print (o.path ++ utf8 "\n")
      return if o.changed then 1 else 0
    | .diff =>
      if o.changed then print (Diff.render o.path o.source formatted)
      return if o.changed then 1 else 0
    | .write => if o.changed then replaceFile o.path formatted else return 0

/-- Formats files. One with an error does not stop the others, and the worst code counts. -/
def formatFiles (s : Settings) (color : ColorMode) (mode : FormatMode) (paths : List Text) :
    RunM Unit := do
  let t ← tree
  let outcomes := paths.map (FormatOutcome.ofPath s t)
  let codes ← outcomes.mapM (deliver color mode)
  logOne .info "formatted files"
    [("files_processed", Text.ofNat outcomes.length),
      ("files_changed", Text.ofNat (outcomes.countP FormatOutcome.changed))]
  finish (codes.foldl max 0)

/-- The folder of the package that operands name. -/
def packageDir (operands : List Text) : Text := operands.headD Path.here

/-- Loads a package and logs how that goes. -/
def load (s : Settings) (dir : Text) : RunM (Except Failure (Repository × Index)) := do
  let (result, state) := (s.loadPackage (← tree) dir).run {}
  log state.log
  return result.map fun r => (r, state.index)

/-- The tree of a source file, and its text. -/
def readTree (path : Text) : RunM (Text × List Node) := do
  let failed (e : FileError) : Text := utf8 "failed to read " ++ path ++ utf8 ": " ++ e.message
  let source ← orFail failed ((← tree).read path)
  return (source, ← orFail SyntaxError.render (parse path source))

/-- Checks a package. -/
def checkPackage (s : Settings) (color : ColorMode) (dir : Text) : RunM Unit := do
  let t ← tree
  match ← load s dir with
  | .error e =>
    let read (name : Text) : Option Text :=
      (t.read (if Path.isAbsolute name then name else Path.join dir name)).toOption
    printError (ReportStyle.render { color, read } (.ofFailure e none))
    finish 2
  | .ok (r, index) =>
    let problems := index.checkAll
    print (ReportStyle.renderAll { color } (problems.map .ofProblem))
    logOne .info "checked package"
      [("path", r.packagePath), ("problems", Text.ofNat problems.length)]
    finish (if problems.isEmpty then 0 else 1)

/-- Writes the default configuration file into the working folder. -/
def writeConfig : RunM Unit := do
  let dir := (← tree).workingPath
  let path := Configuration.defaultPath dir
  let t ← orFail Failure.message (Configuration.writeDefault (← tree) dir)
  modify fun p => { p with tree := t }
  logOne .debug "wrote default config" [("path", path)]
  print (utf8 "Created " ++ path ++ utf8 "\n")

/-- Does what a command is for. -/
def perform (c : Command) (a : Arguments) (s : Settings) (color : ColorMode) (input : Text) :
    RunM Unit := do
  match c with
  | .format =>
    if a.operands.isEmpty then formatInput s input
    else
      let paths ← orFail Failure.message ((← tree).expand a.operands (a.values "exclude"))
      formatFiles s color (.ofArguments a) paths
  | .formatAll =>
    logOne .debug "examining" [("path", Path.here)]
    let paths ← orFail Failure.message ((← tree).expand [utf8 "./..."] [])
    formatFiles s color .write paths
  | .dumpTree =>
    let (source, nodes) ← readTree (packageDir a.operands)
    print ((Node.dump? source nodes).getD [])
  | .dumpLayout =>
    let (source, nodes) ← readTree (packageDir a.operands)
    let layout ← orFail LayoutFault.message (Node.layoutAll nodes)
    print ((Node.dumpLayout? source layout).getD [])
  | .dumpIndex =>
    let (r, index) ← orFail Failure.message (← load s (packageDir a.operands))
    print (index.dump r)
  | .createConfig => writeConfig
  | .check => checkPackage s color (packageDir a.operands)
  | .serve =>
    let (output, entries) := Editor.serve { settings := s } input
    log entries
    print output

/-- Sets the scene for a command: how reports look, where settings come from and what is
logged. -/
def prepare (c : Command) (a : Arguments) (around : Surroundings) :
    RunM (Settings × ColorMode) := do
  let color ← orFail Failure.message (ColorMode.ofName ((a.value? "color").getD []))
  let (configuration, file) ←
    orFail ConfigFailure.message
      (Configuration.load around.tree around.environment ((a.value? "config").getD []))
  let level := Level.ofName ((a.value? "log-level").getD configuration.logLevel)
  modify fun p => { p with level }
  if let some path := file then logOne .debug "using config file" [("config", path)]
  let settings ← orFail DecodeFault.message configuration.settings
  orFail UsageFault.message (Invocation.checkExclusive c a)
  return (settings, color)

/-- Runs a command. -/
def run (c : Command) (a : Arguments) (around : Surroundings) : RunM Unit := do
  let (settings, color) ← c.prepare a around
  c.perform a settings color around.input

end Command

/-- The text that tells how the program is used. -/
def usage : Text :=
  utf8 "Usage:\n  fuusak [command]\n\nAvailable Commands:\n" ++
    Command.all.flatMap fun c => utf8 "  " ++ utf8 c.name ++ utf8 "\n"

/-- Runs the program. -/
def runProgram (args : List Text) (around : Surroundings) : Outcome :=
  match Invocation.read args with
  | .error fault => (RunM.fail fault.message).outcome around.tree
  | .ok .help => (RunM.print usage).outcome around.tree
  | .ok (.run c a) => (c.run a around).outcome around.tree

end FusionKit
