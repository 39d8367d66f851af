import FusionKit.Command.Run

/-!
# The program

Reads the files, variables and input that a command may look at, runs the command on them, and
carries out what it leaves behind. The server for editors reads its input message by message.
-/
namespace FusionKit.Program

/-- The bytes of a text. -/
def bytesOf (t : Text) : ByteArray := ByteArray.mk t.toArray

/-- The text that bytes are. -/
def textOf (b : ByteArray) : Text := b.toList

/-- A text as a string. -/
def shown (t : Text) : String := String.ofList t.chars

/-- Adds a file, or a folder with all that is in it, to a tree. Hidden folders are left out. -/
partial def add (t : FileTree) (entry : IO.FS.DirEntry) : IO FileTree := do
  let names := Path.resolve (utf8 entry.path.toString)
  if ← entry.path.isDir then
    let mut t := t.makeFolder names
    for inner in ← entry.path.readDir do
      if !(inner.fileName.startsWith "." && (← inner.path.isDir)) then t ← add t inner
    return t
  else if ← entry.path.pathExists then
    return t.writeAt names (textOf (← IO.FS.readBinFile entry.path))
  else return t

/-- Adds what is at a path from the root. -/
def addPath (t : FileTree) (path : Text) : IO FileTree :=
  add t { root := shown (Path.directory path), fileName := shown (Path.base path) }

/-- The arguments that may be paths, without what flags put before or patterns put after them. -/
def pathsIn (args : List Text) : List Text :=
  args.map fun arg =>
    let value := if arg.contains (byte '=') then (arg.dropWhile (· != byte '=')).drop 1 else arg
    Text.trimEnd (utf8 "/...") value

/-- The variables that count. -/
def environment : IO (Table Text) := do
  let names := utf8 "HOME" :: Configuration.paths.map Configuration.variableName
  names.filterMapM fun name => do
    return (← IO.getEnv (shown name)).map fun value => (name, utf8 value)

/-- What a command finds, apart from its input. -/
def surroundings (args : List Text) : IO Surroundings := do
  let cwd := utf8 (← IO.currentDir).toString
  let environment ← environment
  let mut t : FileTree := { cwd := Path.resolve cwd }
  t ← addPath t cwd
  for path in pathsIn args do
    if !Path.isWithin cwd (t.absolute path) then t ← addPath t (t.absolute path)
  if let some home := environment.get? (utf8 "HOME") then
    for (ending, _) in ConfigFormat.endings do
      t ← addPath t (Path.join (t.absolute home) (Configuration.fileStem ++ utf8 ending))
  return { tree := t, environment }

/-- Writes the two outputs. -/
def emit (output errors : Text) : IO Unit := do
  let out ← IO.getStdout
  out.write (bytesOf output)
  out.flush
  let err ← IO.getStderr
  err.write (bytesOf errors)
  err.flush

/-- Carries out what a command leaves behind. -/
def carryOut (before : FileTree) (o : Outcome) : IO UInt32 := do
  for (names, entry) in o.tree.entries do
    if let .file content := entry then
      if before.entries.lookup names != some entry then
        IO.FS.writeBinFile (shown (Path.ofParts true names)) (bytesOf content)
  emit o.output o.errors
  return o.code.toUInt32

/-- All of the input. -/
partial def readAll (input : IO.FS.Stream) (done : ByteArray) : IO ByteArray := do
  let more ← input.read 65536
  if more.isEmpty then return done else readAll input (done ++ more)

/-- The input up to the end of a header. -/
partial def readHeader (input : IO.FS.Stream) (done : Text) : IO Text := do
  let more ← input.read 1
  let done := done ++ textOf more
  if more.isEmpty || (utf8 "\r\n\r\n").isSuffixOf done then return done
  else readHeader input done

/-- A number of bytes of the input. -/
partial def readBody (input : IO.FS.Stream) (size : Nat) (done : Text) : IO Text := do
  if size ≤ done.length then return done
  else
    let more ← input.read (size - done.length).toUSize
    if more.isEmpty then return done else readBody input size (done ++ textOf more)

/-- Serves an editor until the session ends. -/
partial def serve (level : Level) (e : Editor) : IO Unit := do
  let input ← IO.getStdin
  let header ← readHeader input []
  match Wire.header? (header.length + 1) 0 header with
  | none => return
  | some (size, _) =>
    let body ← readBody input size []
    match (Wire.message? (header ++ body)).bind fun (j, _) => e.serveOne j with
    | none => return
    | some (output, log, e) =>
      emit output (LogEntry.renderAll level log)
      serve level e

/-- Runs the server for editors. -/
def runServer (a : Arguments) (around : Surroundings) : IO UInt32 := do
  match (Command.serve.prepare a around).run { tree := around.tree } with
  | (.ok (settings, _), p) =>
    emit p.output p.errors
    serve p.level { settings }
    return 0
  | (.error _, _) => carryOut around.tree ((Command.serve.run a around).outcome around.tree)

/-- Runs the program. -/
def run (args : List Text) : IO UInt32 := do
  let around ← surroundings args
  match Invocation.read args with
  | .ok (.run .serve a) => runServer a around
  | .ok (.run .format a) =>
    let input ← if a.operands.isEmpty then readAll (← IO.getStdin) .empty else pure .empty
    carryOut around.tree (runProgram args { around with input := textOf input })
  | _ => carryOut around.tree (runProgram args around)

end FusionKit.Program

/-- The program. -/
def main (args : List String) : IO UInt32 := FusionKit.Program.run (args.map FusionKit.utf8)
