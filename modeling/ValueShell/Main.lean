import ValueShell.Script.Launch

/-!
# The command line

Converts a script that is given as an argument, on the standard input or as a file. The command that
runs the result is printed, one quoted word on each line; the result for a file is written beside it.
-/

set_option autoImplicit false

namespace ValueShell.CommandLine

/-- Reads a stream to its end. -/
partial def readAll (stream : IO.FS.Stream) (read : String) : IO String := do
  let line ← stream.getLine
  if line.isEmpty then return read else readAll stream (read ++ line)

/-- The locations that a path leads through, the last one last. -/
def locations (here : Files.Location) : List String → List Files.Location
  | [] => []
  | c :: rest =>
    if c = "" || c = "." then locations here rest
    else
      let next := if c = ".." then here.dropLast else here ++ [c]
      next :: locations next rest

/-- A tree in which a path leads to a file. -/
def treeWith (path content : String) : Files.Tree :=
  let visited := locations [] (Files.components path)
  let t := visited.dropLast.foldl (fun t l =>
    if l.isEmpty then t else t.put l { node := .directory, mode := 0o755 }) ({} : Files.Tree)
  match visited.getLast? with
  | some l => t.put l { node := .file content, mode := 0o644 }
  | none => t

/-- The file that the arguments name, if they name one. -/
def scriptPath : List String → Option String
  | [] => none
  | "-" :: _ => none
  | "-c" :: _ => none
  | path :: _ => some path

/-- The files that the arguments ask for. -/
def filesFor (args : List String) : IO Files.Tree := do
  match scriptPath args with
  | none => return {}
  | some path =>
    try return treeWith path (← IO.FS.readFile path)
    catch _ => return {}

/-- Reports what came of the arguments: writes files, prints messages and the command. -/
def report (launch : Script.Launch) (before : Files.Tree) (path : Option String) : IO UInt32 := do
  let (stem, _) := Files.splitEnding (path.getD "")
  let target := stem ++ ".py"
  match path, launch.files.read target, before.read target with
  | some _, .ok content, .error _ => IO.FS.writeFile target content
  | _, _, _ => pure ()
  IO.eprint launch.errors
  match launch.fault with
  | some fault =>
    IO.eprintln ((fault.message?).getD "failed")
    return 1
  | none =>
    for word in launch.command.getD [] do
      IO.println (Text.quote word)
    return (launch.status.getD 0).toUInt32

end ValueShell.CommandLine

/-- Runs the command line. -/
def main (args : List String) : IO UInt32 := do
  let input ← if args.head? = some "-" then ValueShell.CommandLine.readAll (← IO.getStdin) "" else pure ""
  let files ← ValueShell.CommandLine.filesFor args
  let launch := ValueShell.Script.launch files input.toList args
  ValueShell.CommandLine.report launch files (ValueShell.CommandLine.scriptPath args)
