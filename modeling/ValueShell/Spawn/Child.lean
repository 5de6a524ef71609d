import ValueShell.Pipeline.Streams
import ValueShell.Program.Run
import ValueShell.Text.Quoted

/-!
# Child processes

What a process does between its creation and the program that it becomes: it closes the pipe ends that
are not its own, connects its input and output, follows the redirections from left to right, and
executes the program. If one of these steps fails, it prints why and exits.
-/

set_option autoImplicit false

namespace ValueShell.Spawn

open ValueShell.Text

/-- What a descriptor is copied from. -/
inductive Origin where
  | number (n : Nat)
  | descriptor (d : Descriptor)
  /-- The file that was opened last, with its path. -/
  | opened (path : String)
  /-- A pipe of values, which is no descriptor. -/
  | values
  deriving DecidableEq, Repr

/-- A step of a child process. -/
inductive ChildStep where
  | close (d : Descriptor)
  | duplicate (origin : Origin) (target : Nat)
  | open_ (path : String) (append : Bool)
  | execute (words : List String)
  | exit (code : Nat)
  deriving DecidableEq, Repr

/-- A redirection whose target is known. -/
inductive Redirection where
  | copy (source target : Nat)
  | file (append : Bool) (source : Nat) (path : String)
  /-- To the end of a pipe, for a variable. -/
  | capture (end_ : Descriptor)
  deriving DecidableEq, Repr

/-- What a child process is told. -/
structure Launch where
  /-- The ends of pipes that are open. -/
  ends : List Descriptor
  streams : Streams Channel
  redirections : List Redirection
  words : List String

/-- The ends that a child process keeps. -/
def Launch.keeps (l : Launch) (d : Descriptor) : Bool :=
  match d with
  | .writeEnd _ =>
    l.streams.output == some (.descriptor d) || l.redirections.contains (.capture d)
  | _ => l.streams.input == some (.descriptor d)

/-- Copies a stream to a standard descriptor. -/
def duplicateChannel (target : Nat) : Option Channel → List ChildStep
  | none => []
  | some (.values _) => [.duplicate .values target]
  | some (.descriptor d) => [.duplicate (.descriptor d) target]

/-- The steps of a redirection. -/
def Redirection.steps : Redirection → List ChildStep
  | .copy source target => [.duplicate (.number target) source]
  | .file append source path => [.open_ path append, .duplicate (.opened path) source]
  | .capture end_ => [.duplicate (.descriptor end_) 1]

/-- All steps of a child process, if none fails. The standard input needs no copy. -/
def Launch.steps (l : Launch) : List ChildStep :=
  (l.ends.filter fun d => !l.keeps d).map .close ++
    duplicateChannel 1 l.streams.output ++
    (if l.streams.input = some (.descriptor .input) then [] else duplicateChannel 0 l.streams.input) ++
    l.redirections.flatMap Redirection.steps ++ [.execute l.words]

/-- What stands behind a descriptor of a process. -/
inductive Endpoint where
  | input
  | output
  | errors
  | readEnd (pipe : Nat)
  | writeEnd (pipe : Nat)
  | file (location : Files.Location)
  deriving DecidableEq, Repr

/-- The endpoint of a descriptor. -/
def Endpoint.ofDescriptor : Descriptor → Endpoint
  | .input => .input
  | .output => .output
  | .readEnd n => .readEnd n
  | .writeEnd n => .writeEnd n

/-- The descriptors of a process. -/
abbrev Endpoints := List (Nat × Endpoint)

/-- The descriptors that every process begins with. -/
def standardEndpoints : Endpoints := [(0, .input), (1, .output), (2, .errors)]

/-- Connects a descriptor. -/
def Endpoints.connect (e : Endpoints) (n : Nat) (endpoint : Endpoint) : Endpoints :=
  (n, endpoint) :: e.filter fun x => x.1 != n

/-- The text of a failure of the system. -/
def systemText (fault : Fault) : String :=
  match fault with
  | .noSuchFile _ => "[Errno 2] No such file or directory"
  | .badDescriptor => "[Errno 9] Bad file descriptor"
  | .noPermission _ => "[Errno 13] Permission denied"
  | .notDirectory _ => "[Errno 20] Not a directory"
  | .isDirectory _ => "[Errno 21] Is a directory"
  | .linkCircle _ => "[Errno 40] Too many levels of symbolic links"
  | .invalidValue => "embedded null byte"
  | _ => "[Errno 22] Invalid argument"

/-- The text of a failure to open a file. -/
def openText (path : String) (fault : Fault) : String :=
  match fault with
  | .invalidValue => systemText fault
  | _ => systemText fault ++ ": " ++ quote path

/-- Why a file cannot be executed, or the program that it is. -/
def executable (files : Files.Tree) (path : String) : Except String String :=
  match files.find true path with
  | .error fault => .error (systemText fault)
  | .ok e =>
    match e.node with
    | .program name => .ok name
    | .file _ =>
      if Files.Tree.Entry.allows e 1 then .error "[Errno 8] Exec format error"
      else .error (systemText (.noPermission path))
    | _ => .error (systemText (.noPermission path))

/-- Looks for an executable file in directories. A failure other than that there is none is reported
first. -/
def searchPath (files : Files.Tree) (name : String) (saved last : Option String) :
    List String → Except String String
  | [] => .error ((saved.or last).getD (systemText (.noSuchFile name)))
  | directory :: rest =>
    match executable files (Files.join directory name) with
    | .ok program => .ok program
    | .error message =>
      if message = systemText (.noSuchFile name) || message = systemText (.notDirectory name) then
        searchPath files name saved (some message) rest
      else searchPath files name (saved.or (some message)) (some message) rest

/-- The directories of a search path. -/
def pathDirectories (path : String) : List String :=
  path.splitOn ":"

/-- The program that words execute, or why they cannot. -/
def findProgram (files : Files.Tree) (path : String) (words : List String) : Except String String :=
  match words with
  | [] => .error "list index out of range"
  | "" :: _ => .error "execv() arg 2 first element cannot be empty"
  | name :: _ =>
    if name.toList.contains '/' then executable files name
    else searchPath files name none none (pathDirectories path)

/-- A child process on its way to a program. -/
structure Child where
  endpoints : Endpoints := standardEndpoints
  files : Files.Tree
  /-- What the file that was opened last is. -/
  opened : Option Files.Location := none
  /-- The steps that were taken, the last first. -/
  taken : List ChildStep := []
  program : Option String := none
  /-- What it printed before it exited. -/
  message : Option String := none

/-- The endpoint that is copied from. -/
def Child.origin (c : Child) : Origin → Except String Endpoint
  | .number n =>
    match c.endpoints.lookup n with
    | some e => .ok e
    | none => .error (systemText .badDescriptor)
  | .descriptor d => .ok (.ofDescriptor d)
  | .opened _ =>
    match c.opened with
    | some l => .ok (.file l)
    | none => .error (systemText .badDescriptor)
  | .values => .error "'PyPipe' object cannot be interpreted as an integer"

/-- Takes a step. -/
def Child.step (path : String) (c : Child) (s : ChildStep) : Except String Child :=
  match s with
  | .close _ => .ok c
  | .duplicate origin target => do
    let e ← c.origin origin
    .ok { c with endpoints := c.endpoints.connect target e }
  | .open_ name append =>
    match c.files.openFile name append with
    | .ok (location, files) => .ok { c with files, opened := some location }
    | .error fault => .error (openText name fault)
  | .execute words => do
    let program ← findProgram c.files path words
    .ok { c with program := some program }
  | .exit _ => .ok c

/-- Takes steps until one fails. -/
def Child.run (path : String) : Child → List ChildStep → Child
  | c, [] => c
  | c, s :: rest =>
    match c.step path s with
    | .ok next => Child.run path { next with taken := s :: next.taken } rest
    | .error message =>
      { c with taken := .exit 1 :: s :: c.taken, message := some message }

/-- Takes steps without connecting or executing anything: only files are opened. With `refused`, the
program cannot be executed. -/
def Child.trace (refused : Bool) : Child → List ChildStep → Child
  | c, [] => c
  | c, s :: rest =>
    let failed (message : String) : Child :=
      { c with taken := .exit 1 :: s :: c.taken, message := some message }
    match s with
    | .open_ .. =>
      match c.step "" s with
      | .ok next => Child.trace refused { next with taken := s :: next.taken } rest
      | .error message => failed message
    | .duplicate .values _ =>
      match c.origin .values with
      | .ok _ => c
      | .error message => { c with taken := .exit 1 :: c.taken, message := some message }
    | .execute [] => { c with taken := .exit 1 :: c.taken, message := some "list index out of range" }
    | .execute _ =>
      if refused then failed (systemText (.noSuchFile ""))
      else { c with taken := s :: c.taken }
    | _ => Child.trace refused { c with taken := s :: c.taken } rest

end ValueShell.Spawn
