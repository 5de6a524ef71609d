import ValueShell.Pipeline.Command
import ValueShell.Pipeline.ValuePipe
import ValueShell.Pipeline.Word
import ValueShell.Spawn.Child
import ValueShell.Spawn.Reaper

/-!
# The world of a running command

Everything that the parts of a running command share: the files, the standard streams, the pipes between
the parts, the commands that produce values, the workers that move values and lines along, and the
processes.
-/

set_option autoImplicit false

namespace ValueShell.Evaluation

open ValueShell.Text ValueShell.Spawn

/-- Text that can be read: what nobody has read yet, and lines that were read ahead. A process reads the
former; whoever reads line by line takes all of it ahead. -/
structure TextSource where
  unread : String := ""
  held : List String := []
  deriving Repr, Inhabited

namespace TextSource

/-- Reads a line. -/
def readLine (s : TextSource) : Option String × TextSource :=
  match s.held with
  | line :: rest => (some line, { s with held := rest })
  | [] =>
    match linesOf (String.ofList (normalizeNewlines s.unread.toList)) with
    | line :: rest => (some line, { unread := "", held := rest })
    | [] => (none, { unread := "", held := [] })

/-- Reads what nobody has read. -/
def readAll (s : TextSource) : String × TextSource := (s.unread, { s with unread := "" })

end TextSource

/-- A pipe of text. What is written on this side is kept until the end is closed. -/
structure TextPipe where
  source : TextSource := {}
  readOpen : Bool := true
  writeOpen : Bool := true
  buffered : String := ""
  deriving Repr, Inhabited

/-- A file that values are written to. What is written is kept until the file is closed. -/
structure OpenFile where
  location : Files.Location
  buffered : String := ""
  closed : Bool := false
  deriving Repr, Inhabited

/-- How far a command is. -/
inductive Phase where
  /-- It is not called yet. -/
  | fresh
  /-- It waits for its input. -/
  | running (next : Stage)
  /-- It has produced everything, with a status. -/
  | over (status : Int)
  /-- Its status has been told. -/
  | told

/-- A command that was called, as a source of values. -/
structure Activation where
  /-- The task that waits for its end. -/
  owner : Nat
  command : Command
  args : List Value
  input : Option Channel
  /-- What the reader makes of the values: a table that is read as text is written out at once. -/
  reader : StreamKind
  phase : Phase := .fresh
  /-- Values that are ready to be taken. -/
  pending : List Value := []
  columns : Option (List String) := none
  /-- Rows of a table that is read as text. -/
  held : List Value := []
  /-- The source in a pipe that it is reading from. -/
  source : Option Nat := none

/-- Where a worker writes text. -/
inductive Sink where
  | output
  | pipe (n : Nat)
  | file (n : Nat)
  deriving DecidableEq, Repr

/-- What a worker does. -/
inductive Work where
  | writePipe (pipe : Nat) (source : Option Nat) (sink : Sink)
  | write (activation : Nat) (sink : Sink)
  | collect (activation : Nat) (capture : Nat)
  | collectLines (pipe : Nat) (capture : Nat)

/-- A worker. -/
structure Worker where
  work : Work
  finished : Bool := false

/-- A child process. -/
structure ChildProcess where
  endpoints : Endpoints
  /-- The program and its words; nothing if it could not be executed. -/
  program : Option (String × List String)
  directory : Files.Location
  ended : Bool := false

/-- The end of a command or process: the task that waits for it, and the status. -/
structure Completion where
  owner : Nat
  status : Int
  deriving DecidableEq, Repr

/-- A result that is handed back under a name. -/
inductive Stored where
  | status (n : Int)
  | captured (capture : Nat)
  deriving DecidableEq, Repr

/-- The world of a running command. -/
structure World where
  files : Files.Tree := {}
  input : TextSource := {}
  output : String := ""
  surroundings : Surroundings := {}
  environment : List (String × String) := []
  registry : Registry := []
  nextMark : Nat := 0
  valuePipes : List (ValuePipe Nat) := []
  textPipes : List TextPipe := []
  openFiles : List OpenFile := []
  captures : List (List Value) := []
  activations : List Activation := []
  workers : List Worker := []
  processes : List ChildProcess := []
  reaper : Reaper Nat := {}
  /-- The ends that are not taken notice of, the newest first. -/
  completions : List Completion := []
  stored : List (String × Stored) := []
  /-- The first child process is only recorded, and its program is refused or not. -/
  recording : Option Bool := none
  recorded : Option Child := none

namespace World

/-- The home directory. -/
def home (w : World) : Option String := w.environment.lookup "HOME"

/-- The search path for programs. -/
def path (w : World) : String := (w.environment.lookup "PATH").getD "/bin:/usr/bin"

/-- What words are evaluated in: local names come before global ones, and these before the
environment. -/
def scope (w : World) : WordScope where
  names := w.surroundings.locals ++ w.surroundings.globals ++
    w.environment.map fun (name, v) => (name, .text v)
  home := w.home
  files := w.files

/-- Stores a result under a name. -/
def store (w : World) (name : String) (s : Stored) : World :=
  if w.stored.any fun e => e.1 == name then
    { w with stored := w.stored.map fun e => if e.1 == name then (name, s) else e }
  else { w with stored := w.stored ++ [(name, s)] }

/-- Makes a pipe of values. -/
def newValuePipe (w : World) (reader : StreamKind) : Nat × World :=
  (w.valuePipes.length, { w with valuePipes := w.valuePipes ++ [{ reader }] })

/-- Makes a pipe of text. -/
def newTextPipe (w : World) : Nat × World :=
  (w.textPipes.length, { w with textPipes := w.textPipes ++ [{}] })

/-- Makes an empty capture. -/
def newCapture (w : World) : Nat × World :=
  (w.captures.length, { w with captures := w.captures ++ [[]] })

/-- Starts a worker. -/
def newWorker (w : World) (work : Work) : Nat × World :=
  (w.workers.length, { w with workers := w.workers ++ [{ work }] })

/-- Calls a command. -/
def newActivation (w : World) (a : Activation) : Nat × World :=
  (w.activations.length, { w with activations := w.activations ++ [a] })

/-- Opens a file to write values to. -/
def openFile (w : World) (path : String) (append : Bool) : Except Fault (Nat × World) := do
  let (location, files) ← w.files.openFile path append
  .ok (w.openFiles.length, { w with files, openFiles := w.openFiles ++ [{ location }] })

/-- Closes a pipe of values. -/
def closeValues (w : World) (p : Nat) : World :=
  { w with valuePipes := w.valuePipes.modify p ValuePipe.close }

/-- Adds a source to a pipe of values. -/
def addSource (w : World) (p : Nat) (activation : Nat) : World :=
  { w with valuePipes := w.valuePipes.modify p fun pipe => pipe.add activation }

/-- Closes a descriptor. An end of a pipe can be closed once. -/
def close (w : World) (d : Descriptor) : Except Fault World :=
  match d with
  | .readEnd n =>
    match w.textPipes[n]? with
    | some p =>
      if p.readOpen then
        .ok { w with textPipes := w.textPipes.set n { p with readOpen := false } }
      else .error .badDescriptor
    | none => .error .badDescriptor
  | .writeEnd n =>
    match w.textPipes[n]? with
    | some p =>
      if p.writeOpen then
        let source := { p.source with unread := p.source.unread ++ p.buffered }
        .ok { w with
          textPipes := w.textPipes.set n { p with source, writeOpen := false, buffered := "" } }
      else .error .badDescriptor
    | none => .error .badDescriptor
  | _ => .ok w

/-- Closes a file that values were written to. -/
def closeFile (w : World) (n : Nat) : World :=
  match w.openFiles[n]? with
  | some f =>
    if f.closed then w
    else
      { w with
        files := w.files.append f.location f.buffered
        openFiles := w.openFiles.set n { f with buffered := "", closed := true } }
  | none => w

/-- The ends of pipes that are open on this side. -/
def openEnds (w : World) : List Descriptor :=
  let numbered := w.textPipes.zipIdx
  (numbered.filterMap fun (p, n) => if p.writeOpen then some (.writeEnd n) else none) ++
    (numbered.filterMap fun (p, n) => if p.readOpen then some (.readEnd n) else none)

/-- A running process holds the end of a pipe that is written to. -/
def isHeld (w : World) (n : Nat) : Bool :=
  w.processes.any fun p => !p.ended && p.endpoints.any fun e => e.2 == .writeEnd n

/-- Nothing more can be written to a pipe. -/
def isAtEnd (w : World) (n : Nat) : Bool :=
  match w.textPipes[n]? with
  | some p => !p.writeOpen && !w.isHeld n
  | none => true

/-- Writes text from this side. -/
def write (w : World) (sink : Sink) (text : String) : World :=
  match sink with
  | .output => { w with output := w.output ++ text }
  | .pipe n =>
    { w with textPipes := w.textPipes.modify n fun p => { p with buffered := p.buffered ++ text } }
  | .file n =>
    { w with openFiles := w.openFiles.modify n fun f => { f with buffered := f.buffered ++ text } }

/-- Writes text from a process. -/
def emit (w : World) (e : Endpoint) (text : String) : World :=
  match e with
  | .output => { w with output := w.output ++ text }
  | .writeEnd n =>
    { w with textPipes := w.textPipes.modify n fun p =>
        { p with source := { p.source with unread := p.source.unread ++ text } } }
  | .file location => { w with files := w.files.append location text }
  | _ => w

/-- Adds a value to a capture. -/
def capture (w : World) (c : Nat) (vs : List Value) : World :=
  { w with captures := w.captures.modify c (· ++ vs) }

/-- Reports an end. -/
def complete (w : World) (owner : Nat) (status : Int) : World :=
  { w with completions := ⟨owner, status⟩ :: w.completions }

/-- The text file behind a channel, to be written to. -/
def sinkOf (channel : Option Channel) : Except Fault Sink :=
  match channel with
  | some (.descriptor .output) => .ok .output
  | some (.descriptor (.writeEnd n)) => .ok (.pipe n)
  | some (.values _) => .error (.complaint (.unknownDescriptor "pipe"))
  | _ => .error .wrongKind

/-- The results by their names. -/
def results (w : World) : List (String × Value) :=
  w.stored.map fun (name, s) =>
    match s with
    | .status n => (name, .int n)
    | .captured c => (name, .list ((w.captures[c]?).getD []))

end World

end ValueShell.Evaluation
