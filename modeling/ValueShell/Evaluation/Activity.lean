import ValueShell.Evaluation.World

/-!
# What goes on beside the tasks

Values are taken from commands one at a time, and a command reads its input only as far as it is asked
for values. Workers take values and lines and write them somewhere. Processes run once their input is
complete. `World.turn` lets one of them go on: workers come before processes, and older ones before
newer ones.
-/

set_option autoImplicit false

namespace ValueShell.Evaluation

open ValueShell.Text ValueShell.Spawn

namespace Activation

/-- The command writes nothing by its own declaration. -/
def isSilent (a : Activation) : Bool := a.command.output == some .nothing

/-- The output is a table that is read as text. -/
def isRendered (a : Activation) : Bool := a.reader == .text && a.columns.isSome

/-- The values of a row. -/
def valuesOfRow : Value → Value
  | .row _ _ values => values
  | v => v

/-- The end of a command that did all its work. -/
def conclude (a : Activation) : Activation :=
  if a.isRendered then
    match Table.pretty (a.columns.getD []) (a.held.map valuesOfRow) Table.separator with
    | .ok text => { a with pending := [.text (trimLineEnd text)], held := [], phase := .over 0 }
    | .error _ => { a with held := [], phase := .over 1 }
  else { a with phase := .over 0 }

/-- Takes values over: to be taken from it, or to be rendered at the end. -/
def accept (a : Activation) (values : List Value) : Activation :=
  if a.isRendered then { a with held := a.held ++ values } else { a with pending := values }

/-- Takes over what a call or an element gave, when the columns are known. -/
def settle (a : Activation) (o : Output) : Activation :=
  if !a.isRendered && a.isSilent && !o.values.isEmpty then { a with phase := .over 1 }
  else if o.fault.isSome || o.absent then { a.accept o.values with held := [], phase := .over 1 }
  else
    match o.next with
    | some stage => { a.accept o.values with phase := .running stage }
    | none => (a.accept o.values).conclude

/-- Takes over what a call or an element gave. -/
def absorb (a : Activation) (o : Output) : Activation :=
  { a with columns := a.columns.or o.columns }.settle o

end Activation

/-- What someone who asks for a value gets. -/
inductive Pulled where
  | value (v : Value)
  | ended
  | blocked

namespace World

/-- Calls a command. -/
def begin (w : World) (n : Nat) (a : Activation) : World :=
  let supply : Supply := match a.input with
    | none => .nothing
    | some (.descriptor _) => .lines
    | some (.values _) => .elements
  let o := a.command.start
    { args := a.args, supply, surroundings := w.surroundings, mark := w.nextMark
      files := w.files, home := w.home }
  { w with
    nextMark := w.nextMark + 1
    files := o.files.getD w.files
    activations := w.activations.set n (a.absorb o) }

/-- Reads a line from a descriptor. -/
def pullLine (w : World) (d : Descriptor) : Pulled × World :=
  match d with
  | .input =>
    let (line, input) := w.input.readLine
    ((line.map fun s => Pulled.value (.text s)).getD .ended, { w with input })
  | .readEnd n =>
    if !w.isAtEnd n then (.blocked, w)
    else
      match w.textPipes[n]? with
      | some p =>
        let (line, source) := p.source.readLine
        ((line.map fun s => Pulled.value (.text s)).getD .ended,
          { w with textPipes := w.textPipes.set n { p with source } })
      | none => (.ended, w)
  | _ => (.ended, w)

mutual

/-- The next value of a command. `steps` bounds the work. -/
def pull : Nat → World → Nat → Pulled × World
  | 0, w, _ => (.blocked, w)
  | steps + 1, w, n =>
    match w.activations[n]? with
    | none => (.ended, w)
    | some a =>
      match a.pending with
      | v :: rest => (.value v, { w with activations := w.activations.set n { a with pending := rest } })
      | [] =>
        match a.phase with
        | .fresh => pull steps (w.begin n a) n
        | .told => (.ended, w)
        | .over status =>
          (.ended, { w.complete a.owner status with
            activations := w.activations.set n { a with phase := .told } })
        | .running stage =>
          match pullInput steps w n a with
          | (.blocked, w, _) => (.blocked, w)
          | (.ended, w, a) =>
            pull steps { w with activations := w.activations.set n (a.absorb (stage.receive none)) } n
          | (.value v, w, a) =>
            pull steps { w with activations := w.activations.set n (a.absorb (stage.receive (some v))) } n

/-- The next element of the input of a command. -/
def pullInput : Nat → World → Nat → Activation → Pulled × World × Activation
  | 0, w, _, a => (.blocked, w, a)
  | steps + 1, w, n, a =>
    match a.input with
    | none => (.ended, w, a)
    | some (.descriptor d) =>
      let (found, w) := w.pullLine d
      (found, w, a)
    | some (.values p) =>
      let (found, source, w) := pullPipe steps w p a.source
      let a := { a with source }
      (found, { w with activations := w.activations.set n a }, a)

/-- The next value of a pipe, when `source` is being read. -/
def pullPipe : Nat → World → Nat → Option Nat → Pulled × Option Nat × World
  | 0, w, _, source => (.blocked, source, w)
  | steps + 1, w, p, some n =>
    match pull steps w n with
    | (.value v, w) => (.value v, some n, w)
    | (.blocked, w) => (.blocked, some n, w)
    | (.ended, w) => pullPipe steps w p none
  | steps + 1, w, p, none =>
    match w.valuePipes[p]? with
    | none => (.ended, none, w)
    | some pipe =>
      match pipe.take with
      | .source n rest => pullPipe steps { w with valuePipes := w.valuePipes.set p rest } p (some n)
      | .ended => (.ended, none, w)
      | .blocked => (.blocked, none, w)

end

/-- How much work one value may take. -/
def maxSteps : Nat := 1000000000

/-- Changes what a worker does. -/
def setWork (w : World) (n : Nat) (worker : Worker) : World :=
  { w with workers := w.workers.set n worker }

/-- Lets a worker go on: whether it did something, and the world afterwards. -/
def workerTurn (w : World) (n : Nat) : Bool × World :=
  match w.workers[n]? with
  | none => (false, w)
  | some worker =>
    if worker.finished then (false, w)
    else
      match worker.work with
      | .writePipe p source sink =>
        match pullPipe maxSteps w p source with
        | (.value v, source, w) =>
          (true, (w.setWork n { work := .writePipe p source sink }).write sink (v.display ++ "\n"))
        | (.ended, _, w) => (true, w.setWork n { worker with finished := true })
        | (.blocked, source, w) => (false, w.setWork n { work := .writePipe p source sink })
      | .write a sink =>
        match pull maxSteps w a with
        | (.value v, w) => (true, w.write sink (v.display ++ "\n"))
        | (.ended, w) => (true, w.setWork n { worker with finished := true })
        | (.blocked, w) => (false, w)
      | .collect a c =>
        match pull maxSteps w a with
        | (.value v, w) => (true, w.capture c [v])
        | (.ended, w) => (true, w.setWork n { worker with finished := true })
        | (.blocked, w) => (false, w)
      | .collectLines p c =>
        if !w.isAtEnd p then (false, w)
        else
          match w.textPipes[p]? with
          | none => (true, w.setWork n { worker with finished := true })
          | some pipe =>
            let (text, source) := pipe.source.readAll
            let text := String.ofList (normalizeNewlines text.toList)
            let lines := pipe.source.held ++ linesOf text
            let w := { w with
              textPipes := w.textPipes.set p { pipe with source := { source with held := [] } } }
            (true, (w.capture c (lines.map fun line => .text (trimLineEnd line))).setWork n
              { worker with finished := true })

/-- Lets the first worker that can go on do so. A worker that reports the end of a command has done
something, even if it waits for more. -/
def workersTurn (w : World) : List Nat → Bool × World
  | [] => (false, w)
  | n :: rest =>
    let before := w.completions.length
    let (moved, w) := w.workerTurn n
    if moved || before < w.completions.length then (true, w) else workersTurn w rest

/-- The process can run: its input is complete, or it reads none. -/
def isReady (w : World) (p : ChildProcess) : Bool :=
  match p.program with
  | none => true
  | some (name, words) =>
    !Program.readsInput name (words.drop 1) ||
      match p.endpoints.lookup 0 with
      | some (.readEnd n) => w.isAtEnd n
      | _ => true

/-- What a process can read, and the world in which it has read it. -/
def readInput (w : World) (p : ChildProcess) : String × World :=
  match p.endpoints.lookup 0 with
  | some .input =>
    let (text, input) := w.input.readAll
    (text, { w with input })
  | some (.readEnd n) =>
    match w.textPipes[n]? with
    | some pipe =>
      let (text, source) := pipe.source.readAll
      (text, { w with textPipes := w.textPipes.set n { pipe with source } })
    | none => ("", w)
  | _ => ("", w)

/-- Runs a process to its end. -/
def runProcess (w : World) (n : Nat) (p : ChildProcess) : World :=
  let (result, w) : Program.Result × World := match p.program with
    | none => ({ status := Program.exitStatus 1 }, w)
    | some (name, words) =>
      let (input, w) := if Program.readsInput name (words.drop 1) then w.readInput p else ("", w)
      let c : Program.Context :=
        { files := { w.files with current := p.directory }, environment := w.environment, input
          open_ := p.endpoints.map (·.1) }
      ((Program.run c name (words.drop 1)).getD {}, w)
  let w := result.writes.foldl (fun w (d, text) =>
    match p.endpoints.lookup d with
    | some e => w.emit e text
    | none => w) w
  let (who, reaper) := w.reaper.reap n result.status
  let w := { w with reaper, processes := w.processes.set n { p with ended := true } }
  match who with
  | some owner => w.complete owner result.status
  | none => w

/-- Runs the first process that can run. -/
def processTurn (w : World) : Option World :=
  (w.processes.zipIdx.find? fun (p, _) => !p.ended && w.isReady p).map fun (p, n) => w.runProcess n p

/-- Lets something go on; nothing if nothing can. -/
def turn (w : World) : Option World :=
  match w.workersTurn (List.range w.workers.length) with
  | (true, w) => some w
  | (false, w) => w.processTurn

/-- Lets things go on until a condition holds. `turns` bounds them. -/
def runUntil (holds : World → Bool) : Nat → World → Except Fault World
  | 0, _ => .error .stuck
  | turns + 1, w =>
    if holds w then .ok w
    else
      match w.turn with
      | some w => runUntil holds turns w
      | none => .error .stuck

/-- Waits for a worker. -/
def join (w : World) (n : Nat) : Except Fault World :=
  runUntil (fun w => (w.workers[n]?).all Worker.finished) maxSteps w

/-- The next end of a command or process. -/
def nextCompletion (w : World) : Except Fault (Completion × World) := do
  let w ← runUntil (fun w => !w.completions.isEmpty) maxSteps w
  match w.completions with
  | c :: rest => .ok (c, { w with completions := rest })
  | [] => .error .stuck

/-- Runs the processes that can still run. -/
def finishProcesses : Nat → World → World
  | 0, w => w
  | turns + 1, w =>
    match w.processTurn with
    | some w => finishProcesses turns w
    | none => w

end World

end ValueShell.Evaluation
