import ValueShell.Evaluation.Job

/-!
# The tasks of processes and words

A process first evaluates its words and the targets of its redirections, each by a task of its own. Then
it calls a registered command or creates a child process, and waits for its end.
-/

set_option autoImplicit false

namespace ValueShell.Evaluation

open ValueShell.Task ValueShell.Spawn

/-- What a piece of a word gives. -/
inductive PieceResult where
  | token (t : Token)
  /-- The words of the output of a command. -/
  | words (ts : List Token)

/-- Puts the words of an output to groups: the first joins the group being made, and each other one
begins a group. -/
def joinWords (groups : List (List Token)) (current : List Token) :
    List Token → List (List Token) × List Token
  | [] => (groups, current)
  | t :: rest =>
    rest.foldl (fun (groups, current) t => (groups ++ [current], [t])) (groups, current ++ [t])

/-- The groups of tokens that the pieces of a word give. `current` is the group being made. -/
def groupPieces (groups : List (List Token)) (current : List Token) :
    List PieceResult → List (List Token)
  | [] => groups ++ [current]
  | .token t :: rest => groupPieces groups (current ++ [t]) rest
  | .words ts :: rest =>
    let (groups, current) := joinWords groups current ts
    groupPieces groups current rest

/-- The tokens for the words of captured lines. -/
def outputTokens (lines : List Value) : List Token :=
  (Text.wordsOf (" ".intercalate (lines.map Value.display))).map fun word =>
    { kind := .singleQuoted, text := Text.quote word }

/-- What a command in a word writes to: a pipe, the worker that collects its lines, and the capture. -/
structure Backquote where
  pipe : Nat
  worker : Nat
  capture : Nat
  deriving DecidableEq, Repr

/-- The task of a word. -/
structure WordTask where
  streams : Streams Channel
  pieces : List PlanPiece
  results : List (Option PieceResult)
  /-- The commands that are still running, by the place of their pieces. -/
  running : List (Option Backquote)

/-- The task of a process. -/
structure ProcessTask where
  streams : Streams Channel
  words : List (List PlanPiece)
  redirects : List Redirect
  /-- The values of the words that are evaluated. -/
  values : List (Option (List Value))
  targets : List (Option Target)
  /-- The worker that takes the output of a command elsewhere. -/
  worker : Option Nat := none
  file : Option Nat := none
  /-- The pipes whose lines are captured, with their workers. -/
  captures : List (Nat × Nat) := []

/-- The task of a process or of a word. -/
inductive LeafTask where
  | process (p : ProcessTask)
  | word (t : WordTask)

/-- What a leaf does. -/
abbrev LeafReaction := Reaction (Job LeafTask) Mark Response World

/-- A request of a leaf. -/
abbrev LeafRequest := Request (Job LeafTask) Mark Response

/-- Fails with a fault. -/
def leafFault (t : LeafTask) (w : World) (fault : Fault) : LeafReaction :=
  { task := .leaf t, world := w, fault := some fault }

/-- Makes requests. -/
def leafAsk (t : LeafTask) (w : World) (requests : List LeafRequest) : LeafReaction :=
  { task := .leaf t, world := w, requests }

namespace WordTask

/-- A task for the pieces of a word. -/
def ofPieces (streams : Streams Channel) (pieces : List PlanPiece) : WordTask :=
  { streams, pieces
    results := pieces.map fun _ => none
    running := pieces.map fun _ => none }

/-- Starts the pieces from a place on. -/
def startPieces (t : WordTask) (w : World) (i : Nat) :
    List PlanPiece → WordTask × World × List LeafRequest
  | [] => (t, w, [])
  | .token token :: rest =>
    let (t, w, others) := startPieces t w (i + 1) rest
    (t, w, .call (.respond (.token token)) (.piece i) :: others)
  | .backquote plan :: rest =>
    let (pipe, w) := w.newTextPipe
    let (capture, w) := w.newCapture
    let (worker, w) := w.newWorker (.collectLines pipe capture)
    let t := { t with running := t.running.set i (some { pipe, worker, capture }) }
    let streams := Streams.within (some t.streams) none (some (.descriptor (.writeEnd pipe)))
    let (t, w, others) := startPieces t w (i + 1) rest
    (t, w, .call (.evaluate streams plan) (.backquote i) :: others)

/-- Starts a word. -/
def start (t : WordTask) (w : World) : LeafReaction :=
  let (t, w, requests) := t.startPieces w 0 t.pieces
  leafAsk (.word t) w requests

/-- Closes the pipe of a command in the word, once its lines are collected. -/
def closeBackquote (b : Backquote) (w : World) : Except Fault World := do
  let w ← w.close (.writeEnd b.pipe)
  let w ← w.join b.worker
  w.close (.readEnd b.pipe)

/-- Finishes if every piece has its result. -/
def conclude (t : WordTask) (w : World) : LeafReaction :=
  if t.results.any Option.isNone then leafAsk (.word t) w []
  else
    let groups := groupPieces [] [] (t.results.filterMap id)
    match groups.mapM w.scope.evalWord with
    | .ok values => leafAsk (.word t) w [.finish (.values values.flatten)]
    | .error fault => leafFault (.word t) w fault

/-- Takes the result of a piece. -/
def resume (t : WordTask) (mark : Mark) (response : Response) (w : World) : LeafReaction :=
  match mark, response with
  | .piece i, .token token => conclude { t with results := t.results.set i (some (.token token)) } w
  | .backquote i, _ =>
    match (t.running[i]?).join with
    | none => leafAsk (.word t) w []
    | some b =>
      let t := { t with running := t.running.set i none }
      match closeBackquote b w with
      | .error fault => leafFault (.word t) w fault
      | .ok w =>
        let tokens := outputTokens ((w.captures[b.capture]?).getD [])
        conclude { t with results := t.results.set i (some (.words tokens)) } w
  | _, _ => leafAsk (.word t) w []

/-- Closes the pipes of the commands that are still running. -/
def dispose (t : WordTask) (w : World) : Disposal (Job LeafTask) World :=
  go t w (List.range t.running.length)
where
  /-- Closes the pipes at some places. -/
  go (t : WordTask) (w : World) : List Nat → Disposal (Job LeafTask) World
    | [] => { task := .leaf (.word t), world := w }
    | i :: rest =>
      match (t.running[i]?).join with
      | none => go t w rest
      | some b =>
        let t := { t with running := t.running.set i none }
        match closeBackquote b w with
        | .ok w => go t w rest
        | .error fault => { task := .leaf (.word t), world := w, fault := some fault }

end WordTask

/-- The words that a value gives a program: those of a list one by one. -/
def programWords : Value → List String
  | .list vs => vs.map Value.display
  | v => [v.display]

namespace ProcessTask

/-- A task for a process. -/
def ofWords (streams : Streams Channel) (words : List (List PlanPiece)) (redirects : List Redirect) :
    ProcessTask :=
  { streams, words, redirects
    values := words.map fun _ => none
    targets := redirects.map fun _ => none }

/-- The request for the target of a redirection. -/
def targetRequest (streams : Streams Channel) (i : Nat) : Redirect → LeafRequest
  | .capture name => .call (.respond (.target (.capture name))) (.redirect i)
  | .descriptor _ source target => .call (.respond (.target (.descriptor source target))) (.redirect i)
  | .file _ _ pieces =>
    .call (.leaf (.word (.ofPieces streams (Plan.ofPieces pieces)))) (.redirect i)

/-- Starts a process. -/
def start (p : ProcessTask) (w : World) : LeafReaction :=
  let words := p.words.zipIdx.map fun (word, i) =>
    Request.call (Job.leaf (LeafTask.word (.ofPieces p.streams word))) (Mark.word i)
  let targets := p.redirects.zipIdx.map fun (r, i) => targetRequest p.streams i r
  leafAsk (.process p) w (words ++ targets)

/-- Calls a registered command. -/
def callCommand (p : ProcessTask) (self : Nat) (c : Command) (args : List Value) (targets : List Target)
    (w : World) : LeafReaction :=
  let activation (reader : StreamKind) : Activation :=
    { owner := self, command := c, args, reader
      input := if c.input = some .nothing then none else p.streams.input }
  match targets with
  | [] =>
    match p.streams.output with
    | some (.values pipe) =>
      let reader := ((w.valuePipes[pipe]?).map ValuePipe.reader).getD .values
      let (n, w) := w.newActivation (activation reader)
      leafAsk (.process p) (w.addSource pipe n) []
    | _ => leafFault (.process p) w .noAttribute
  | [.file append 1 path] =>
    match w.openFile path append with
    | .error fault => leafFault (.process p) w fault
    | .ok (file, w) =>
      let (n, w) := w.newActivation (activation .text)
      let (worker, w) := w.newWorker (.write n (.file file))
      leafAsk (.process { p with worker := some worker, file := some file }) w []
  | [.capture name] =>
    let (capture, w) := w.newCapture
    let w := w.store name (.captured capture)
    let (n, w) := w.newActivation (activation .values)
    let (worker, w) := w.newWorker (.collect n capture)
    leafAsk (.process { p with worker := some worker }) w []
  | _ => leafFault (.process p) w .unmet

/-- Makes the pipes of captures. -/
def openCaptures (p : ProcessTask) (w : World) :
    List Target → ProcessTask × World × List Redirection
  | [] => (p, w, [])
  | .descriptor source target :: rest =>
    let (p, w, others) := openCaptures p w rest
    (p, w, .copy source target :: others)
  | .file append source path :: rest =>
    let (p, w, others) := openCaptures p w rest
    (p, w, .file append source path :: others)
  | .capture name :: rest =>
    let (capture, w) := w.newCapture
    let w := w.store name (.captured capture)
    let (pipe, w) := w.newTextPipe
    let (worker, w) := w.newWorker (.collectLines pipe capture)
    let (p, w, others) := openCaptures { p with captures := p.captures ++ [(pipe, worker)] } w rest
    (p, w, .capture (.writeEnd pipe) :: others)

/-- Closes descriptors one after the other. -/
def closeAll (w : World) : List Descriptor → Except Fault World
  | [] => .ok w
  | d :: rest => do closeAll (← w.close d) rest

/-- Creates a child process. -/
def createChild (p : ProcessTask) (self : Nat) (args : List Value) (targets : List Target)
    (w : World) : LeafReaction :=
  let (p, w, redirections) := p.openCaptures w targets
  let launch : Launch :=
    { ends := w.openEnds, streams := p.streams, redirections, words := args.flatMap programWords }
  match w.recording with
  | some refused =>
    let child := Child.trace refused { files := w.files } launch.steps
    leafAsk (.process p) { w with files := child.files, recorded := some child } []
  | none =>
    let child := Child.run w.path { files := w.files } launch.steps
    let w := { w with files := child.files }
    let w := match child.message, child.endpoints.lookup 2 with
      | some message, some e => w.emit e (message ++ "\n")
      | _, _ => w
    let number := w.processes.length
    let w := { w with processes := w.processes ++
      [{ endpoints := child.endpoints
         program := child.program.map fun name => (name, launch.words)
         directory := w.files.current }] }
    match closeAll w (p.captures.map fun (pipe, _) => Descriptor.writeEnd pipe) with
    | .error fault => leafFault (.process p) w fault
    | .ok w =>
      match w.reaper.register number self with
      | .error fault => leafFault (.process p) w fault
      | .ok (none, reaper) => leafAsk (.process p) { w with reaper } []
      | .ok (some status, reaper) => leafAsk (.process p) ({ w with reaper }.complete self status) []

/-- Runs what the words mean once they and the redirections are evaluated. -/
def invoke (p : ProcessTask) (self : Nat) (w : World) : LeafReaction :=
  if p.values.any Option.isNone || p.targets.any Option.isNone then leafAsk (.process p) w []
  else
    let args := (p.values.filterMap id).flatten
    let targets := p.targets.filterMap id
    match args with
    | [] => leafFault (.process p) w .outOfRange
    | first :: _ =>
      match w.registry.find? first with
      | some c => p.callCommand self c args targets w
      | none => p.createChild self args targets w

/-- Waits for workers one after the other. -/
def joinAll (w : World) : List Nat → Except Fault World
  | [] => .ok w
  | n :: rest => do joinAll (← w.join n) rest

/-- Finishes after the command or process has ended. -/
def conclude (p : ProcessTask) (response : Response) (w : World) : LeafReaction :=
  let finished : Except Fault World := do
    let w ← joinAll w p.worker.toList
    let w := match p.file with
      | some n => w.closeFile n
      | none => w
    let w ← joinAll w (p.captures.map (·.2))
    closeAll w (p.captures.map fun (pipe, _) => Descriptor.readEnd pipe)
  match finished with
  | .ok w => leafAsk (.process { p with file := none, captures := [] }) w [.finish response]
  | .error fault => leafFault (.process p) w fault

/-- The target of a redirection from the values of its word. -/
def targetOf (r : Option Redirect) (vs : List Value) : Except Fault Target :=
  match r, vs with
  | some (.file append source _), v :: _ => .ok (.file append source v.display)
  | _, _ => .error .outOfRange

/-- Takes the values of a word, the target of a redirection, or the end. -/
def resume (p : ProcessTask) (self : Nat) (mark : Mark) (response : Response) (w : World) :
    LeafReaction :=
  match mark, response with
  | .word i, .values vs => invoke { p with values := p.values.set i (some vs) } self w
  | .redirect i, .target t => invoke { p with targets := p.targets.set i (some t) } self w
  | .redirect i, .values vs =>
    match targetOf (p.redirects[i]?) vs with
    | .ok t => invoke { p with targets := p.targets.set i (some t) } self w
    | .error fault => leafFault (.process p) w fault
  | .ended, response => p.conclude response w
  | _, _ => leafAsk (.process p) w []

end ProcessTask

/-- How processes and words are evaluated. -/
def LeafTask.leaf : Leaf LeafTask where
  launch := fun streams words redirects => .process (.ofWords streams words redirects)
  start := fun _ t w =>
    match t with
    | .process p => p.start w
    | .word t => t.start w
  resume := fun self t mark response w =>
    match t with
    | .process p => p.resume self mark response w
    | .word t => t.resume mark response w
  dispose := fun t w =>
    match t with
    | .process p => { task := .leaf (.process p), world := w }
    | .word t => t.dispose w

end ValueShell.Evaluation
