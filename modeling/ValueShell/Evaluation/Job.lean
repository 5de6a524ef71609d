import ValueShell.Evaluation.Activity
import ValueShell.Pipeline.Plan
import ValueShell.Task.Runner

/-!
# The tasks of operators

A plan is evaluated by tasks: one for each operator, and one for each process. The tasks here know how
commands are joined; how a process runs is given by a `Leaf`.
-/

set_option autoImplicit false

namespace ValueShell.Evaluation

open ValueShell.Task

/-- What a task is told together with a response: which of the tasks that it called has finished. -/
inductive Mark where
  | only
  | left
  | right
  | word (i : Nat)
  | redirect (i : Nat)
  | piece (i : Nat)
  | backquote (i : Nat)
  /-- The command or process itself has ended. -/
  | ended
  deriving DecidableEq, Repr

/-- A redirection once its target is evaluated. -/
inductive Target where
  | descriptor (source target : Nat)
  | file (append : Bool) (source : Nat) (path : String)
  | capture (name : String)
  deriving DecidableEq, Repr

/-- What is wrong with a tree that is no more than an operator, or nothing at all. A pipe looks at the
kinds of its sides first, and the other operators evaluate their left side. -/
def bareTreeFault (operator : Value) : Fault :=
  match operator with
  | .none => .complaint .unknownTree
  | .text sign =>
    match Operator.ofSign? sign with
    | some .pipe => .noAttribute
    | some _ => .complaint .unknownTree
    | none => .complaint (.unknownOperator operator.source)
  | v => .complaint (.unknownOperator v.source)

/-- What a task responds with. -/
inductive Response where
  | status (n : Int)
  | values (vs : List Value)
  | token (t : Token)
  | target (t : Target)

/-- The status in a response; zero if it is none. -/
def Response.code : Response → Int
  | .status n => n
  | _ => 0

/-- A task. -/
inductive Job (π : Type) where
  | evaluate (streams : Streams Channel) (plan : Plan)
  /-- Evaluates one plan and, depending on its status, another. -/
  | series (streams : Streams Channel) (op : Operator) (left right : Plan)
  | store (streams : Streams Channel) (command : Plan) (name : String)
  /-- Writes the values of a plan as text: through a pipe of values and a worker. -/
  | render (streams : Streams Channel) (command : Plan) (opened : Option (Nat × Nat))
  /-- Evaluates two plans that are joined by a pipe of values. -/
  | joinValues (streams : Streams Channel) (left right : Plan) (pipe : Option Nat)
  /-- Evaluates two plans that are joined by a pipe of text, with the ends that are still open. -/
  | joinText (streams : Streams Channel) (left right : Plan) (read write : Option Nat)
  | respond (response : Response)
  | leaf (task : π)

/-- How processes run. -/
structure Leaf (π : Type) where
  /-- The task of a process. -/
  launch : Streams Channel → List (List PlanPiece) → List Redirect → π
  start : Nat → π → World → Reaction (Job π) Mark Response World
  resume : Nat → π → Mark → Response → World → Reaction (Job π) Mark Response World
  dispose : π → World → Disposal (Job π) World

namespace Job

variable {π : Type}

/-- A reaction that only makes requests. -/
def ask (job : Job π) (w : World) (requests : List (Request (Job π) Mark Response)) :
    Reaction (Job π) Mark Response World :=
  { task := job, world := w, requests }

/-- A reaction that fails. -/
def failWith (job : Job π) (w : World) (fault : Fault) : Reaction (Job π) Mark Response World :=
  { task := job, world := w, fault := some fault }

/-- The task of a pipe. Its sides must have kinds, and the kinds must fit. -/
def pipe (streams : Streams Channel) (left right : Plan) : Except Fault (Job π) :=
  match left.kinds?, right.kinds? with
  | some l, some r =>
    if !l.output.isText && r.input.isText then .error .unmet
    else if l.output.isText then .ok (.joinText streams left right none none)
    else .ok (.joinValues streams left right none)
  | _, _ => .error .noAttribute

/-- The task of a plan. -/
def ofPlan (leaf : Leaf π) (streams : Streams Channel) : Plan → Except Fault (Job π)
  | .process _ words redirects => .ok (.leaf (leaf.launch streams words redirects))
  | .binary _ .pipe left right => pipe streams left right
  | .binary _ op left right => .ok (.series streams op left right)
  | .assign _ command name => .ok (.store streams command name)
  | .rendered _ command => .ok (.render streams command none)

/-- The operator goes on with its right side after a status of its left side. -/
def goesOn (op : Operator) (status : Int) : Bool :=
  match op with
  | .andThen => status == 0
  | .orElse => status != 0
  | _ => true

/-- Starts a task. -/
def start (leaf : Leaf π) (self : Nat) (job : Job π) (w : World) :
    Reaction (Job π) Mark Response World :=
  match job with
  | .evaluate streams plan =>
    match ofPlan leaf streams plan with
    | .ok next => job.ask w [.call next .only]
    | .error fault => job.failWith w fault
  | .series streams _ left _ => job.ask w [.call (.evaluate streams left) .left]
  | .store streams command _ => job.ask w [.call (.evaluate streams command) .only]
  | .render streams command _ =>
    match World.sinkOf streams.output with
    | .error fault => job.failWith w fault
    | .ok sink =>
      let (pipe, w) := w.newValuePipe .text
      let (worker, w) := w.newWorker (.writePipe pipe none sink)
      ask (.render streams command (some (pipe, worker))) w
        [.call (.evaluate (Streams.within (some streams) none (some (.values pipe))) command) .only]
  | .joinValues streams left right _ =>
    let (pipe, w) := w.newValuePipe .values
    ask (.joinValues streams left right (some pipe)) w
      [.call (.evaluate (Streams.within (some streams) none (some (.values pipe))) left) .left,
        .call (.evaluate (Streams.within (some streams) (some (.values pipe)) none) right) .right]
  | .joinText streams left right _ _ =>
    let (n, w) := w.newTextPipe
    let written : Channel := .descriptor (.writeEnd n)
    let read : Channel := .descriptor (.readEnd n)
    ask (.joinText streams left right (some n) (some n)) w
      [.call (.evaluate (Streams.within (some streams) none (some written)) left) .left,
        .call (.evaluate (Streams.within (some streams) (some read) none) right) .right]
  | .respond response => job.ask w [.finish response]
  | .leaf task => leaf.start self task w

/-- Resumes a task. -/
def resume (leaf : Leaf π) (self : Nat) (job : Job π) (mark : Mark) (response : Response) (w : World) :
    Reaction (Job π) Mark Response World :=
  match job with
  | .evaluate .. => job.ask w [.finish response]
  | .series streams op _ right =>
    if mark = .left && goesOn op response.code then
      job.ask w [.call (.evaluate streams right) .right]
    else job.ask w [.finish response]
  | .store _ _ name => job.ask (w.store name (.status response.code)) [.finish response]
  | .render .. => job.ask w [.finish response]
  | .joinValues _ _ _ pipe =>
    if mark = .left then
      match pipe with
      | some p => job.ask (w.closeValues p) []
      | none => job.ask w []
    else job.ask w [.finish response]
  | .joinText streams left right read write =>
    if mark = .left then
      match write with
      | none => job.ask w []
      | some n =>
        match w.close (.writeEnd n) with
        | .ok w => ask (.joinText streams left right read none) w []
        | .error fault => job.failWith w fault
    else
      match read with
      | none => job.ask w [.finish response]
      | some n =>
        match w.close (.readEnd n) with
        | .ok w => ask (.joinText streams left right none write) w [.finish response]
        | .error fault => job.failWith w fault
  | .respond _ => job.ask w []
  | .leaf task => leaf.resume self task mark response w

/-- Closes an end of a pipe that is still open. -/
def closeEnd (toEnd : Nat → Descriptor) (n : Option Nat) (w : World) : Except Fault World :=
  match n with
  | some n => w.close (toEnd n)
  | none => .ok w

/-- Disposes a task. -/
def dispose (leaf : Leaf π) (job : Job π) (w : World) : Disposal (Job π) World :=
  match job with
  | .render _ _ (some (pipe, worker)) =>
    let w := w.closeValues pipe
    match w.join worker with
    | .ok w => { task := job, world := w }
    | .error fault => { task := job, world := w, fault := some fault }
  | .joinValues _ _ _ (some pipe) => { task := job, world := w.closeValues pipe }
  | .joinText streams left right read write =>
    match closeEnd .writeEnd write w with
    | .error fault => { task := job, world := w, fault := some fault }
    | .ok w =>
      match closeEnd .readEnd read w with
      | .error fault =>
        { task := .joinText streams left right read none, world := w, fault := some fault }
      | .ok w => { task := .joinText streams left right none none, world := w }
  | .leaf task => leaf.dispose task w
  | job => { task := job, world := w }

/-- How tasks react. -/
def behavior (leaf : Leaf π) : Behavior (Job π) Mark Response World where
  start := fun place _ job w => job.start leaf place.self w
  resume := fun place job mark response w => job.resume leaf place.self mark response w
  dispose := fun job w => job.dispose leaf w

end Job

end ValueShell.Evaluation
