import ValueShell.Fault

/-!
# A runner of tasks

A task is started, may call other tasks, is resumed with the response of each of them, and is finished
with a response of its own. The runner keeps the entries that wait to be processed on a stack and the
started tasks in controllers, which are numbered in the order of their creation. What is finished is
disposed, together with everything that it has called and that is not finished yet.

How tasks react is given by a `Behavior`, so that the runner itself knows nothing of what they do to
the world around them.
-/

set_option autoImplicit false

namespace ValueShell.Task

/-- What a task asks of the runner. -/
inductive Request (τ σ ρ : Type) where
  /-- Run a task; its response comes back with the state. -/
  | call (task : τ) (state : σ)
  /-- Run a task once nothing else is left to do. -/
  | callLater (task : τ) (state : σ)
  | finish (response : ρ)
  deriving Repr

/-- What a task can see of its place among the others. -/
structure Place (τ : Type) where
  /-- The number of its controller. -/
  self : Nat
  parent : Option τ
  /-- How many running tasks the caller has called, this one included. -/
  siblings : Nat
  /-- How many running tasks it has called itself. -/
  children : Nat
  disposed : Bool

/-- What a task does when it is started or resumed. -/
structure Reaction (τ σ ρ ω : Type) where
  /-- The task as it is afterwards. -/
  task : τ
  world : ω
  /-- What it asks for, the first request first. -/
  requests : List (Request τ σ ρ) := []
  /-- Why it failed, after the requests were made. -/
  fault : Option Fault := none

/-- What a task does when it is disposed. -/
structure Disposal (τ ω : Type) where
  task : τ
  world : ω
  fault : Option Fault := none

/-- How tasks react. -/
structure Behavior (τ σ ρ ω : Type) where
  start : Place τ → σ → τ → ω → Reaction τ σ ρ ω
  resume : Place τ → τ → σ → ρ → ω → Reaction τ σ ρ ω
  dispose : τ → ω → Disposal τ ω

/-- A started task. -/
structure Controller (τ σ : Type) where
  task : τ
  /-- What its caller is told together with the response. -/
  state : σ
  parent : Option Nat
  /-- The tasks that it has called and that are not finished, in the order of their start. -/
  children : List Nat := []
  disposed : Bool := false

/-- Something that waits to be processed. -/
inductive Entry (τ σ ρ : Type) where
  | call (task : τ) (state : σ) (parent : Option Nat)
  | finish (response : ρ) (controller : Nat)

/-- The runner. -/
structure Runner (τ σ ρ ω : Type) where
  world : ω
  /-- What waits to be processed, what comes next first. -/
  stack : List (Entry τ σ ρ)
  /-- What waits until the stack is empty, in the order in which it was asked for. -/
  later : List (Entry τ σ ρ) := []
  controllers : List (Controller τ σ) := []
  root : Option Nat := none
  response : Option ρ := none
  done : Bool := false

variable {τ σ ρ ω : Type}

namespace Runner

/-- A runner that is about to start a task. -/
def ofTask (task : τ) (state : σ) (world : ω) : Runner τ σ ρ ω :=
  { world, stack := [.call task state none] }

/-- Puts an entry on the stack. -/
def push (r : Runner τ σ ρ ω) (e : Entry τ σ ρ) : Runner τ σ ρ ω := { r with stack := e :: r.stack }

/-- Takes a request of a task. -/
def take (self : Nat) (r : Runner τ σ ρ ω) : Request τ σ ρ → Runner τ σ ρ ω
  | .call task state => r.push (.call task state (some self))
  | .callLater task state => { r with later := r.later ++ [.call task state (some self)] }
  | .finish response => r.push (.finish response self)

/-- Changes a controller. -/
def modify (r : Runner τ σ ρ ω) (c : Nat) (f : Controller τ σ → Controller τ σ) : Runner τ σ ρ ω :=
  { r with controllers := r.controllers.modify c f }

/-- A controller and everything below it, what is called before its caller. `depth` bounds the levels. -/
def descend (controllers : List (Controller τ σ)) : Nat → Nat → List Nat
  | 0, c => [c]
  | depth + 1, c =>
    match controllers[c]? with
    | some k => k.children.flatMap (descend controllers depth) ++ [c]
    | none => [c]

/-- A controller and everything below it. A task is newer than its caller, so there are no more levels
than controllers. -/
def subtree (r : Runner τ σ ρ ω) (c : Nat) : List Nat := descend r.controllers r.controllers.length c

/-- Disposes controllers one after the other, until one fails. -/
def disposeEach (b : Behavior τ σ ρ ω) :
    List Nat → Runner τ σ ρ ω → Runner τ σ ρ ω × Option Fault
  | [], r => (r, none)
  | c :: rest, r =>
    match r.controllers[c]? with
    | none => disposeEach b rest r
    | some k =>
      let d := b.dispose k.task r.world
      let r := { r with world := d.world }
      match d.fault with
      | some fault => (r.modify c fun k => { k with task := d.task }, some fault)
      | none => disposeEach b rest (r.modify c fun k => { k with task := d.task, disposed := true })

/-- Disposes everything after a task has failed. Its fault is passed on, unless the disposal fails. -/
def handleFault (b : Behavior τ σ ρ ω) (fault : Fault) (r : Runner τ σ ρ ω) :
    Runner τ σ ρ ω × Option Fault :=
  match r.root with
  | none => (r, some .noAttribute)
  | some root =>
    match disposeEach b (r.subtree root) r with
    | (r, some other) => (r, some other)
    | (r, none) => (r, some fault)

/-- What a controller sees of its place. -/
def placeOf (r : Runner τ σ ρ ω) (self : Nat) (k : Controller τ σ) : Place τ :=
  let parent := k.parent.bind fun p => r.controllers[p]?
  { self
    parent := parent.map (·.task)
    siblings := (parent.map fun p => p.children.length).getD 0
    children := k.children.length
    disposed := k.disposed }

/-- Takes over what a task did. -/
def absorb (b : Behavior τ σ ρ ω) (self : Nat) (x : Reaction τ σ ρ ω) (r : Runner τ σ ρ ω) :
    Runner τ σ ρ ω × Option Fault :=
  let r := { r.modify self fun k => { k with task := x.task } with world := x.world }
  let r := x.requests.foldl (take self) r
  match x.fault with
  | some fault => handleFault b fault r
  | none => (r, none)

/-- Starts a task. -/
def start (b : Behavior τ σ ρ ω) (task : τ) (state : σ) (parent : Option Nat) (r : Runner τ σ ρ ω) :
    Runner τ σ ρ ω × Option Fault :=
  let self := r.controllers.length
  let k : Controller τ σ := { task, state, parent }
  let r := match parent with
    | some p => r.modify p fun k => { k with children := k.children ++ [self] }
    | none => { r with root := some self }
  let r := { r with controllers := r.controllers ++ [k] }
  absorb b self (b.start (r.placeOf self k) state task r.world) r

/-- Finishes a task: everything below it is disposed, and its caller is resumed. -/
def finish (b : Behavior τ σ ρ ω) (response : ρ) (c : Nat) (r : Runner τ σ ρ ω) :
    Runner τ σ ρ ω × Option Fault :=
  match disposeEach b (r.subtree c) r with
  | (r, some fault) => (r, some fault)
  | (r, none) =>
    match r.controllers[c]? with
    | none => (r, none)
    | some k =>
      match k.parent with
      | none => ({ r with response := some response, done := true, root := none }, none)
      | some p =>
        match r.controllers[p]? with
        | none => (r, none)
        | some caller =>
          if !caller.children.contains c then (r, some (.missingKey none))
          else
            let caller := { caller with children := caller.children.erase c }
            let r := r.modify p fun _ => caller
            if caller.disposed then (r, none)
            else absorb b p (b.resume (r.placeOf p caller) caller.task k.state response r.world) r

/-- Processes an entry. -/
def process (b : Behavior τ σ ρ ω) (r : Runner τ σ ρ ω) : Entry τ σ ρ → Runner τ σ ρ ω × Option Fault
  | .call task state parent => start b task state parent r
  | .finish response c => finish b response c r

/-- Processes the top of the stack. -/
def step (b : Behavior τ σ ρ ω) (r : Runner τ σ ρ ω) : Runner τ σ ρ ω × Option Fault :=
  match r.stack with
  | [] => (r, none)
  | e :: rest => process b { r with stack := rest } e

/-- Processes entries until the stack is empty, a task fails or `halted` says so. There is no result if
that never happens. -/
def drain (b : Behavior τ σ ρ ω) (halted : ω → Bool) (r : Runner τ σ ρ ω) :
    Option (Runner τ σ ρ ω × Option Fault) :=
  if r.stack.isEmpty || halted r.world then some (r, none)
  else
    match step b r with
    | (r, some fault) => some (r, some fault)
    | (r, none) => r |>.drain b halted
partial_fixpoint

/-- Takes up what was put off, if nothing else is left to do. -/
def resumeLater (r : Runner τ σ ρ ω) : Runner τ σ ρ ω :=
  if r.stack.isEmpty then { r with stack := r.later.reverse, later := [] } else r

/-- Runs until nothing is left on the stack. -/
def run (b : Behavior τ σ ρ ω) (r : Runner τ σ ρ ω) : Option (Runner τ σ ρ ω × Option Fault) :=
  drain b (fun _ => false) r.resumeLater

/-- Runs again as long as something was put off and the first task is not finished. -/
def runAll (b : Behavior τ σ ρ ω) (r : Runner τ σ ρ ω) : Option (Runner τ σ ρ ω × Option Fault) :=
  match run b r with
  | none => none
  | some (r, some fault) => some (r, some fault)
  | some (r, none) => if r.done || r.later.isEmpty then some (r, none) else r |>.runAll b
partial_fixpoint

end Runner

end ValueShell.Task
