import ValueShell.Task.Runner

/-!
# Scripted tasks

Tasks that do what a script says: a list of actions for the start and one for each time the task is
resumed. Everything that happens is put into a log.
-/

set_option autoImplicit false

namespace ValueShell.Task

/-- What a scripted task does. States and responses are values of any type. -/
inductive Action (α : Type) where
  | call (task : String) (state : α)
  | callLater (task : String) (state : α)
  /-- Calls a task that responds with the value at once. -/
  | callValue (value state : α)
  | finish (response : α)
  /-- Finishes with the response of the task that was called. -/
  | finishWithResponse
  /-- Tries to finish from outside of the runner, which cannot be done. -/
  | finishLater (response : α)
  | fail (message : String)

/-- The script of a task. -/
structure Script (α : Type) where
  start : List (Action α) := []
  /-- The actions for each time it is resumed; afterwards it does nothing. -/
  resumes : List (List (Action α)) := []
  /-- Its disposal is put into the log. -/
  logsDisposal : Bool := false

/-- What happens in a run of scripted tasks. -/
inductive Event (α : Type) where
  | started (task : String) (state : α) (caller : Option String) (siblings : Nat)
  | resumed (task : String) (state response : α) (children : Nat) (disposed : Bool)
  | disposed (task : String)

/-- A scripted task while it runs. -/
inductive ScriptedTask (α : Type) where
  | scripted (name : String) (script : Script α) (resumed : Nat)
  | value (response : α)

namespace ScriptedTask

variable {α : Type}

/-- The name of a scripted task. -/
def name? : ScriptedTask α → Option String
  | .scripted name _ _ => some name
  | .value _ => none

/-- A task with the script of its name. -/
def named (scripts : List (String × Script α)) (name : String) : ScriptedTask α :=
  .scripted name ((scripts.lookup name).getD {}) 0

/-- The requests of actions up to the first that fails. -/
def requests (scripts : List (String × Script α)) (response : α) :
    List (Action α) → List (Request (ScriptedTask α) α α) × Option Fault
  | [] => ([], none)
  | action :: rest =>
    let more (r : Request (ScriptedTask α) α α) :=
      let (others, fault) := requests scripts response rest
      (r :: others, fault)
    match action with
    | .call task state => more (.call (named scripts task) state)
    | .callLater task state => more (.callLater (named scripts task) state)
    | .callValue v state => more (.call (.value v) state)
    | .finish v => more (.finish v)
    | .finishWithResponse => more (.finish response)
    | .finishLater _ => ([], some (.undefined "cont"))
    | .fail message => ([], some (.complaint (.stated message)))

/-- How scripted tasks react. The world is the log, the newest event first; `blank` is the response
that a task has before it is resumed. -/
def behavior (scripts : List (String × Script α)) (blank : α) :
    Behavior (ScriptedTask α) α α (List (Event α)) where
  start := fun place state task log =>
    match task with
    | .value response => { task, world := log, requests := [.finish response] }
    | .scripted name script _ =>
      let (requests, fault) := requests scripts blank script.start
      let caller := place.parent.bind name?
      { task, requests, fault, world := .started name state caller place.siblings :: log }
  resume := fun place task state response log =>
    match task with
    | .value _ => { task, world := log }
    | .scripted name script n =>
      let (requests, fault) := requests scripts response ((script.resumes[n]?).getD [])
      { task := .scripted name script (n + 1), requests, fault
        world := .resumed name state response place.children place.disposed :: log }
  dispose := fun task log =>
    match task with
    | .value _ => { task, world := log }
    | .scripted name script _ =>
      { task, world := if script.logsDisposal then .disposed name :: log else log }

/-- The outcome of a run. -/
structure Outcome (α : Type) where
  log : List (Event α)
  done : Bool
  response : Option α
  fault : Option Fault

/-- Runs the task with a name. A run that never ends is stuck. -/
def run (scripts : List (String × Script α)) (root : String) (initial blank : α) : Outcome α :=
  match Runner.runAll (behavior scripts blank) (Runner.ofTask (named scripts root) initial []) with
  | some (r, fault) => { log := r.world.reverse, done := r.done, response := r.response, fault }
  | none => { log := [], done := false, response := none, fault := some .stuck }

end ScriptedTask

end ValueShell.Task
