import ValueShell.Command.Parser
import ValueShell.Evaluation.Process

/-!
# Sessions

Commands that are run one after the other in the same directory, with the same input. The results of a
command can be variables of the next ones.
-/

set_option autoImplicit false

namespace ValueShell.Evaluation

open ValueShell.Task

variable {π : Type}

/-- The streams of a whole command. -/
def standardStreams : Streams Channel where
  input := some (.descriptor .input)
  output := some (.descriptor .output)

/-- Runs until the first task is finished, reporting each end of a command or process to the task that
waits for it. There is no result if that never happens. -/
def Leaf.deliver (leaf : Leaf π) (r : Runner (Job π) Mark Response World) :
    Option (Runner (Job π) Mark Response World × Option Fault) :=
  match Runner.drain (Job.behavior leaf) (fun w => w.recorded.isSome) r with
  | none => none
  | some (r, some fault) => some (r, some fault)
  | some (r, none) =>
    if r.done || r.world.recorded.isSome then some (r, none)
    else
      match r.world.nextCompletion with
      | .error fault => some (r, some fault)
      | .ok (c, w) =>
        let r := { r with world := w }
        leaf |>.deliver (r.push (.call (.respond (.status c.status)) .ended (some c.owner)))
partial_fixpoint

/-- A runner that is about to evaluate a plan. -/
def evaluation (plan : Plan) (w : World) : Runner (Job π) Mark Response World :=
  Runner.ofTask (.evaluate standardStreams plan) .only w

/-- Evaluates a plan. An evaluation that never ends is stuck. -/
def evaluate (leaf : Leaf π) (plan : Plan) (w : World) : World × Option Fault :=
  match leaf.deliver (evaluation plan w) with
  | some (r, fault) => (r.world.finishProcesses r.world.processes.length, fault)
  | none => (w, some .stuck)

/-- What a session keeps between commands. -/
structure Session where
  files : Files.Tree := {}
  input : TextSource := {}
  globals : Bindings := []
  locals : Bindings := []
  environment : List (String × String) := []
  registry : Registry := []
  aliases : List Alias := []
  nextMark : Nat := 0

/-- What came of a command. -/
structure Outcome where
  output : String := ""
  results : Bindings := []
  fault : Option Fault := none

namespace Session

/-- The world at the beginning of a command. -/
def world (s : Session) : World :=
  { files := s.files, input := s.input, environment := s.environment, registry := s.registry
    surroundings := { globals := s.globals, locals := s.locals }, nextMark := s.nextMark }

/-- The plan of a command. -/
def plan (s : Session) (command : String) : Except Fault Plan := do
  let (tree, _) ← Tree.parse s.aliases command
  Plan.ofCommand s.registry s.world.scope.names tree

/-- Binds names, in front of what they meant before. -/
def bind (s : Session) (results : Bindings) : Session :=
  { s with locals := results ++ s.locals.filter fun e => !results.any fun r => r.1 == e.1 }

/-- Runs a command. -/
def run (s : Session) (command : String) : Outcome × Session :=
  match s.plan command with
  | .error fault => ({ fault := some fault }, s)
  | .ok plan =>
    let (w, fault) := evaluate LeafTask.leaf plan s.world
    ({ output := w.output, results := if fault.isSome then [] else w.results, fault },
      { s with files := w.files, input := w.input, nextMark := w.nextMark })

/-- The results of a command under the given names; what is missing has no value. -/
def responses (results : Bindings) (names : List String) : Bindings :=
  names.map fun name => (name, (results.find? name).getD .none)

/-- Follows a command up to its first child process, which is only recorded. -/
def record (s : Session) (command : String) (refused : Bool) : Except Fault World := do
  let plan ← s.plan command
  match evaluate LeafTask.leaf plan { s.world with recording := some refused } with
  | (w, none) => .ok w
  | (_, some fault) => .error fault

end Session

end ValueShell.Evaluation
