import ValueShell.Evaluation.Session

/-!
# Calls that run command lines

In a converted script every command line is run by a call. The call passes the command line, the names
that are known where it stands, and the names under which results are asked for. The function that is
called takes its arguments by their places.
-/

set_option autoImplicit false

namespace ValueShell.Script

open ValueShell.Text ValueShell.Evaluation

/-- An argument of a call. -/
inductive Argument where
  | text (s : String)
  | texts (ss : List String)
  | locals
  | globals

/-- An argument as it is written. -/
def Argument.source : Argument → String
  | .text s => quote s
  | .texts ss => bracketed (ss.map quote)
  | .locals => "locals()"
  | .globals => "globals()"

/-- A call whose results are assigned to names. -/
structure Call where
  targets : List String
  function : String
  arguments : List Argument

/-- A call as it is written. -/
def Call.source (c : Call) : String :=
  let targets := if c.targets.isEmpty then "" else String.join (c.targets.map (· ++ ", ")) ++ "= "
  targets ++ c.function ++ "(" ++ ", ".intercalate (c.arguments.map Argument.source) ++ ")"

/-- The call that runs a command line and asks for results by their names. -/
def Call.ofCommand (function command : String) (names : List String) : Call where
  targets := names
  function
  arguments := [.text command, .locals, .globals, .texts names]

/-- The names that are known at a place of a script. -/
structure Site where
  locals : Bindings := []
  globals : Bindings := []

/-- The value of an argument. -/
inductive Passed where
  | text (s : String)
  | texts (ss : List String)
  | names (b : Bindings)

/-- The value of an argument at a place of a script. -/
def Argument.passed (site : Site) : Argument → Passed
  | .text s => .text s
  | .texts ss => .texts ss
  | .locals => .names site.locals
  | .globals => .names site.globals

/-- What the function that runs command lines is given. -/
structure Invocation where
  command : String
  globals : Bindings
  locals : Bindings
  /-- The names under which results are asked for. -/
  names : List String

/-- Takes arguments by their places. -/
def Invocation.ofPassed? : List Passed → Option Invocation
  | [.text command, .names globals, .names locals, .texts names] =>
    some { command, globals, locals, names }
  | _ => none

/-- What a call at a place of a script gives to the function. -/
def Call.invocation? (c : Call) (site : Site) : Option Invocation :=
  Invocation.ofPassed? (c.arguments.map (Argument.passed site))

/-- The session in which the command line runs. It knows no aliases. -/
def Invocation.session (i : Invocation) (s : Session) : Session :=
  { s with globals := i.globals, locals := i.locals, aliases := [] }

end ValueShell.Script
