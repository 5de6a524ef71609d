import ValueShell.Pipeline.Kind
import ValueShell.Pipeline.Stage

/-!
# Commands and their registry

A command has a name, the kinds of its input and output if they are declared, and what it does when
it is called.
-/

set_option autoImplicit false

namespace ValueShell

/-- What a command gets to read. -/
inductive Supply where
  | nothing
  /-- The lines of a text file. -/
  | lines
  /-- Values one after the other. -/
  | elements
  /-- A value that has no elements. -/
  | unreadable
  deriving DecidableEq, Repr

/-- A call of a command. -/
structure Call where
  /-- The words, the name of the command first. -/
  args : List Value
  supply : Supply := .nothing
  surroundings : Surroundings := {}
  /-- The mark of the table that the call may produce. -/
  mark : Nat := 0
  files : Files.Tree := {}
  home : Option String := none

/-- A command. -/
structure Command where
  name : String
  input : Option StreamKind := none
  output : Option StreamKind := none
  start : Call → Output

namespace Command

/-- The kind of the input; a command that declares none reads values. -/
def inputKind (c : Command) : StreamKind :=
  match c.input with
  | some .text => .text
  | some .nothing => .nothing
  | _ => .values

/-- The kind of the output; a command that declares none produces values. -/
def outputKind (c : Command) : StreamKind :=
  match c.output with
  | some .text => .text
  | some .nothing => .nothing
  | _ => .values

/-- A function that is called with the words, the input and the surroundings. -/
def ofFunction (f : Value) : Command where
  name := f.display
  start := fun call =>
    let input := match call.supply with
      | .nothing => Value.none
      | _ => .other "stream" "<stream>"
    match Expr.applyTo f [.list call.args, input, .other "options" "<options>"] with
    | .error fault => .callFault fault
    | .ok (.table mark columns rows) =>
      { values := rows.map (.row mark columns), columns := some columns }
    | .ok v =>
      match v.items with
      | .ok vs => { values := vs }
      | .error fault => .laterFault fault

end Command

/-- The commands by name, the newest first. -/
abbrev Registry := List Command

namespace Registry

/-- The command with a name. -/
def named? (r : Registry) (name : String) : Option Command :=
  List.find? (fun c => c.name == name) r

/-- The command that a value means: the one that a text names, a command itself, or a function. -/
def find? (r : Registry) (v : Value) : Option Command :=
  match v with
  | .text name => r.named? name
  | .command name => r.named? name
  | v => if v.isCallable then some (.ofFunction v) else none

/-- Registers a command under its name. -/
def add (r : Registry) (c : Command) : Registry := c :: r

/-- Registers what is given by position. It must be one command and come without options. -/
def registerGiven (r : Registry) (args : List Value) (hasOptions : Bool) :
    Except Fault (Option Command × Registry) :=
  match args with
  | [] => if hasOptions then .ok (none, r) else .error (.complaint .wrongParameters)
  | [v] =>
    if hasOptions || !v.isCallable then .error .unmet
    else
      match r.find? v with
      | some c => .ok (some c, r.add c)
      | none => .error .unmet
  | _ => .error .unmet

end Registry

/-- What is declared of a command when it is registered. -/
structure Declaration where
  name : Option String := none
  input : Option StreamKind := none
  output : Option StreamKind := none

/-- Something is declared. -/
def Declaration.isEmpty (d : Declaration) : Bool :=
  d.name.isNone && d.input.isNone && d.output.isNone

/-- The command that a declaration makes of a function; its name is the function's unless another one
is declared. -/
def Declaration.command (d : Declaration) (function : String) (start : Call → Output) :
    Except Fault Command :=
  if d.isEmpty then .error (.complaint .wrongParameters)
  else .ok { name := d.name.getD function, input := d.input, output := d.output, start }

end ValueShell
