import ValueShell.Commands.Standard

/-!
# Commands to try out pipelines with

Small commands of every combination of kinds of input and output.
-/

set_option autoImplicit false

namespace ValueShell.Commands

open ValueShell.Text

/-- The arguments after the name. -/
def argumentsOf (call : Call) : List Value := call.args.drop 1

/-- An element as a line without the given line ends. -/
def bareElement (isEnd : Char → Bool) : Value → Except Fault String
  | .text s => .ok (String.ofList (trimEnd isEnd s.toList))
  | _ => .error .noAttribute

/-- Gives back its words and then its input lines. -/
def wordsAndLines : Command where
  name := "pycmd"
  start := fun call =>
    let next := match call.supply with
      | .nothing => none
      | _ => some (.each fun v => (bareElement (· = '\n') v).map fun s => [.text s])
    { values := call.args, next }

/-- Counts up to a number. -/
def send : Command where
  name := "send"
  input := some .nothing
  start := fun call =>
    match call.args with
    | _ :: v :: _ =>
      match Expr.toInt v with
      | .ok n => { values := Value.rangeItems 0 n 1 }
      | .error fault => .callFault fault
    | _ => .callFault .outOfRange

/-- Gives back its arguments. -/
def args : Command where
  name := "args"
  input := some .nothing
  start := fun call => { values := argumentsOf call }

/-- Shows the lines of its input. -/
def showLines (call : Call) : Output :=
  reading call false (.each fun v => (bareElement isLineEnd v).map fun s => [.text (quote s)])

/-- Shows the lines of its input. -/
def lines : Command where
  name := "lines"
  start := showLines

/-- Shows the elements of its input. -/
def reprs : Command where
  name := "reprs"
  start := fun call => reading call false (.each fun v => .ok [.text v.source])

/-- Shows the lines of a text. -/
def filelines : Command where
  name := "filelines"
  input := some .text
  start := showLines

/-- Gives back its arguments as text. -/
def fileargs : Command where
  name := "fileargs"
  input := some .nothing
  output := some .text
  start := fun call => { values := argumentsOf call }

/-- Gives back its arguments and then fails. -/
def fail : Command where
  name := "fail"
  input := some .nothing
  start := fun call =>
    { values := argumentsOf call, fault := some (.complaint (.stated "fail")) }

/-- Shows that it has no input. -/
def noin : Command where
  name := "noin"
  input := some .nothing
  start := fun call =>
    match call.supply with
    | .nothing => { values := [.text "None"] }
    | _ => { values := [.text "<stream>"] }

/-- Says nothing. -/
def quiet : Command where
  name := "quiet"
  input := some .nothing
  output := some .nothing
  start := fun _ => {}

/-- Gives back its arguments although it declares no output. -/
def noisy : Command where
  name := "noisy"
  input := some .nothing
  output := some .nothing
  start := fun call => { values := argumentsOf call }

/-- Gives a small table. -/
def tbl : Command where
  name := "tbl"
  input := some .nothing
  start := fun call =>
    let columns := ["k", "v"]
    let rows : List Value :=
      [.tuple [.int 1, .text "one"], .tuple [.int 2, .text "two"], .tuple [.int 3, .text "three"]]
    { values := rows.map (.row call.mark columns), columns := some columns }

/-- Gives the values of variables. -/
def getvar : Command where
  name := "getvar"
  input := some .nothing
  start := fun call =>
    let s := call.surroundings
    { values := (argumentsOf call).map fun v =>
        match v with
        | .text name => ((s.locals.find? name).or (s.globals.find? name)).getD (.text "unset")
        | _ => .text "unset" }

/-- All commands to try out pipelines with. -/
def sample : Registry :=
  [wordsAndLines, send, args, lines, reprs, filelines, fileargs, fail, noin, quiet, noisy, tbl, getvar]

end ValueShell.Commands
