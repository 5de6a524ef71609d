import ValueShell.Files.Listing
import ValueShell.Pipeline.Command

/-!
# The standard commands

Printing values, working on them with functions, listing files, working on tables and changing the
current directory.
-/

set_option autoImplicit false

namespace ValueShell.Commands

open ValueShell.Text

/-- The stage of a command that reads its input, which must have elements. -/
def reading (call : Call) (inCall : Bool) (stage : Stage) : Output :=
  match call.supply with
  | .nothing => { fault := some .wrongKind, inCall }
  | .unreadable => { fault := some .wrongKind, inCall }
  | _ => { next := some stage }

/-- Joins the words of a line and puts them before what follows. -/
def flushWords (words : List String) (rest : Emission) : Emission :=
  if words.isEmpty then rest else rest.after [.text (" ".intercalate words)]

/-- The values that are printed: collections by their elements, and all else in lines of words.
`words` holds the words of the current line. -/
def echoed (words : List String) : List Value → Emission
  | [] => flushWords words .empty
  | .text s :: rest => echoed (words ++ [s]) rest
  | v :: rest =>
    if v.isIterable then
      flushWords words
        (match v.items with
          | .ok vs => (echoed [] rest).after vs
          | .error fault => .ofFault fault)
    else echoed (words ++ [v.display]) rest

/-- Prints its arguments. -/
def echo : Command where
  name := "echo"
  input := some .nothing
  start := fun call => .ofEmission (echoed [] (call.args.drop 1))

/-- The function that a command takes as its only argument. -/
def functionArgument (call : Call) : Except Fault Value :=
  match call.args with
  | [_, f] => if f.isCallable then .ok f else .error .unmet
  | _ => .error .unmet

/-- A stage over elements, or over the lines of a file all at once. -/
def overElements (call : Call) (f : Value → Except Fault (List Value)) : Stage :=
  if call.supply = .lines then .gather false [] (Emission.expand f none) else .each f

/-- Applies a function to each element. -/
def map : Command where
  name := "map"
  start := fun call =>
    match functionArgument call with
    | .error fault => .callFault fault
    | .ok f =>
      reading call true (overElements call fun v => (Expr.applyTo f [v]).map fun w => [w])

/-- Keeps the elements for which a function gives a true value. -/
def filter : Command where
  name := "filter"
  start := fun call =>
    match functionArgument call with
    | .error fault => .laterFault fault
    | .ok f =>
      reading call false (overElements call fun v =>
        (Expr.applyTo f [v]).map fun w => if w.truthy then [v] else [])

/-- Combines values from left to right by a function. -/
def combineAll (f : Value) (vs : List Value) : Emission :=
  match vs with
  | [] => .ofFault .wrongKind
  | first :: rest =>
    match rest.foldlM (fun acc v => Expr.applyTo f [acc, v]) first with
    | .ok v => { values := [v] }
    | .error fault => .ofFault fault

/-- Combines all elements into one by a function. -/
def reduce : Command where
  name := "reduce"
  start := fun call =>
    match functionArgument call with
    | .error fault => .callFault fault
    | .ok f =>
      reading call true
        (if call.supply = .lines then .gather true [] (combineAll f) else .combine f none)

/-- Lists files. -/
def listFiles : Command where
  name := "pyls"
  start := fun call =>
    match Files.readOptions {} call.args with
    | .error fault => .callFault fault
    | .ok (options, words) =>
      let paths := match words.drop 1 with
        | [] => [Value.text (Files.Tree.pathOf call.files.current)]
        | paths => paths
      let listed := Files.listPaths call.files options paths
      { values := listed.rows.map (.row call.mark Files.listingColumns)
        columns := some Files.listingColumns
        fault := listed.fault }

/-- A command on the rows of a table. -/
def onRows (call : Call) (command : RowCommand) : Output :=
  reading call true (.firstRow command call.surroundings call.mark)

/-- Makes a table with other columns. -/
def select : Command where
  name := "select"
  start := fun call =>
    match call.args with
    | [_, list] => onRows call (.select list)
    | _ => .callFault .unmet

/-- Keeps the rows for which a condition holds. -/
def where_ : Command where
  name := "where"
  start := fun call =>
    match call.args with
    | [_, condition] => onRows call (.filter condition)
    | _ => .callFault .unmet

/-- Sorts rows. -/
def orderBy : Command where
  name := "orderby"
  start := fun call =>
    match call.args with
    | [_, expression] => onRows call (.sort expression none)
    | [_, expression, direction] => onRows call (.sort expression (some direction))
    | _ => .callFault .unmet

/-- Writes a table as records of separated values. -/
def toRecords : Command where
  name := "tocsv"
  start := fun call => onRows call .csv

/-- Reads a table from records of separated values. -/
def fromRecords : Command where
  name := "fromcsv"
  start := fun call => reading call true (.records {} none call.mark)

/-- The directory that a change of directory asks for; an empty one asks for none. -/
def targetDirectory (call : Call) : Except Fault (Option String) :=
  match call.args with
  | [_] =>
    match call.home with
    | some "" => .ok none
    | home => .ok home
  | [_, v] =>
    if !v.truthy then .ok none
    else
      match v with
      | .text s => .ok (some s)
      | _ => .error .wrongKind
  | _ => .error .unmet

/-- Changes the current directory. -/
def changeDirectory : Command where
  name := "cd"
  input := some .nothing
  output := some .nothing
  start := fun call =>
    match targetDirectory call with
    | .error fault => .callFault fault
    | .ok none => {}
    | .ok (some path) =>
      match call.files.enter path with
      | .ok files => { files := some files }
      | .error fault => .callFault fault

/-- All standard commands. -/
def standard : Registry :=
  [echo, map, filter, reduce, listFiles, select, where_, orderBy, toRecords, fromRecords, changeDirectory]

end ValueShell.Commands
