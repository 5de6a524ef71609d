import ValueShell.Files.Tree
import ValueShell.Table.Csv
import ValueShell.Text.Lines

/-!
# How commands produce their output

A command is called once and then produces values, possibly reading its input element by element. What
it does with the next element is a `Stage`. `Output` is what the call, or an element, gives: values,
and the stage that waits for the next element, if there is one.

Some commands do part of their work in the call and the rest while their output is taken; a fault of
the call is told from a later one.
-/

set_option autoImplicit false

namespace ValueShell

open Text

/-- What a command does with the rows of a table. -/
inductive RowCommand where
  | filter (condition : Value)
  | select (list : Value)
  | sort (expression : Value) (direction : Option Value)
  | csv

/-- A command that waits for the next element of its input. -/
inductive Stage where
  | each (f : Value → Except Fault (List Value))
  /-- Holds all elements, lines without their ends, and then produces values from them, in the call
  or later. -/
  | gather (inCall : Bool) (held : List Value) (finish : List Value → Emission)
  | combine (f : Value) (acc : Option Value)
  | firstRow (command : RowCommand) (s : Surroundings) (mark : Nat)
  /-- Turns the values of each row from one table into rows of another. -/
  | rows (source : Nat) (f : Value → Except Fault (List Value)) (mark : Nat) (columns : List String)
  | allRows (source : Nat) (held : List Value) (finish : List Value → Except Fault (List Value))
  /-- Reads records; without columns the first record gives them. -/
  | records (s : Csv.State) (columns : Option (List String)) (mark : Nat)

/-- What a call or an element gives. -/
structure Output where
  values : List Value := []
  /-- The columns, once the output is known to be a table. -/
  columns : Option (List String) := none
  fault : Option Fault := none
  /-- The fault belongs to the call. -/
  inCall : Bool := false
  /-- There is no output, not even an empty one. -/
  absent : Bool := false
  /-- The tree of files, if the call changed it. -/
  files : Option Files.Tree := none
  next : Option Stage := none

namespace Output

/-- A fault of the call. -/
def callFault (fault : Fault) : Output := { fault := some fault, inCall := true }

/-- A fault while the output is taken. -/
def laterFault (fault : Fault) : Output := { fault := some fault }

/-- Values and no more. -/
def ofEmission (e : Emission) : Output := { values := e.values, fault := e.fault }

end Output

/-- The direction of a sort: ascending unless its word says otherwise. -/
def sortDirection : Option Value → Except Fault Bool
  | none => .ok true
  | some (.text s) =>
    let word := lower s
    if word = "desc" then .ok false
    else if word = "asc" then .ok true
    else .error (.complaint .sortDirection)
  | some _ => .error .noAttribute

/-- The values of a row that comes from the given table. -/
def rowValues (source : Nat) (v : Value) : Except Fault Value :=
  match v with
  | .row mark _ values => if mark = source then .ok values else .error .unmet
  | _ => .error .noAttribute

namespace Stage

/-- An element without the line ends at its end, if it is a text. -/
def trimElement : Value → Value
  | .text s => .text (trimLineEnd s)
  | v => v

/-- Marks values as rows of a table. -/
def markRows (mark : Nat) (columns : List String) (vs : List Value) : List Value :=
  vs.map fun v => .row mark columns v

/-- Begins to work on rows of a table with the given columns, which has the mark `source`. -/
def beginRows (command : RowCommand) (s : Surroundings) (mark source : Nat) (columns : List String) :
    Except Fault (Option (List String) × Stage) :=
  match command with
  | .filter condition =>
    .ok (some columns, .rows source (Table.keep s condition columns) mark columns)
  | .select (.text list) => do
    let entries ← SelectEntry.parse list
    let names := entries.map SelectEntry.column
    .ok (some names, .rows source (Table.pick s entries columns) mark names)
  | .select _ => .error .wrongKind
  | .sort expression direction => do
    let ascending ← sortDirection direction
    .ok (some columns, .allRows source [] fun rows => do
      let sorted ← Table.sortRows s expression ascending columns rows
      .ok (markRows mark columns sorted))
  | .csv =>
    .ok (none, .allRows source [] fun rows => do
      let lines ← Csv.writeTable columns rows
      .ok (lines.map .text))

/-- What the next element gives, or the end of the input. -/
def receive : Stage → Option Value → Output
  | .each _, none => {}
  | .each f, some v =>
    match f v with
    | .ok vs => { values := vs, next := some (.each f) }
    | .error fault => .laterFault fault
  | .gather inCall held finish, none => { Output.ofEmission (finish held) with inCall }
  | .gather inCall held finish, some v =>
    { next := some (.gather inCall (held ++ [trimElement v]) finish) }
  | .combine _ none, none => .callFault .wrongKind
  | .combine _ (some acc), none => { values := [acc] }
  | .combine f none, some v => { next := some (.combine f (some v)) }
  | .combine f (some acc), some v =>
    match Expr.applyTo f [acc, v] with
    | .ok acc => { next := some (.combine f (some acc)) }
    | .error fault => .callFault fault
  | .firstRow command s mark, none =>
    match beginRows command s mark 0 [] with
    | .error fault => .callFault fault
    | .ok (columns, .allRows _ held finish) =>
      match finish held with
      | .ok vs => { values := vs, columns }
      | .error fault => .callFault fault
    | .ok (columns, _) => { columns }
  | .firstRow command s mark, some v =>
    match v with
    | .row source columns values =>
      match beginRows command s mark source columns with
      | .error fault => .callFault fault
      | .ok (columns, .rows source f mark names) =>
        match f values with
        | .ok vs =>
          { values := markRows mark names vs, columns, next := some (.rows source f mark names) }
        | .error fault => { columns, fault := some fault }
      | .ok (columns, .allRows source _ finish) =>
        { columns, next := some (.allRows source [values] finish) }
      | .ok (columns, next) => { columns, next := some next }
    | _ => .callFault .noAttribute
  | .rows .., none => {}
  | .rows source f mark columns, some v =>
    match (rowValues source v).bind f with
    | .ok vs => { values := markRows mark columns vs, next := some (.rows source f mark columns) }
    | .error fault => .laterFault fault
  | .allRows _ held finish, none =>
    match finish held with
    | .ok vs => { values := vs }
    | .error fault => .callFault fault
  | .allRows source held finish, some v =>
    match rowValues source v with
    | .ok values => { next := some (.allRows source (held ++ [values]) finish) }
    | .error fault => .callFault fault
  | .records s none mark, input =>
    match input with
    | none =>
      match s.last with
      | some record => { columns := some (names record) }
      | none => { absent := true }
    | some line =>
      match s.line line with
      | .error fault => .callFault fault
      | .ok (none, s) => { next := some (.records s none mark) }
      | .ok (some record, s) =>
        { columns := some (names record), next := some (.records s (some (names record)) mark) }
  | .records s (some columns) mark, input =>
    match input with
    | none =>
      match s.last with
      | some record => { values := [.row mark columns record] }
      | none => {}
    | some line =>
      match s.line line with
      | .error fault => .laterFault fault
      | .ok (none, s) => { next := some (.records s (some columns) mark) }
      | .ok (some record, s) =>
        { values := [.row mark columns record], next := some (.records s (some columns) mark) }
where
  names (record : Value) : List String :=
    match record with
    | .list fields => fields.map Value.display
    | _ => []

/-- Feeds a stage all elements of its input, until it is finished. -/
def feed : Stage → List Value → Output
  | stage, [] => stage.receive none
  | stage, v :: rest =>
    let first := stage.receive (some v)
    match first.fault, first.next with
    | none, some next =>
      let others := feed next rest
      { others with
        values := first.values ++ others.values
        columns := first.columns.or others.columns }
    | _, _ => first

end Stage

/-- Gives a command that was called all elements of its input. -/
def Output.run (o : Output) (input : List Value) : Output :=
  match o.fault, o.next with
  | none, some stage =>
    let others := stage.feed input
    { others with values := o.values ++ others.values, columns := o.columns.or others.columns }
  | _, _ => o

end ValueShell
