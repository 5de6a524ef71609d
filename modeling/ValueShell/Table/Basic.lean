import ValueShell.Table.SelectList

/-!
# Tables

A table has columns and rows. Its rows are produced one after the other, and producing one may fail:
then the rows before it are there, and nothing comes after. Filtering and selecting work row by row,
so a fault in the rows is met after the rows before it have been dealt with; sorting needs all rows.
-/

set_option autoImplicit false

namespace ValueShell

/-- Values that come one after the other, and the fault that ends them. -/
structure Emission where
  values : List Value
  fault : Option Fault := none

namespace Emission

/-- Nothing. -/
def empty : Emission := { values := [] }

/-- No values, and a fault. -/
def ofFault (fault : Fault) : Emission := { values := [], fault := some fault }

/-- Puts values before an emission. -/
def after (vs : List Value) (e : Emission) : Emission := { e with values := vs ++ e.values }

/-- Turns each value into some others; the first fault ends it. -/
def expand (f : Value → Except Fault (List Value)) (fault : Option Fault) : List Value → Emission
  | [] => { values := [], fault }
  | v :: rest =>
    match f v with
    | .ok vs => (expand f fault rest).after vs
    | .error fault => ofFault fault

/-- Turns each value into some others. -/
def bind (e : Emission) (f : Value → Except Fault (List Value)) : Emission := expand f e.fault e.values

/-- All values, if no fault ends them. -/
def all (e : Emission) : Except Fault (List Value) :=
  match e.fault with
  | some fault => .error fault
  | none => .ok e.values

end Emission

/-- The names that the expressions of a table see beside its columns. -/
structure Surroundings where
  globals : Bindings := []
  locals : Bindings := []

/-- A table: the names of its columns and the values of its rows. -/
structure Table where
  columns : List String
  rows : Emission

namespace Table

/-- The value of an expression for a row. -/
def evalRow (s : Surroundings) (expression row : Value) : Except Fault Value :=
  match expression with
  | .text text => Expr.evalText { row := some row, locals := s.locals, globals := s.globals } text
  | _ => .error .wrongKind

/-- A row of the table. Its mark is of no account inside of the table. -/
def row (columns : List String) (values : Value) : Value := .row 0 columns values

/-- The row, if the condition holds for it. -/
def keep (s : Surroundings) (condition : Value) (columns : List String) (values : Value) :
    Except Fault (List Value) := do
  let v ← evalRow s condition (row columns values)
  .ok (if v.truthy then [values] else [])

/-- The rows for which a condition holds. -/
def filter (t : Table) (s : Surroundings) (condition : Value) : Table :=
  { t with rows := t.rows.bind (keep s condition t.columns) }

/-- The values that the entries of a select list have for a row. -/
def pick (s : Surroundings) (entries : List SelectEntry) (columns : List String) (values : Value) :
    Except Fault (List Value) := do
  let vs ← entries.mapM fun e => evalRow s (.text e.expression) (row columns values)
  .ok [.list vs]

/-- The table that a select list makes of each row. -/
def select (t : Table) (s : Surroundings) (list : Value) : Except Fault Table :=
  match list with
  | .text text => do
    let entries ← SelectEntry.parse text
    .ok { columns := entries.map SelectEntry.column, rows := t.rows.bind (pick s entries t.columns) }
  | _ => .error .wrongKind

/-- The order of rows by key; of rows with equal keys by place. -/
def keyLess (a b : (Value × Nat) × Value) : Except Fault Bool :=
  if a.1.1.equal b.1.1 then .ok (a.1.2 < b.1.2) else Value.related .lt a.1.1 b.1.1

/-- The values of rows, in the order of an expression's values. For the other direction the rows are
sorted from the last one on and then turned round. -/
def sortRows (s : Surroundings) (expression : Value) (ascending : Bool) (columns : List String)
    (rows : List Value) : Except Fault (List Value) := do
  let keys ← rows.mapM fun values => evalRow s expression (row columns values)
  let entries := keys.zipIdx.zip rows
  let sorted ←
    if ascending then sortM keyLess entries
    else (sortM keyLess entries.reverse).map List.reverse
  .ok (sorted.map (·.2))

/-- The rows in the order of an expression's values, rows with equal values in the order that they
have, or the other way round. -/
def orderBy (t : Table) (s : Surroundings) (expression : Value) (ascending : Bool) :
    Except Fault Table := do
  let rows ← t.rows.all
  let sorted ← sortRows s expression ascending t.columns rows
  .ok { t with rows := { values := sorted } }

/-- The columns without those that are there before. -/
def distinctColumns (columns : List String) : List String :=
  columns.foldl (fun acc c => if acc.contains c then acc else acc ++ [c]) []

/-- A text with blanks before it, up to a width. -/
def padLeft (width : Nat) (s : String) : String :=
  String.ofList (List.replicate (width - s.length) ' ') ++ s

/-- The texts of the cells of each row, one for each column. -/
def cellTexts (columns : List String) (rows : List Value) : Except Fault (List (List String)) :=
  rows.mapM fun values => columns.mapM fun c => (Value.at_ (row columns values) (.text c)).map Value.display

/-- The width of a column: that of its widest text. -/
def columnWidth (columns : List String) (cells : List (List String)) (c : String) : Nat :=
  let texts := cells.flatMap fun texts =>
    (columns.zip texts).filterMap fun (name, text) => if name = c then some text else none
  (texts.map String.length).foldl max c.length

/-- The table as text: its columns, a line of dashes, and its rows, each cell padded to the width of
its column. A table without columns has no such text. -/
def pretty (columns : List String) (rows : List Value) (separator : String) : Except Fault String := do
  let cells ← cellTexts columns rows
  let width := columnWidth columns cells
  let line (texts : List String) : String :=
    separator.intercalate ((columns.zip texts).map fun (c, text) => padLeft (width c) text) ++ "\n"
  let widths := (distinctColumns columns).map width
  if widths.isEmpty then .error .wrongKind
  else
    let dashes := widths.foldl (· + ·) 0 + separator.length * (widths.length - 1)
    .ok (line columns ++ String.ofList (List.replicate dashes '-') ++ "\n" ++
      String.join (cells.map line))

/-- What divides the columns of a table unless something else is asked for. -/
def separator : String := " |"

/-- The values of a row with another value in a column. -/
def setCell (columns : List String) (values : Value) (column : String) (v : Value) :
    Except Fault Value := do
  let i ← Value.columnIndex columns column
  match values with
  | .list items => if i < items.length then .ok (.list (items.set i v)) else .error .outOfRange
  | .dict entries => .ok (.dict (Value.putEntry entries (.int i) v))
  | _ => .error .wrongKind

/-- The table of rows that come from one table. Without a row it has no columns. -/
def ofRows (rows : List Value) : Except Fault Table :=
  match rows with
  | [] => .ok { columns := [], rows := .empty }
  | .row mark columns values :: rest =>
    .ok { columns, rows := (Emission.expand (valuesOf mark) none rest).after [values] }
  | _ => .error .noAttribute
where
  /-- The values of a row, which must come from the same table. -/
  valuesOf (mark : Nat) (v : Value) : Except Fault (List Value) :=
    match v with
    | .row mark' _ values => if mark = mark' then .ok [values] else .error .unmet
    | _ => .error .noAttribute

end Table

end ValueShell
