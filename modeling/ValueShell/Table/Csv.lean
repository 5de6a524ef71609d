import ValueShell.Table.Basic

/-!
# Records of separated values

Fields are divided by commas. A field is quoted if it holds a comma, a quote or a line end, and a
quote inside of it is doubled. A record that is one empty field is written as a pair of quotes.
Reading works line by line, and a quoted field may go over several lines. A field that is too long is not
read.
-/

set_option autoImplicit false

namespace ValueShell.Csv

/-- The character makes a field need quotes. -/
def isSpecial (c : Char) : Bool := c = ',' || c = '"' || c = '\r' || c = '\n'

/-- A field between quotes. -/
def quoteField (cs : List Char) : List Char :=
  '"' :: (cs.flatMap fun c => if c = '"' then ['"', '"'] else [c]) ++ ['"']

/-- A field as it is written. -/
def writeField (cs : List Char) : List Char := if cs.any isSpecial then quoteField cs else cs

/-- The text of a value in a field. -/
def fieldText : Value → List Char
  | .none => []
  | v => v.display.toList

/-- A record as it is written, without its line end. -/
def writeRecord : List (List Char) → List Char
  | [[]] => ['"', '"']
  | fields => [','].intercalate (fields.map writeField)

/-- The fields of a row's values. -/
def rowFields (values : Value) : Except Fault (List (List Char)) :=
  match values.items with
  | .ok vs => .ok (vs.map fieldText)
  | .error (.missingKey k) => .error (.missingKey k)
  | .error _ => .error .badRecord

/-- The lines of a text whose lines end in a carriage return and a line feed, without these; the text
after the last one is left out. -/
def splitLines : List Char → List Char → List (List Char)
  | _, [] => []
  | line, '\r' :: '\n' :: rest => line.reverse :: splitLines [] rest
  | line, c :: rest => splitLines (c :: line) rest

/-- The lines of a table: its columns and its rows as records. -/
def writeTable (columns : List String) (rows : List Value) : Except Fault (List String) := do
  let records ← rows.mapM rowFields
  let text := ((columns.map String.toList) :: records).flatMap fun r => writeRecord r ++ ['\r', '\n']
  .ok ((splitLines [] text).map String.ofList)

/-- Where in a record the reading is. -/
inductive Place where
  | recordStart
  | fieldStart
  | inField
  | inQuotes
  /-- After a quote in a quoted field. -/
  | afterQuote
  /-- After the line end of a record. -/
  | afterLine
  deriving DecidableEq, Repr

/-- What has been read of a record: its fields and the characters of the next one, last first. -/
structure State where
  place : Place := .recordStart
  fields : List (List Char) := []
  field : List Char := []

/-- Ends a field. -/
def State.save (s : State) : State := { s with fields := s.field.reverse :: s.fields, field := [] }

/-- Adds a character to a field. -/
def State.add (s : State) (c : Char) : State := { s with field := c :: s.field }

/-- Reads a character at the start of a field. -/
def State.atField (s : State) (c : Char) : State :=
  if c = '\n' || c = '\r' then { s.save with place := .afterLine }
  else if c = '"' then { s with place := .inQuotes }
  else if c = ',' then { s.save with place := .fieldStart }
  else { s.add c with place := .inField }

/-- Reads a character. Nothing but line ends may follow the line end of a record. -/
def State.char (s : State) (c : Char) : Except Fault State :=
  let isEnd := c = '\n' || c = '\r'
  match s.place with
  | .recordStart => .ok (if isEnd then { s with place := .afterLine } else s.atField c)
  | .fieldStart => .ok (s.atField c)
  | .inField =>
    .ok (if isEnd then { s.save with place := .afterLine }
      else if c = ',' then { s.save with place := .fieldStart }
      else s.add c)
  | .inQuotes => .ok (if c = '"' then { s with place := .afterQuote } else s.add c)
  | .afterQuote =>
    .ok (if c = '"' then { s.add c with place := .inQuotes }
      else if c = ',' then { s.save with place := .fieldStart }
      else if isEnd then { s.save with place := .afterLine }
      else { s.add c with place := .inField })
  | .afterLine => if isEnd then .ok s else .error .badRecord

/-- Reads the end of a line; a quoted field goes on. -/
def State.lineEnd (s : State) : State :=
  match s.place with
  | .recordStart => s
  | .inQuotes => s
  | .afterLine => { s with place := .recordStart }
  | _ => { s.save with place := .recordStart }

/-- How many characters a field that is read may have. -/
def fieldLimit : Nat := 131072

/-- No field is too long, nor is what has been read of the next one. -/
def State.fits (s : State) : Bool := (s.field :: s.fields).all fun cs => cs.length ≤ fieldLimit

/-- The record that has been read, as a row. -/
def State.record (s : State) : Value :=
  .list (s.fields.reverse.map fun cs => .text (String.ofList cs))

/-- Reads a line: the record that it ends, and the state after it. -/
def State.line (s : State) (line : Value) : Except Fault (Option Value × State) :=
  match line with
  | .text text => do
    let s ← text.toList.foldlM State.char s
    if s.fits then
      let s := s.lineEnd
      .ok (if s.place = .recordStart then (some s.record, {}) else (none, s))
    else .error .badRecord
  | _ => .error .badRecord

/-- The record that the end of the input ends, if one is open. -/
def State.last (s : State) : Option Value :=
  if s.place = .inQuotes || !s.field.isEmpty then some s.save.record else none

end ValueShell.Csv
