import ValueShell.Number.RealText
import ValueShell.Text.Quoted
import ValueShell.Value.Basic

/-!
# The text of values

`display` is the text that a value has on its own; `source` is the text that it has inside of a
collection, where a text is quoted.
-/

set_option autoImplicit false

namespace ValueShell.Value

open ValueShell.Number
open ValueShell.Text

/-- The rights of one class of users: reading, writing and executing. -/
def rightsText (bits : Int) : String :=
  (if bits / 4 % 2 = 1 then "r" else "-") ++ (if bits / 2 % 2 = 1 then "w" else "-") ++
    (if bits % 2 = 1 then "x" else "-")

/-- The rights of the owner, the group and all others. -/
def permissionText (bits : Int) : String :=
  rightsText (bits / 64) ++ rightsText (bits / 8) ++ rightsText bits

/-- A number with zeros in front of it. -/
def padded (width : Nat) (n : Nat) : String :=
  let ds := toString n
  zeros (width - ds.length) ++ ds

/-- The day of a point in time as year, month and day, from the days since the epoch. Years of the
calculation begin in March, so that a leap day is the last day of its year. -/
def civilDay (days : Int) : Int × Nat × Nat :=
  let z := days + 719468
  let era := Int.fdiv z 146097
  let dayOfEra := (z - era * 146097).toNat
  let yearOfEra := (dayOfEra - dayOfEra / 1460 + dayOfEra / 36524 - dayOfEra / 146096) / 365
  let dayOfYear := dayOfEra - (365 * yearOfEra + yearOfEra / 4 - yearOfEra / 100)
  let monthFromMarch := (5 * dayOfYear + 2) / 153
  let day := dayOfYear - (153 * monthFromMarch + 2) / 5 + 1
  let month := if monthFromMarch < 10 then monthFromMarch + 3 else monthFromMarch - 9
  (yearOfEra + era * 400 + (if month ≤ 2 then 1 else 0), month, day)

/-- The parts of a point in time: year, month, day, hour, minute, second and microsecond. -/
structure Clock where
  year : Int
  month : Nat
  day : Nat
  hour : Nat
  minute : Nat
  second : Nat
  micro : Nat

/-- The parts of a point in time. -/
def Clock.ofMicros (micros : Int) : Clock :=
  let seconds := Int.fdiv micros 1000000
  let micro := (micros - seconds * 1000000).toNat
  let days := Int.fdiv seconds 86400
  let rest := (seconds - days * 86400).toNat
  let (year, month, day) := civilDay days
  { year, month, day, hour := rest / 3600, minute := rest / 60 % 60, second := rest % 60, micro }

/-- The text of a point in time; its fraction is left out if it is zero. -/
def momentText (micros : Int) : String :=
  let c := Clock.ofMicros micros
  padded 4 c.year.toNat ++ "-" ++ padded 2 c.month ++ "-" ++ padded 2 c.day ++ " " ++
    padded 2 c.hour ++ ":" ++ padded 2 c.minute ++ ":" ++ padded 2 c.second ++
    (if c.micro = 0 then "" else "." ++ padded 6 c.micro)

/-- The text of a point in time inside of a collection. -/
def momentSource (micros : Int) : String :=
  let c := Clock.ofMicros micros
  let parts := [c.hour, c.minute] ++ (if c.second = 0 && c.micro = 0 then [] else [c.second]) ++
    (if c.micro = 0 then [] else [c.micro])
  "datetime.datetime(" ++ ", ".intercalate
    (toString c.year :: toString c.month :: toString c.day :: parts.map toString) ++ ")"

/-- The names of kinds of values that expressions know. -/
def kindNames : List String :=
  ["bool", "bytearray", "bytes", "classmethod", "complex", "dict", "enumerate", "filter", "float",
    "frozenset", "int", "list", "map", "memoryview", "object", "property", "range", "reversed", "set",
    "slice", "staticmethod", "str", "super", "tuple", "type", "zip"]

/-- The text of a function or kind that expressions know by name. -/
def builtinText (name : String) : String :=
  if kindNames.contains name then "<class '" ++ name ++ "'>"
  else "<built-in function " ++ name ++ ">"

mutual

/-- The text of a value inside of a collection. -/
def source : Value → String
  | .none => "None"
  | .bool b => if b then "True" else "False"
  | .int n => toString n
  | .real x => realText .value x
  | .text s => quote s
  | .list items => "[" ++ sources items ++ "]"
  | .tuple [] => "()"
  | .tuple [item] => "(" ++ source item ++ ",)"
  | .tuple (a :: b :: rest) => "(" ++ source a ++ ", " ++ source b ++ moreSources rest ++ ")"
  | .set [] => "set()"
  | .set (a :: rest) => "\x7b" ++ source a ++ moreSources rest ++ "\x7d"
  | .dict entries => "\x7b" ++ entrySources entries ++ "\x7d"
  | .range start stop step =>
    "range(" ++ toString start ++ ", " ++ toString stop ++
      (if step = 1 then "" else ", " ++ toString step) ++ ")"
  | .stream _ => "<generator object>"
  | .permission bits => toString bits
  | .moment micros => momentSource micros
  | .table .. => "<table object>"
  | .row .. => "<row object>"
  | .closure .. => "<function <lambda>>"
  | .builtin name => builtinText name
  | .method _ name => "<built-in method " ++ name ++ ">"
  | .command name => "<command " ++ name ++ ">"
  | .other _ s => s

/-- The texts of values with commas between them. -/
def sources : List Value → String
  | [] => ""
  | v :: rest => source v ++ moreSources rest

/-- The texts of values, each after a comma. -/
def moreSources : List Value → String
  | [] => ""
  | v :: rest => ", " ++ source v ++ moreSources rest

/-- The texts of the entries of a mapping. -/
def entrySources : List (Value × Value) → String
  | [] => ""
  | [(k, v)] => source k ++ ": " ++ source v
  | (k, v) :: rest => source k ++ ": " ++ source v ++ ", " ++ entrySources rest

end

/-- The text of a value on its own. -/
def display : Value → String
  | .text s => s
  | .permission bits => permissionText bits
  | .moment micros => momentText micros
  | v => source v

end ValueShell.Value
