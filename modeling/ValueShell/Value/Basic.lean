import ValueShell.Expr.Syntax
import ValueShell.Fault

/-!
# Values

What variables hold, expressions compute and commands pass along. Values do not change; a table and
its rows share a mark by which rows of one table are told from rows of another with equal columns.
-/

set_option autoImplicit false

namespace ValueShell

/-- A value. -/
inductive Value where
  | none
  | bool (b : Bool)
  | int (n : Int)
  | real (x : Float)
  | text (s : String)
  | list (items : List Value)
  | tuple (items : List Value)
  | set (items : List Value)
  /-- Entries in the order in which their keys came. -/
  | dict (entries : List (Value × Value))
  | range (start stop step : Int)
  /-- Elements that are taken one after the other. -/
  | stream (items : List Value)
  | permission (bits : Nat)
  /-- A point in time, in microseconds since the epoch. -/
  | moment (micros : Int)
  | table (mark : Nat) (columns : List String) (rows : List Value)
  | row (mark : Nat) (columns : List String) (values : Value)
  /-- A function with the names that it sees. -/
  | closure (params : List (String × Expr.ParamKind × Option Value)) (body : Expr)
      (bound globals : List (String × Value))
  /-- A function or kind of value that every expression knows by name. -/
  | builtin (name : String)
  | method (object : Value) (name : String)
  | command (name : String)
  /-- A value of which only the kind and the text are known. -/
  | other (kind text : String)

namespace Value

instance : Inhabited Value := ⟨.none⟩

/-- A number that takes part in arithmetic. -/
inductive Number where
  | int (n : Int)
  | real (x : Float)

/-- The number that a value stands for in arithmetic. -/
def number? : Value → Option Number
  | .bool b => some (.int (if b then 1 else 0))
  | .int n => some (.int n)
  | .permission bits => some (.int bits)
  | .real x => some (.real x)
  | _ => Option.none

/-- The integer that a value stands for where only integers are allowed. -/
def int? (v : Value) : Option Int :=
  match v.number? with
  | some (.int n) => some n
  | _ => Option.none

/-- The text, if the value is one. -/
def text? : Value → Option String
  | .text s => some s
  | _ => Option.none

/-- The number of elements of a range. -/
def rangeLength (start stop step : Int) : Nat :=
  if step > 0 then ((stop - start + step - 1) / step).toNat
  else if step < 0 then ((start - stop - step - 1) / (-step)).toNat
  else 0

/-- The elements of a range. -/
def rangeItems (start stop step : Int) : List Value :=
  (List.range (rangeLength start stop step)).map fun (i : Nat) => .int (start + step * i)

/-- The value counts as true. -/
def truthy : Value → Bool
  | .none => false
  | .bool b => b
  | .int n => n != 0
  | .real x => x != 0.0
  | .text s => !s.isEmpty
  | .list items => !items.isEmpty
  | .tuple items => !items.isEmpty
  | .set items => !items.isEmpty
  | .dict entries => !entries.isEmpty
  | .range start stop step => rangeLength start stop step != 0
  | .permission bits => bits != 0
  | _ => true

/-- The value can be called. -/
def isCallable : Value → Bool
  | .closure .. => true
  | .builtin _ => true
  | .method .. => true
  | .command _ => true
  | _ => false

/-- The value can be a key: it does not hold other values that are collected one by one. -/
def isKey : Value → Bool
  | .list _ => false
  | .set _ => false
  | .dict _ => false
  | .tuple items => keys items
  | _ => true
where
  keys : List Value → Bool
    | [] => true
    | v :: rest => isKey v && keys rest

mutual

/-- How deeply collections are nested in a value. -/
def depth : Value → Nat
  | .list items => depthOfAll items + 1
  | .tuple items => depthOfAll items + 1
  | .set items => depthOfAll items + 1
  | .dict entries => depthOfEntries entries + 1
  | .stream items => depthOfAll items + 1
  | .table _ _ rows => depthOfAll rows + 1
  | .row _ _ values => depth values + 1
  | _ => 0

def depthOfAll : List Value → Nat
  | [] => 0
  | v :: rest => max (depth v) (depthOfAll rest)

def depthOfEntries : List (Value × Value) → Nat
  | [] => 0
  | (k, v) :: rest => max (max (depth k) (depth v)) (depthOfEntries rest)

end

end Value

/-- Names with their values; the first binding of a name counts. -/
abbrev Bindings := List (String × Value)

/-- The value of a name. -/
def Bindings.find? (b : Bindings) (name : String) : Option Value :=
  (List.find? (fun e => e.1 == name) b).map (·.2)

end ValueShell
