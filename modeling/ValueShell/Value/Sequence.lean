import ValueShell.Value.Order

/-!
# Elements, positions and slices

What iterating over a value gives, what stands at a position or under a key, and what a slice holds.
Positions count from the end if they are negative.
-/

set_option autoImplicit false

namespace ValueShell.Value

/-- The elements of a value, in order. -/
def items : Value → Except Fault (List Value)
  | .list xs => .ok xs
  | .tuple xs => .ok xs
  | .set xs => .ok xs
  | .dict entries => .ok (entries.map (·.1))
  | .text s => .ok (s.toList.map fun c => .text (String.singleton c))
  | .range start stop step => .ok (rangeItems start stop step)
  | .stream xs => .ok xs
  | .table mark columns rows => .ok (rows.map fun r => .row mark columns r)
  | .row .. => .error (.missingKey Option.none)
  | _ => .error .wrongKind

/-- The value has elements that a loop can visit. -/
def isIterable : Value → Bool
  | .list _ => true
  | .tuple _ => true
  | .set _ => true
  | .dict _ => true
  | .text _ => true
  | .range .. => true
  | .stream _ => true
  | .table .. => true
  | _ => false

/-- The number of elements of a value. -/
def length : Value → Except Fault Nat
  | .stream _ => .error .wrongKind
  | .table .. => .error .wrongKind
  | .row .. => .error .wrongKind
  | v => v.items.map List.length

/-- The place in a sequence of `size` elements that a position means. -/
def position? (size : Nat) (i : Int) : Option Nat :=
  let j := if i < 0 then i + size else i
  if 0 ≤ j && j < size then some j.toNat else Option.none

/-- The element at a position. -/
def elementAt (xs : List Value) (i : Int) : Except Fault Value :=
  match (position? xs.length i).bind fun j => xs[j]? with
  | some v => .ok v
  | Option.none => .error .outOfRange

/-- The place of a column; of columns with one name the last counts. -/
def columnIndex (columns : List String) (name : String) : Except Fault Nat :=
  match columns.length - 1 - columns.reverse.idxOf name with
  | i => if columns.contains name then .ok i else .error (.missingKey (some name))

/-- What stands under a key that is no slice. -/
def at_ (object key : Value) : Except Fault Value :=
  match object with
  | .dict entries =>
    if !key.isKey then .error .wrongKind
    else
      match keyValue? entries key with
      | some v => .ok v
      | Option.none => .error (.missingKey key.text?)
  | .row _ columns values =>
    if !key.isKey then .error .wrongKind
    else
      match key with
      | .text name => do
        let i ← columnIndex columns name
        cell values i
      | _ => .error (.missingKey Option.none)
  | .list xs => positional xs
  | .tuple xs => positional xs
  | .text s => positional (s.toList.map fun c => .text (String.singleton c))
  | .range start stop step => positional (rangeItems start stop step)
  | _ => .error .wrongKind
where
  /-- The element at the position that the key gives. -/
  positional (xs : List Value) : Except Fault Value :=
    match key.int? with
    | some i => elementAt xs i
    | Option.none => .error .wrongKind
  /-- The cell of a row. -/
  cell (values : Value) (i : Nat) : Except Fault Value :=
    match values with
    | .list xs => elementAt xs i
    | .tuple xs => elementAt xs i
    | .text s => elementAt (s.toList.map fun c => .text (String.singleton c)) i
    | .range start stop step => elementAt (rangeItems start stop step) i
    | .dict entries =>
      match keyValue? entries (.int i) with
      | some v => .ok v
      | Option.none => .error (.missingKey Option.none)
    | _ => .error .wrongKind

/-- A bound of a slice: absent, or an integer. -/
def sliceBound? : Option Value → Except Fault (Option Int)
  | Option.none => .ok Option.none
  | some .none => .ok Option.none
  | some v =>
    match v.int? with
    | some i => .ok (some i)
    | Option.none => .error .wrongKind

/-- Where a slice of a sequence of `size` elements begins, and where it ends. -/
def sliceEnds (size : Nat) (start stop : Option Int) (step : Int) : Int × Int :=
  let low : Int := if step < 0 then -1 else 0
  let high : Int := if step < 0 then size - 1 else size
  let clamp (i : Int) : Int :=
    let j := if i < 0 then i + size else i
    if j < low then low else if j > high then high else j
  ((start.map clamp).getD (if step < 0 then high else low),
    (stop.map clamp).getD (if step < 0 then low else high))

/-- The places that a slice picks from a sequence of `size` elements. -/
def slicePlaces (size : Nat) (start stop : Option Int) (step : Int) : List Nat :=
  let (first, last) := sliceEnds size start stop step
  (List.range (rangeLength first last step)).map fun (i : Nat) => (first + step * i).toNat

/-- What a slice of a value holds. -/
def slice (object : Value) (start stop step : Option Value) : Except Fault Value := do
  match object with
  | .list xs =>
    let places ← places xs.length
    .ok (.list (places.filterMap fun i => xs[i]?))
  | .tuple xs =>
    let places ← places xs.length
    .ok (.tuple (places.filterMap fun i => xs[i]?))
  | .text s =>
    let cs := s.toList
    let places ← places cs.length
    .ok (.text (String.ofList (places.filterMap fun i => cs[i]?)))
  | .range a b c =>
    let (start, stop, step) ← bounds
    let (first, last) := sliceEnds (rangeLength a b c) start stop step
    .ok (.range (a + first * c) (a + last * c) (c * step))
  | _ => .error .wrongKind
where
  bounds : Except Fault (Option Int × Option Int × Int) := do
    let start ← sliceBound? start
    let stop ← sliceBound? stop
    let step ← sliceBound? step
    let step := step.getD 1
    if step = 0 then .error .invalidValue else .ok (start, stop, step)
  places (size : Nat) : Except Fault (List Nat) := do
    let (start, stop, step) ← bounds
    .ok (slicePlaces size start stop step)

/-- The value is an element of the collection. -/
def isIn (v collection : Value) : Except Fault Bool :=
  match collection with
  | .text s =>
    match v with
    | .text t => .ok (occurs t.toList s.toList)
    | _ => .error .wrongKind
  | .dict entries => if v.isKey then .ok (keyValue? entries v).isSome else .error .wrongKind
  | .set xs => if v.isKey then .ok (v.isAmong xs) else .error .wrongKind
  | c => c.items.map fun xs => v.isAmong xs
where
  /-- The first text is a part of the second. -/
  occurs (part : List Char) : List Char → Bool
    | [] => part.isEmpty
    | c :: rest => part.isPrefixOf (c :: rest) || occurs part rest

end ValueShell.Value
