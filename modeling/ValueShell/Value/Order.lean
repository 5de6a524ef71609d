import ValueShell.Number.Nearest
import ValueShell.Value.Basic

/-!
# Equality and order of values

Numbers of all kinds compare by value, exactly. Sequences compare element by element. Values of
different kinds are never equal and have no order.
-/

set_option autoImplicit false

namespace ValueShell.Value

open ValueShell.Number

/-- Compares an integer with a floating-point number. -/
def compareIntReal (n : Int) (x : Float) : Option Ordering :=
  match Binary.ofFloat? x with
  | some b =>
    let (num, den) := b.ratio
    let signed : Int := if b.negative then -num else num
    some (compare (n * den) signed)
  | Option.none =>
    if x.isNaN then Option.none else if x > 0.0 then some .lt else some .gt

/-- Compares two numbers; a number that is none compares with nothing. -/
def Number.compare? : Number → Number → Option Ordering
  | .int a, .int b => some (compare a b)
  | .int a, .real b => compareIntReal a b
  | .real a, .int b => (compareIntReal b a).map Ordering.swap
  | .real a, .real b =>
    if a < b then some .lt else if a == b then some .eq else if a > b then some .gt else Option.none

/-- The two values are equal, as far as collections nested at most `n` deep show. -/
def equalWithin : Nat → Value → Value → Bool
  | 0, _, _ => false
  | n + 1, a, b =>
    match a.number?, b.number? with
    | some x, some y => x.compare? y == some .eq
    | some _, Option.none => false
    | Option.none, some _ => false
    | Option.none, Option.none =>
      match a, b with
      | .none, .none => true
      | .text s, .text t => s == t
      | .list xs, .list ys => allEqual n xs ys
      | .tuple xs, .tuple ys => allEqual n xs ys
      | .set xs, .set ys => xs.length == ys.length && xs.all fun x => ys.any (equalWithin n x)
      | .dict xs, .dict ys =>
        xs.length == ys.length && xs.all fun x =>
          ys.any fun y => equalWithin n x.1 y.1 && equalWithin n x.2 y.2
      | .range start stop step, .range start' stop' step' =>
        let size := rangeLength start stop step
        size == rangeLength start' stop' step' &&
          (size == 0 || (start == start' && (size == 1 || step == step')))
      | .moment s, .moment t => s == t
      | .table s _ _, .table t _ _ => s == t
      | .builtin s, .builtin t => s == t
      | .command s, .command t => s == t
      | .method s p, .method t q => p == q && equalWithin n s t
      | .other k s, .other l t => k == l && s == t
      | _, _ => false
where
  /-- The lists are equal element by element. -/
  allEqual (n : Nat) (xs ys : List Value) : Bool :=
    xs.length == ys.length && (xs.zip ys).all fun e => equalWithin n e.1 e.2

/-- The two values are equal. -/
def equal (a b : Value) : Bool := equalWithin (a.depth + 1) a b

instance : BEq Value := ⟨equal⟩

/-- A comparison by order. -/
inductive Relation where
  | lt | le | gt | ge
  deriving DecidableEq

/-- The relation holds for two values that compare like this. -/
def Relation.holds : Relation → Option Ordering → Bool
  | _, Option.none => false
  | .lt, some o => o == .lt
  | .le, some o => o != .gt
  | .gt, some o => o == .gt
  | .ge, some o => o != .lt

/-- Compares two values by order, as far as collections nested at most `n` deep allow. -/
def relatedWithin : Nat → Relation → Value → Value → Except Fault Bool
  | 0, _, _, _ => .error .wrongKind
  | n + 1, r, a, b =>
    match a.number?, b.number? with
    | some x, some y => .ok (r.holds (x.compare? y))
    | some _, Option.none => .error .wrongKind
    | Option.none, some _ => .error .wrongKind
    | Option.none, Option.none =>
      match a, b with
      | .text s, .text t => .ok (r.holds (some (compare s t)))
      | .list xs, .list ys => sequences n r xs ys
      | .tuple xs, .tuple ys => sequences n r xs ys
      | .moment s, .moment t => .ok (r.holds (some (compare s t)))
      | _, _ => .error .wrongKind
where
  /-- The first elements that differ decide, or else the lengths. -/
  sequences (n : Nat) (r : Relation) (xs ys : List Value) : Except Fault Bool :=
    match (xs.zip ys).find? fun e => !equal e.1 e.2 with
    | some (x, y) => relatedWithin n r x y
    | Option.none => .ok (r.holds (some (compare xs.length ys.length)))

/-- Compares two values by order. -/
def related (r : Relation) (a b : Value) : Except Fault Bool :=
  relatedWithin (max a.depth b.depth + 1) r a b

/-- The value is among the others. -/
def isAmong (v : Value) (others : List Value) : Bool := others.any fun o => equal v o

/-- The value that a mapping has for a key. -/
def keyValue? (entries : List (Value × Value)) (key : Value) : Option Value :=
  (entries.find? fun e => equal e.1 key).map (·.2)

/-- Adds an entry to a mapping; a key that is there keeps its place and gets the new value. -/
def putEntry (entries : List (Value × Value)) (key value : Value) : List (Value × Value) :=
  if entries.any fun e => equal e.1 key then
    entries.map fun e => if equal e.1 key then (e.1, value) else e
  else entries ++ [(key, value)]

end ValueShell.Value
