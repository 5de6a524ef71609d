import ValueShell.Value.Template

/-!
# Arithmetic on values

Integers are unbounded. Division of integers by a slash gives the nearest floating-point number;
floored division and its remainder go with the sign of the divisor.
-/

set_option autoImplicit false

namespace ValueShell.Value

open ValueShell.Number
open ValueShell.Expr (BinaryOp UnaryOp)

/-- The floating-point number nearest to an integer, which must not be too large. -/
def realOfInt (n : Int) : Except Fault Float :=
  let x := nearestInt n
  if x.isInf then .error .overflow else .ok x

/-- A number as a floating-point number. -/
def Number.toReal : Number → Except Fault Float
  | .int n => realOfInt n
  | .real x => .ok x

/-- The quotient of two integers, rounded to the nearest floating-point number. -/
def divideInts (a b : Int) : Except Fault Float :=
  if b = 0 then .error .divisionByZero
  else
    let x := nearest a.natAbs b.natAbs
    if x.isInf then .error .overflow
    else .ok (if (a < 0) != (b < 0) then -x else x)

/-- The power of two floating-point numbers. -/
def powerReals (x y : Float) : Except Fault Value :=
  if x == 0.0 && y < 0.0 then .error .divisionByZero
  else if x < 0.0 && y.floor != y && !y.isInf && !x.isInf then .ok (.other "complex" "complex")
  else
    let z := Float.pow x y
    if z.isInf && !x.isInf && !y.isInf then .error .overflow else .ok (.real z)

/-- Arithmetic on two numbers. -/
def arithmetic (op : BinaryOp) (a b : Number) : Except Fault Value :=
  match op, a, b with
  | .add, .int m, .int n => .ok (.int (m + n))
  | .sub, .int m, .int n => .ok (.int (m - n))
  | .mul, .int m, .int n => .ok (.int (m * n))
  | .div, .int m, .int n => (divideInts m n).map .real
  | .floorDiv, .int m, .int n => if n = 0 then .error .divisionByZero else .ok (.int (Int.fdiv m n))
  | .mod, .int m, .int n => if n = 0 then .error .divisionByZero else .ok (.int (Int.fmod m n))
  | .power, .int m, .int n =>
    if n ≥ 0 then .ok (.int (Int.pow m n.toNat))
    else do
      let x ← realOfInt m
      let y ← realOfInt n
      powerReals x y
  | .add, a, b => do
    let x ← a.toReal
    let y ← b.toReal
    .ok (.real (x + y))
  | .sub, a, b => do
    let x ← a.toReal
    let y ← b.toReal
    .ok (.real (x - y))
  | .mul, a, b => do
    let x ← a.toReal
    let y ← b.toReal
    .ok (.real (x * y))
  | .div, a, b => do
    let x ← a.toReal
    let y ← b.toReal
    if y == 0.0 then .error .divisionByZero else .ok (.real (x / y))
  | .floorDiv, a, b => do
    let x ← a.toReal
    let y ← b.toReal
    if y == 0.0 then .error .divisionByZero else .ok (.real (flooredQuotient x y))
  | .mod, a, b => do
    let x ← a.toReal
    let y ← b.toReal
    if y == 0.0 then .error .divisionByZero else .ok (.real (flooredRemainder x y))
  | .power, a, b => do
    let x ← a.toReal
    let y ← b.toReal
    powerReals x y
  | _, _, _ => .error .wrongKind

/-- Combines two integers bit by bit. A negative integer has infinitely many leading ones, so it is
the complement of a natural number; `f` tells what each pair of bits gives. -/
def bitwiseInts (f : Bool → Bool → Bool) (a b : Int) : Int :=
  let flip (n : Int) : Nat := if n < 0 then (-n - 1).toNat else n.toNat
  let negative := f (a < 0) (b < 0)
  let bits := Nat.bitwise
    (fun x y => f (x != decide (a < 0)) (y != decide (b < 0)) != negative) (flip a) (flip b)
  if negative then -(bits : Int) - 1 else bits

/-- Operations on the bits of integers; on two truth values they give a truth value. -/
def bitOperation (op : BinaryOp) (a b : Value) : Except Fault Value :=
  match a.int?, b.int? with
  | some m, some n =>
    let combine (f : Bool → Bool → Bool) : Except Fault Value :=
      match a, b with
      | .bool x, .bool y => .ok (.bool (f x y))
      | _, _ => .ok (.int (bitwiseInts f m n))
    match op with
    | .bitOr => combine (· || ·)
    | .bitXor => combine (· != ·)
    | .bitAnd => combine (· && ·)
    | .shiftLeft => if n < 0 then .error .invalidValue else .ok (.int (m * Nat.pow 2 n.toNat))
    | .shiftRight => if n < 0 then .error .invalidValue else .ok (.int (Int.fdiv m (Nat.pow 2 n.toNat)))
    | _ => .error .wrongKind
  | _, _ =>
    match op, a, b with
    | .bitOr, .dict xs, .dict ys => .ok (.dict (ys.foldl (fun es e => putEntry es e.1 e.2) xs))
    | .bitOr, .set xs, .set ys => .ok (.set (xs ++ ys.filter fun y => !isAmong y xs))
    | .bitAnd, .set xs, .set ys => .ok (.set (xs.filter fun x => isAmong x ys))
    | _, _, _ => .error .wrongKind

/-- How often a sequence of some length has to be copied to have it `n` times. -/
def copies (size : Nat) (n : Int) : Except Fault Nat :=
  if n ≥ 9223372036854775808 || n < -9223372036854775808 then .error .overflow
  else if size = 0 then .ok 0
  else if size * n.toNat ≥ 2147483648 then .error .outOfMemory
  else .ok n.toNat

/-- A sequence, several times over. -/
def repeated (v : Value) (n : Int) : Except Fault Value :=
  match v with
  | .text s => (copies s.length n).map fun n => .text (String.join (List.replicate n s))
  | .list xs => (copies xs.length n).map fun n => .list (List.replicate n xs).flatten
  | .tuple xs => (copies xs.length n).map fun n => .tuple (List.replicate n xs).flatten
  | _ => .error .wrongKind

/-- A binary operation on two values. -/
def binary (op : BinaryOp) (a b : Value) : Except Fault Value :=
  match op, a with
  | .mod, .text template => (fillTemplate template b).map .text
  | _, _ =>
    match op with
    | .bitOr => bitOperation op a b
    | .bitXor => bitOperation op a b
    | .bitAnd => bitOperation op a b
    | .shiftLeft => bitOperation op a b
    | .shiftRight => bitOperation op a b
    | _ =>
      match a.number?, b.number? with
      | some x, some y => arithmetic op x y
      | _, _ =>
        match op, a, b with
        | .add, .text s, .text t => .ok (.text (s ++ t))
        | .add, .list xs, .list ys => .ok (.list (xs ++ ys))
        | .add, .tuple xs, .tuple ys => .ok (.tuple (xs ++ ys))
        | .sub, .set xs, .set ys => .ok (.set (xs.filter fun x => !isAmong x ys))
        | .mul, _, _ =>
          match a.int?, b.int? with
          | some n, _ => repeated b n
          | _, some n => repeated a n
          | _, _ => .error .wrongKind
        | _, _, _ => .error .wrongKind

/-- A unary operation on a value. -/
def unary (op : UnaryOp) (v : Value) : Except Fault Value :=
  match op with
  | .not => .ok (.bool !v.truthy)
  | .plus =>
    match v.number? with
    | some (.int n) => .ok (.int n)
    | some (.real x) => .ok (.real x)
    | Option.none => .error .wrongKind
  | .minus =>
    match v.number? with
    | some (.int n) => .ok (.int (-n))
    | some (.real x) => .ok (.real (-x))
    | Option.none => .error .wrongKind
  | .invert =>
    match v.int? with
    | some n => .ok (.int (-n - 1))
    | Option.none => .error .wrongKind

end ValueShell.Value
