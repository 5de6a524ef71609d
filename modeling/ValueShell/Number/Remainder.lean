import ValueShell.Number.Nearest

/-!
# Division of floating-point numbers with a floored quotient

The remainder has the sign of the divisor. It is computed exactly, from the fractions that the two
numbers are.
-/

set_option autoImplicit false

namespace ValueShell.Number

/-- Scales a binary number to a lower exponent. -/
def Binary.mantissaAt (b : Binary) (exponent : Int) : Nat :=
  b.mantissa * Nat.pow 2 (b.exponent - exponent).toNat

/-- The remainder of the absolute values, with the sign of the dividend. -/
def truncatedRemainder (x y : Float) : Float :=
  match Binary.ofFloat? x, Binary.ofFloat? y with
  | some a, some b =>
    let e := min a.exponent b.exponent
    let r := a.mantissaAt e % b.mantissaAt e
    let magnitude := nearest (r * Nat.pow 2 e.toNat) (Nat.pow 2 (-e).toNat)
    if a.negative then -magnitude else magnitude
  | some _, none => if y.isNaN then y else x
  | none, _ => 0.0 / 0.0

/-- The remainder, with the sign of the divisor. -/
def flooredRemainder (x y : Float) : Float :=
  let r := truncatedRemainder x y
  if r == 0.0 then if y < 0.0 || (1.0 / y < 0.0) then -0.0 else 0.0
  else if (y < 0.0) != (r < 0.0) then r + y
  else r

/-- The quotient, rounded down. -/
def flooredQuotient (x y : Float) : Float :=
  let r := truncatedRemainder x y
  let q := (x - r) / y
  let q := if r != 0.0 && (y < 0.0) != (r < 0.0) then q - 1.0 else q
  if q == 0.0 then
    let exact := x / y
    if exact < 0.0 || 1.0 / exact < 0.0 then -0.0 else 0.0
  else
    let down := q.floor
    if q - down > 0.5 then down + 1.0 else down

/-- The integer part of a finite number. -/
def Binary.truncate (b : Binary) : Int :=
  let n : Int := b.ratio.1 / b.ratio.2
  if b.negative then -n else n

end ValueShell.Number
