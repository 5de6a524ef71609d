/-!
# Nearest floating-point numbers

Floating-point numbers and exact fractions: the fraction that a number is, and the number nearest
to a fraction.
-/

set_option autoImplicit false

namespace ValueShell.Number

/-- A finite number as `mantissa * 2 ^ exponent`, with its sign apart. -/
structure Binary where
  negative : Bool
  mantissa : Nat
  exponent : Int
  deriving Repr, DecidableEq

/-- The parts of a finite number; nothing for an infinity or a number that is none. -/
def Binary.ofFloat? (x : Float) : Option Binary :=
  let bits := x.toBits.toNat
  let negative := bits / 9223372036854775808 % 2 == 1
  let exponent : Nat := bits / 4503599627370496 % 2048
  let fraction := bits % 4503599627370496
  if exponent == 2047 then none
  else if exponent == 0 then some ⟨negative, fraction, -1074⟩
  else some ⟨negative, fraction + 4503599627370496, Int.ofNat exponent - 1075⟩

/-- The numerator and denominator of the absolute value. -/
def Binary.ratio (b : Binary) : Nat × Nat :=
  (b.mantissa * Nat.pow 2 b.exponent.toNat, Nat.pow 2 (-b.exponent).toNat)

/-- The number nearest to `num / den`, a tie going to the even mantissa; infinite if the fraction is
too large. The denominator is positive. -/
def nearest (num den : Nat) : Float :=
  if num == 0 then 0.0
  else
    let magnitude : Int := (num.log2 : Int) - (den.log2 : Int)
    let shift : Int := 54 - magnitude
    let top := num * Nat.pow 2 shift.toNat
    let bottom := den * Nat.pow 2 (-shift).toNat
    let quotient := top / bottom
    let inexact := top % bottom != 0
    let drop := max ((quotient.log2 : Int) + 1 - 53) (shift - 1074)
    let unit := Nat.pow 2 drop.toNat
    let kept := quotient / unit
    let lost := quotient % unit
    let up := 2 * lost > unit || (2 * lost == unit && (inexact || kept % 2 == 1))
    let mantissa := if up then kept + 1 else kept
    (Float.ofNat mantissa).scaleB (drop - shift)

/-- The number nearest to an integer. -/
def nearestInt (n : Int) : Float :=
  let x := nearest n.natAbs 1
  if n < 0 then -x else x

/-- The number nearest to `mantissa * 10 ^ exponent`. -/
def nearestDecimal (mantissa : Nat) (exponent : Int) : Float :=
  if mantissa == 0 then 0.0
  else if exponent + (mantissa.log2 : Int) > 1100 then 1.0 / 0.0
  else if exponent + (mantissa.log2 : Int) < -800 then 0.0
  else nearest (mantissa * Nat.pow 10 exponent.toNat) (Nat.pow 10 (-exponent).toNat)

end ValueShell.Number
