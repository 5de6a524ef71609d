import ValueShell.Number.Nearest

/-!
# Shortest decimals

The shortest decimal that reads back as a given floating-point number.

A number stands for every real that is nearer to it than to its neighbours, and for the two
midpoints if its mantissa is even. For one digit, two digits and so on, the two decimals next to the
number on that grid are tried; the first grid with a hit wins, and of two hits the nearer one.
-/

set_option autoImplicit false

namespace ValueShell.Number

/-- A decimal `0.d₁d₂… * 10 ^ point`, its digits being those of `digits`. -/
structure Decimal where
  digits : Nat
  point : Int
  deriving Repr, DecidableEq

/-- The reals that read back as one number: from `low / den` to `high / den`, around `value / den`. -/
structure Interval where
  low : Nat
  value : Nat
  high : Nat
  den : Nat
  closed : Bool

/-- The reals that read back as a positive number. -/
def Interval.ofBinary (b : Binary) : Interval :=
  let scale := Nat.pow 2 (b.exponent - 2).toNat
  let den := Nat.pow 2 (2 - b.exponent).toNat
  let narrow := b.mantissa == 4503599627370496 && b.exponent > -1074
  { low := (4 * b.mantissa - (if narrow then 1 else 2)) * scale
    value := 4 * b.mantissa * scale
    high := (4 * b.mantissa + 2) * scale
    den
    closed := b.mantissa % 2 == 0 }

/-- The fraction `num / den` lies in the interval. -/
def Interval.contains (i : Interval) (num den : Nat) : Bool :=
  let below := i.low * den
  let here := num * i.den
  let above := i.high * den
  if i.closed then below ≤ here && here ≤ above else below < here && here < above

/-- How many digits stand before the point: the `k` with `10 ^ (k - 1) ≤ num / den < 10 ^ k`, for a
positive fraction. `fuel` bounds the zeros after the point that are looked at. -/
def decimalPoint (num den : Nat) : Nat → Int
  | 0 => 0
  | fuel + 1 =>
    if num ≥ den then ((Nat.toDigits 10 (num / den)).length : Int)
    else decimalPoint (10 * num) den fuel - 1

/-- The decimal with `n` digits next to the value, if one reads back. -/
def Interval.decimal? (i : Interval) (point : Int) (n : Nat) : Option Decimal :=
  let scale : Int := (n : Int) - point
  let up := Nat.pow 10 scale.toNat
  let down := Nat.pow 10 (-scale).toNat
  let top := i.value * up
  let bottom := i.den * down
  let floor := top / bottom
  let lowHit := floor > 0 && i.contains (floor * down) up
  let highHit := i.contains ((floor + 1) * down) up
  let rest := 2 * (top % bottom)
  let takeLow := lowHit && (!highHit || rest < bottom || (rest == bottom && floor % 2 == 0))
  if takeLow then some ⟨floor, point⟩
  else if highHit then
    if floor + 1 == Nat.pow 10 n then some ⟨1, point + 1⟩ else some ⟨floor + 1, point⟩
  else none

/-- The first grid from `n` digits on that has a hit. -/
def Interval.shortestFrom (i : Interval) (point : Int) (n : Nat) : Nat → Decimal
  | 0 => ⟨i.value / i.den, point⟩
  | fuel + 1 =>
    match i.decimal? point n with
    | some d => d
    | none => i.shortestFrom point (n + 1) fuel

/-- The shortest decimal that reads back as a positive number. -/
def Binary.shortest (b : Binary) : Decimal :=
  let i := Interval.ofBinary b
  i.shortestFrom (decimalPoint i.value i.den 400) 1 17

end ValueShell.Number
