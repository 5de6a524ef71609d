import ValueShell.Number.Shortest

/-!
# Texts of floating-point numbers

The text of floating-point numbers. The digits are the shortest that read back; they are written
positionally when the point stands at most sixteen digits to the right and three zeros to the left,
and with an exponent of at least two digits otherwise. A number always shows a point or an exponent.
-/

set_option autoImplicit false

namespace ValueShell.Number

/-- How the text of a floating-point number is laid out. -/
structure RealFormat where
  /-- The largest number of places before the point in positional notation. -/
  maxPoint : Int
  /-- The least number of places before the point in positional notation. -/
  minPoint : Int
  /-- The least number of digits of an exponent. -/
  exponentWidth : Nat
  notANumber : String
  infinite : String

/-- The layout of numbers as values. -/
def RealFormat.value : RealFormat :=
  { maxPoint := 16, minPoint := -3, exponentWidth := 2, notANumber := "nan", infinite := "inf" }

/-- A text of the character `'0'`. -/
def zeros (n : Nat) : String := String.ofList (List.replicate n '0')

/-- The decimal in positional notation. -/
def Decimal.positional (d : Decimal) : String :=
  let ds := toString d.digits
  let n := ds.length
  if d.point ≤ 0 then "0." ++ zeros (-d.point).toNat ++ ds
  else if (n : Int) ≤ d.point then ds ++ zeros (d.point - n).toNat ++ ".0"
  else
    let cs := ds.toList
    String.ofList (cs.take d.point.toNat) ++ "." ++ String.ofList (cs.drop d.point.toNat)

/-- The decimal with an exponent. -/
def Decimal.scientific (f : RealFormat) (d : Decimal) : String :=
  let exponent := d.point - 1
  let digits := toString exponent.natAbs
  let padded := zeros (f.exponentWidth - digits.length) ++ digits
  let mantissa :=
    match (toString d.digits).toList with
    | [] => ""
    | [c] => String.ofList [c]
    | c :: rest => String.ofList (c :: '.' :: rest)
  mantissa ++ "e" ++ (if exponent < 0 then "-" else "+") ++ padded

/-- The text of a positive decimal. -/
def Decimal.text (f : RealFormat) (d : Decimal) : String :=
  if f.minPoint ≤ d.point && d.point ≤ f.maxPoint then d.positional else d.scientific f

/-- The text of a floating-point number. -/
def realText (f : RealFormat) (x : Float) : String :=
  match Binary.ofFloat? x with
  | none => if x.isNaN then f.notANumber else if x < 0 then "-" ++ f.infinite else f.infinite
  | some b =>
    let body := if b.mantissa == 0 then "0.0" else b.shortest.text f
    if b.negative then "-" ++ body else body

end ValueShell.Number
