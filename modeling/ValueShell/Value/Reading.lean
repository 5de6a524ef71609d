import ValueShell.Number.Nearest
import ValueShell.Text.Blank
import ValueShell.Text.Digit
import ValueShell.Text.Quoted

/-!
# Numbers read from text

The text may have white space around it, a sign, and single underscores between digits; the decimal
digits of every script count.
-/

set_option autoImplicit false

namespace ValueShell.Value

open ValueShell.Number
open ValueShell.Text

/-- The value of a digit, letters being the digits from ten on. -/
def digitOf? (c : Char) : Option Nat :=
  match digitValue? c with
  | some d => some d
  | Option.none =>
    if 'a' ≤ c && c ≤ 'z' then some (c.toNat - 87)
    else if 'A' ≤ c && c ≤ 'Z' then some (c.toNat - 55)
    else Option.none

/-- The number that digits of a base write; single underscores may stand between them. -/
def readDigits? (base : Nat) (acc : Option Nat) : List Char → Option Nat
  | [] => acc
  | '_' :: c :: rest =>
    match acc, digitOf? c with
    | some n, some d => if d < base then readDigits? base (some (n * base + d)) rest else Option.none
    | _, _ => Option.none
  | c :: rest =>
    match digitOf? c with
    | some d => if d < base then readDigits? base (some (acc.getD 0 * base + d)) rest else Option.none
    | Option.none => Option.none

/-- Splits off a sign. -/
def splitSign : List Char → Bool × List Char
  | '-' :: rest => (true, rest)
  | '+' :: rest => (false, rest)
  | cs => (false, cs)

/-- The integer that a text writes in a base; base zero takes it from the text's own mark. -/
def readInt? (s : String) (base : Nat) : Option Int := do
  let (negative, cs) := splitSign (strip s.toList)
  let marked (base : Nat) (cs : List Char) : List Char :=
    let body := match cs with
      | '_' :: rest => rest
      | _ => cs
    if base = 0 then cs else body
  let (base, cs) := match cs with
    | '0' :: c :: rest =>
      if (c = 'x' || c = 'X') && (base = 16 || base = 0) then (16, marked 16 rest)
      else if (c = 'o' || c = 'O') && (base = 8 || base = 0) then (8, marked 8 rest)
      else if (c = 'b' || c = 'B') && (base = 2 || base = 0) then (2, marked 2 rest)
      else (base, cs)
    | _ => (base, cs)
  let leadingZero := base = 0 && cs.head? == some '0'
  let n ← readDigits? (if base = 0 then 10 else base) Option.none cs
  if leadingZero && n ≠ 0 then Option.none
  else some (if negative then -(n : Int) else n)

/-- Decimal digits at the head of a text, possibly grouped by underscores; `after` tells that a digit
stands before. -/
def takeDigits (after : Bool) : List Char → List Char × List Char
  | [] => ([], [])
  | c :: rest =>
    match digitValue? c with
    | some d =>
      let (ds, left) := takeDigits true rest
      (Char.ofNat (48 + d) :: ds, left)
    | Option.none =>
      if c = '_' && after && (rest.head?.map isDecimalDigit).getD false then takeDigits false rest
      else ([], c :: rest)

/-- The floating-point number that a text writes. -/
def readReal? (s : String) : Option Float := do
  let (negative, cs) := splitSign (strip s.toList)
  let word := String.ofList (cs.map Char.toLower)
  let value ←
    if word = "inf" || word = "infinity" then some (1.0 / 0.0)
    else if word = "nan" then some (0.0 / 0.0)
    else
      let (whole, rest) := takeDigits false cs
      let (fraction, rest) := match rest with
        | '.' :: after => takeDigits false after
        | _ => ([], rest)
      if whole.isEmpty && fraction.isEmpty then Option.none
      else
        let number (ds : List Char) : Nat := ds.foldl (fun n c => 10 * n + (c.toNat - 48)) 0
        let exponent ← match rest with
          | [] => some (0 : Int)
          | e :: after =>
            if e = 'e' || e = 'E' then
              let (down, after) := splitSign after
              let (ds, left) := takeDigits false after
              if ds.isEmpty || !left.isEmpty then Option.none
              else some (if down then -(number ds : Int) else number ds)
            else Option.none
        some (nearestDecimal (number (whole ++ fraction)) (exponent - fraction.length))
  some (if negative then -value else value)

end ValueShell.Value
