import ValueShell.Number.Remainder
import ValueShell.Value.Display
import ValueShell.Value.Sequence

/-!
# Templates

A template is a text with marks such as `%s` and `%02d`, each of which is filled with a value. A tuple
fills one mark after the other, a mapping fills marks with a key, and any other value fills one mark.
-/

set_option autoImplicit false

namespace ValueShell.Value

open ValueShell.Number
open ValueShell.Text

/-- How a mark lays out what fills it. -/
structure Layout where
  left : Bool := false
  zero : Bool := false
  plus : Bool := false
  blank : Bool := false
  alternate : Bool := false
  width : Nat := 0
  precision : Option Nat := Option.none

/-- What is left to fill marks with. -/
inductive Filling where
  | one (v : Value)
  | several (vs : List Value)
  | used

/-- The next value that fills a mark. -/
def Filling.take : Filling → Except Fault (Value × Filling)
  | .one v => .ok (v, .used)
  | .several (v :: rest) => .ok (v, .several rest)
  | .several [] => .error .wrongKind
  | .used => .error .wrongKind

/-- Nothing is left over. -/
def Filling.isUsed : Filling → Bool
  | .used => true
  | .several [] => true
  | _ => false

/-- Pads a text with blanks. -/
def Layout.pad (l : Layout) (cs : List Char) : List Char :=
  let fill := List.replicate (l.width - cs.length) ' '
  if l.left then cs ++ fill else fill ++ cs

/-- Puts a sign and padding around the digits of a number. -/
def Layout.padNumber (l : Layout) (negative : Bool) (lead digits : List Char) : List Char :=
  let sign := if negative then ['-'] else if l.plus then ['+'] else if l.blank then [' '] else []
  let head := sign ++ lead
  if l.zero && !l.left then
    head ++ List.replicate (l.width - head.length - digits.length) '0' ++ digits
  else l.pad (head ++ digits)

/-- The digits of a number in a base. -/
def digitsIn (base n : Nat) : List Char := Nat.toDigits base n

/-- The integer that a number mark writes. -/
def wholeNumber (v : Value) : Except Fault Int :=
  match v.number? with
  | some (.int n) => .ok n
  | some (.real x) =>
    match Binary.ofFloat? x with
    | some b => .ok b.truncate
    | Option.none => .error (if x.isNaN then .invalidValue else .overflow)
  | Option.none => .error .wrongKind

/-- The digits of a fraction, rounded to a number of places; a half goes to the even neighbour. -/
def fixedDigits (num den places : Nat) : List Char :=
  let scaled := num * Nat.pow 10 places
  let q := scaled / den
  let r := scaled % den
  let q := if 2 * r > den || (2 * r == den && q % 2 == 1) then q + 1 else q
  let ds := (toString q).toList
  let ds := List.replicate (places + 1 - ds.length) '0' ++ ds
  let whole := ds.take (ds.length - places)
  if places = 0 then whole else whole ++ '.' :: ds.drop (ds.length - places)

/-- The text that fills a mark of the given letter. -/
def Layout.fill (l : Layout) (letter : Char) (v : Value) : Except Fault (List Char) :=
  let cut (s : String) := match l.precision with
    | some n => s.toList.take n
    | Option.none => s.toList
  let based (base : Nat) (lead : String) (shift : Char → Char) : Except Fault (List Char) :=
    match v.int? with
    | Option.none => .error .wrongKind
    | some n =>
      let ds := (digitsIn base n.natAbs).map shift
      let ds := List.replicate ((l.precision.getD 0) - ds.length) '0' ++ ds
      .ok (l.padNumber (n < 0) (if l.alternate then lead.toList else []) ds)
  match letter with
  | 's' => .ok (l.pad (cut v.display))
  | 'r' => .ok (l.pad (cut v.source))
  | 'd' => decimal
  | 'i' => decimal
  | 'u' => decimal
  | 'x' => based 16 "0x" id
  | 'X' => based 16 "0X" Char.toUpper
  | 'o' => based 8 "0o" id
  | 'c' =>
    match v with
    | .text s => if s.length = 1 then .ok (l.pad s.toList) else .error .wrongKind
    | _ =>
      match v.int? with
      | some n => if 0 ≤ n && n < 0x110000 then .ok (l.pad [Char.ofNat n.toNat]) else .error .overflow
      | Option.none => .error .wrongKind
  | 'f' => fixed
  | 'F' => fixed
  | _ => .error .invalidValue
where
  /-- A whole number in decimal digits. -/
  decimal : Except Fault (List Char) := do
    let n ← wholeNumber v
    let ds := (toString n.natAbs).toList
    let ds := List.replicate ((l.precision.getD 0) - ds.length) '0' ++ ds
    .ok (l.padNumber (n < 0) [] ds)
  /-- A number with a fixed number of places. -/
  fixed : Except Fault (List Char) :=
    match v.number? with
    | Option.none => .error .wrongKind
    | some (.int n) => .ok (l.padNumber (n < 0) [] (fixedDigits n.natAbs 1 (l.precision.getD 6)))
    | some (.real x) =>
      match Binary.ofFloat? x with
      | some b =>
        .ok (l.padNumber b.negative [] (fixedDigits b.ratio.1 b.ratio.2 (l.precision.getD 6)))
      | Option.none =>
        .ok (l.pad (if x.isNaN then "nan" else if x < 0.0 then "-inf" else "inf").toList)

/-- Reads the flags of a mark. -/
def readFlags (l : Layout) : List Char → Layout × List Char
  | '-' :: rest => readFlags { l with left := true } rest
  | '0' :: rest => readFlags { l with zero := true } rest
  | '+' :: rest => readFlags { l with plus := true } rest
  | ' ' :: rest => readFlags { l with blank := true } rest
  | '#' :: rest => readFlags { l with alternate := true } rest
  | rest => (l, rest)

/-- Reads a number of decimal digits. -/
def readCount (cs : List Char) : Nat × List Char :=
  ((cs.takeWhile Char.isDigit).foldl (fun n c => 10 * n + (c.toNat - 48)) 0, cs.dropWhile Char.isDigit)

/-- Reads a width or a precision, which a star takes from the filling. -/
def readSize (cs : List Char) (f : Filling) : Except Fault (Int × List Char × Filling) :=
  match cs with
  | '*' :: rest => do
    let (v, f) ← f.take
    match v.int? with
    | some n => .ok (n, rest, f)
    | Option.none => .error .wrongKind
  | _ =>
    let (n, rest) := readCount cs
    .ok (n, rest, f)

/-- Reads the key of a mark, up to its closing parenthesis. -/
def readKey : Nat → List Char → Option (List Char × List Char)
  | _, [] => Option.none
  | 0, ')' :: rest => some ([], rest)
  | n + 1, ')' :: rest => (readKey n rest).map fun (k, r) => (')' :: k, r)
  | n, c :: rest => (readKey (if c = '(' then n + 1 else n) rest).map fun (k, r) => (c :: k, r)

/-- Fills the marks of a template. Each step reads at least one character. -/
def fillFrom (mapping : Option Value) : Nat → List Char → Filling → Except Fault (List Char × Filling)
  | 0, _, f => .ok ([], f)
  | _ + 1, [], f => .ok ([], f)
  | n + 1, '%' :: rest, f => do
    let (f, rest) ← (match rest with
      | '(' :: body =>
        match mapping with
        | Option.none => .error Fault.wrongKind
        | some m =>
          match readKey 0 body with
          | Option.none => .error .invalidValue
          | some (key, after) => do
            let v ← m.at_ (.text (String.ofList key))
            .ok (Filling.one v, after)
      | _ => .ok (f, rest))
    let (l, rest) := readFlags {} rest
    let (width, rest, f) ← readSize rest f
    let l := if width < 0 then { l with left := true, width := width.natAbs }
      else { l with width := width.natAbs }
    let (l, rest, f) ← (match rest with
      | '.' :: after => do
        let (precision, after, f) ← readSize after f
        .ok ({ l with precision := some precision.toNat }, after, f)
      | _ => .ok (l, rest, f))
    let rest := rest.dropWhile fun c => c = 'h' || c = 'l' || c = 'L'
    match rest with
    | [] => .error .invalidValue
    | '%' :: rest => do
      let (tail, f) ← fillFrom mapping n rest f
      .ok ('%' :: tail, f)
    | letter :: rest => do
      let (v, f) ← f.take
      let body ← l.fill letter v
      let (tail, f) ← fillFrom mapping n rest f
      .ok (body ++ tail, f)
  | n + 1, c :: rest, f => do
    let (tail, f) ← fillFrom mapping n rest f
    .ok (c :: tail, f)

/-- The text that a template gives when its marks are filled. -/
def fillTemplate (template : String) (arg : Value) : Except Fault String := do
  let cs := template.toList
  let mapping := match arg with
    | .dict _ => some arg
    | .list _ => some arg
    | .range .. => some arg
    | .row .. => some arg
    | _ => Option.none
  let filling := match arg with
    | .tuple vs => Filling.several vs
    | v => .one v
  let (body, left) ← fillFrom mapping (cs.length + 1) cs filling
  if left.isUsed || mapping.isSome then .ok (String.ofList body) else .error .wrongKind

end ValueShell.Value
