import ValueShell.Text.Printable

/-!
# Quoted texts

Quoted text: writing a text as a string literal, and reading the escapes of a literal's body.

A text is written between apostrophes, or between double quotes if it holds an apostrophe and no
double quote. The backslash, the chosen quote and every unprintable character are escaped, so the
written form is one line of printable characters.
-/

set_option autoImplicit false

namespace ValueShell.Text

/-- The apostrophe. -/
def apostrophe : Char := Char.ofNat 39

/-- The double quote. -/
def doubleQuote : Char := '"'

/-- The lower-case hexadecimal digit of a number below 16. -/
def hexDigit (n : Nat) : Char :=
  if n < 10 then Char.ofNat (48 + n) else Char.ofNat (87 + n)

/-- The last `width` hexadecimal digits of a number. -/
def hexDigits (width n : Nat) : List Char :=
  (List.range width).reverse.map fun i => hexDigit (n / Nat.pow 16 i % 16)

/-- The value of a hexadecimal digit. -/
def hexValue? (c : Char) : Option Nat :=
  let n := c.toNat
  if 48 ≤ n && n ≤ 57 then some (n - 48)
  else if 97 ≤ n && n ≤ 102 then some (n - 87)
  else if 65 ≤ n && n ≤ 70 then some (n - 55)
  else none

/-- The number that hexadecimal digits write; nothing if one of the characters is no such digit. -/
def hexNumber? (cs : List Char) : Option Nat :=
  cs.foldlM (fun n c => (hexValue? c).map (16 * n + ·)) 0

/-- The escape of a character by its code point, in the shortest of the three widths. -/
def codeEscape (c : Char) : List Char :=
  let n := c.toNat
  if n < 0x100 then '\\' :: 'x' :: hexDigits 2 n
  else if n < 0x10000 then '\\' :: 'u' :: hexDigits 4 n
  else '\\' :: 'U' :: hexDigits 8 n

/-- The characters that stand for `c` in a literal between `quote` marks. -/
def escapeChar (quote c : Char) : List Char :=
  if c = quote || c = '\\' then ['\\', c]
  else if c = '\t' then ['\\', 't']
  else if c = '\n' then ['\\', 'n']
  else if c = '\r' then ['\\', 'r']
  else if isPrintable c then [c]
  else codeEscape c

/-- The quote mark that a text is written with. -/
def quoteFor (cs : List Char) : Char :=
  if cs.contains apostrophe && !cs.contains doubleQuote then doubleQuote else apostrophe

/-- The string literal that writes a text. -/
def quoteChars (cs : List Char) : List Char :=
  let quote := quoteFor cs
  quote :: (cs.flatMap (escapeChar quote) ++ [quote])

/-- The string literal that writes a text. -/
def quote (s : String) : String := String.ofList (quoteChars s.toList)

/-- The character of a code point; nothing beyond the last one. A code point that is half of a
pair stands for no character and reads as the replacement character. -/
def charOfCode? (n : Nat) : Option Char :=
  if n > 0x10FFFF then none
  else if 0xD800 ≤ n && n ≤ 0xDFFF then some (Char.ofNat 0xFFFD)
  else some (Char.ofNat n)

/-- The value of an octal digit. -/
def octalValue? (c : Char) : Option Nat :=
  if '0' ≤ c && c ≤ '7' then some (c.toNat - 48) else none

/-- The character that a one-letter escape stands for. -/
def simpleEscape? (c : Char) : Option Char :=
  if c = '\\' || c = apostrophe || c = doubleQuote then some c
  else if c = 'a' then some (Char.ofNat 7)
  else if c = 'b' then some (Char.ofNat 8)
  else if c = 'f' then some (Char.ofNat 12)
  else if c = 'n' then some '\n'
  else if c = 'r' then some '\r'
  else if c = 't' then some '\t'
  else if c = 'v' then some (Char.ofNat 11)
  else none

/-- The text that a literal's body stands for; nothing if an escape by number is incomplete, out of
range or by name. A backslash before a line feed joins two lines, and one before any other character
without a meaning stands for itself. -/
def unescape : List Char → Option (List Char)
  | [] => some []
  | '\\' :: '\n' :: rest => unescape rest
  | '\\' :: 'x' :: a :: b :: rest =>
    match (hexNumber? [a, b]).bind charOfCode?, unescape rest with
    | some c, some t => some (c :: t)
    | _, _ => none
  | '\\' :: 'u' :: a :: b :: c :: d :: rest =>
    match (hexNumber? [a, b, c, d]).bind charOfCode?, unescape rest with
    | some c, some t => some (c :: t)
    | _, _ => none
  | '\\' :: 'U' :: a :: b :: c :: d :: e :: f :: g :: h :: rest =>
    match (hexNumber? [a, b, c, d, e, f, g, h]).bind charOfCode?, unescape rest with
    | some c, some t => some (c :: t)
    | _, _ => none
  | '\\' :: c :: rest =>
    if c = 'x' || c = 'u' || c = 'U' || c = 'N' then none
    else
      match simpleEscape? c with
      | some d => (unescape rest).map (d :: ·)
      | none =>
        match octalValue? c with
        | none => (unescape rest).map fun t => '\\' :: c :: t
        | some n =>
          match rest with
          | d :: rest' =>
            match octalValue? d with
            | none => (unescape (d :: rest')).map (Char.ofNat n :: ·)
            | some m =>
              match rest' with
              | e :: rest'' =>
                match octalValue? e with
                | none => (unescape (e :: rest'')).map (Char.ofNat (8 * n + m) :: ·)
                | some k => (unescape rest'').map (Char.ofNat (64 * n + 8 * m + k) :: ·)
              | [] => some [Char.ofNat (8 * n + m)]
          | [] => some [Char.ofNat n]
  | c :: rest => (unescape rest).map (c :: ·)

end ValueShell.Text
