import ValueShell.Expr.Syntax
import ValueShell.Number.Nearest
import ValueShell.Text.Letter
import ValueShell.Text.Lines
import ValueShell.Text.Quoted

/-!
# Lexemes of expressions

The lexemes of expressions. `Lexeme.scan` reads a whole text; it stops short at a character that
begins no lexeme, a malformed number, an open string and a bracket that does not match. White space
before the first lexeme of a line is an indentation, which no expression has.
-/

set_option autoImplicit false

namespace ValueShell.Expr

open ValueShell.Text
open ValueShell.Number

/-- A lexeme of an expression. -/
inductive Lexeme where
  | name (s : String)
  | keyword (s : String)
  | constant (l : Literal)
  /-- An operator, a bracket or a separator. -/
  | mark (s : String)
  | newline
  | indent
  /-- What follows is no lexeme; nothing is read after it. -/
  | broken

/-- The words that cannot be names. -/
def keywords : List String :=
  ["False", "None", "True", "and", "as", "assert", "async", "await", "break", "class", "continue",
    "def", "del", "elif", "else", "except", "finally", "for", "from", "global", "if", "import", "in",
    "is", "lambda", "nonlocal", "not", "or", "pass", "raise", "return", "try", "while", "with", "yield"]

/-- The marks of three characters, then those of two, then those of one. -/
def marks : List String :=
  ["**=", "//=", ">>=", "<<=", "...", "!=", "->", ":=", "==", "<=", ">=", "<>", "<<", ">>", "**", "//",
    "+=", "-=", "*=", "/=", "%=", "&=", "|=", "^=", "@=", "(", ")", "[", "]", "\x7b", "\x7d", ",", ":",
    ";", ".", "+", "-", "*", "/", "%", "@", "&", "|", "^", "~", "<", ">", "="]

/-- The deepest nesting of brackets. -/
def maxNesting : Nat := 200

/-- The character can stand in a name, at this stage of reading: every character beyond ASCII can. -/
def mayBeNameChar (c : Char) : Bool := isAsciiNameChar c || c.toNat ≥ 128

/-- Digits that may be grouped by single underscores: the digits without the underscores, and the
rest. Nothing if the text does not begin with a digit or an underscore has no digit after it. -/
def digitGroups (isDigit : Char → Bool) : List Char → Option (List Char × List Char)
  | [] => none
  | c :: rest =>
    if !isDigit c then none
    else
      match rest with
      | [] => some ([c], [])
      | d :: rest' =>
        if isDigit d then (digitGroups isDigit (d :: rest')).map fun (ds, r) => (c :: ds, r)
        else if d = '_' then (digitGroups isDigit rest').map fun (ds, r) => (c :: ds, r)
        else some ([c], d :: rest')

/-- A number may end before this text: it begins with no name, or with a keyword that can follow a
number. -/
def numberEndsBefore (cs : List Char) : Bool :=
  match cs with
  | [] => true
  | c :: rest =>
    (c = 'a' && ['n', 'd'].isPrefixOf rest) || (c = 'e' && ['l', 's', 'e'].isPrefixOf rest) ||
      (c = 'f' && ['o', 'r'].isPrefixOf rest) ||
      (c = 'i' && (rest.head? == some 'f' || rest.head? == some 'n' || rest.head? == some 's')) ||
      (c = 'o' && ['r'].isPrefixOf rest) || (c = 'n' && ['o', 't'].isPrefixOf rest) ||
      !mayBeNameChar c

/-- The value of ASCII digits. -/
def decimalValue (ds : List Char) : Nat := ds.foldl (fun n c => 10 * n + (c.toNat - 48)) 0

/-- The end of a number with a decimal mantissa: an imaginary mark or none. -/
def finishNumber (whole fraction : List Char) (isReal : Bool) (exponent : Int) (cs : List Char) :
    Option (Literal × List Char) :=
  let value := nearestDecimal (decimalValue (whole ++ fraction)) (exponent - fraction.length)
  match cs with
  | 'j' :: rest => if numberEndsBefore rest then some (.imaginary value, rest) else none
  | 'J' :: rest => if numberEndsBefore rest then some (.imaginary value, rest) else none
  | _ =>
    if !numberEndsBefore cs then none
    else if isReal then some (.real value, cs)
    else some (.int (decimalValue whole), cs)

/-- The rest of a number after its mantissa. -/
def scanExponent (whole fraction : List Char) (isReal : Bool) (cs : List Char) :
    Option (Literal × List Char) :=
  match cs with
  | [] => finishNumber whole fraction isReal 0 []
  | e :: rest =>
    if e = 'e' || e = 'E' then
      match rest with
      | [] => none
      | s :: rest' =>
        if s = '+' || s = '-' then do
          let (ds, after) ← digitGroups Char.isDigit rest'
          let n : Int := decimalValue ds
          finishNumber whole fraction true (if s = '-' then -n else n) after
        else if s.isDigit then do
          let (ds, after) ← digitGroups Char.isDigit (s :: rest')
          finishNumber whole fraction true (decimalValue ds) after
        else finishNumber whole fraction isReal 0 (e :: rest)
    else finishNumber whole fraction isReal 0 (e :: rest)

/-- The rest of a number after its point. -/
def scanFraction (whole : List Char) (cs : List Char) : Option (Literal × List Char) :=
  match cs with
  | c :: rest =>
    if c.isDigit then do
      let (ds, after) ← digitGroups Char.isDigit (c :: rest)
      scanExponent whole ds true after
    else scanExponent whole [] true (c :: rest)
  | [] => scanExponent whole [] true []

/-- A number in a base other than ten, after its two-character mark. -/
def scanBased (base : Nat) (isDigit : Char → Bool) (cs : List Char) : Option (Literal × List Char) := do
  let body := match cs with
    | '_' :: rest => rest
    | other => other
  let (ds, after) ← digitGroups isDigit body
  let value := ds.foldl (fun n c => base * n + (hexValue? c).getD 0) 0
  if numberEndsBefore after && !((after.head?.map Char.isDigit).getD false) then
    some (.int value, after)
  else none

/-- A number at the head of a text that begins with a digit or with a point and a digit. -/
def scanNumber (cs : List Char) : Option (Literal × List Char) :=
  match cs with
  | '.' :: rest => scanFraction [] rest
  | '0' :: 'x' :: rest => scanBased 16 (fun c => (hexValue? c).isSome) rest
  | '0' :: 'X' :: rest => scanBased 16 (fun c => (hexValue? c).isSome) rest
  | '0' :: 'o' :: rest => scanBased 8 (fun c => (octalValue? c).isSome) rest
  | '0' :: 'O' :: rest => scanBased 8 (fun c => (octalValue? c).isSome) rest
  | '0' :: 'b' :: rest => scanBased 2 (fun c => c = '0' || c = '1') rest
  | '0' :: 'B' :: rest => scanBased 2 (fun c => c = '0' || c = '1') rest
  | _ => do
    let (ds, after) ← digitGroups Char.isDigit cs
    match after with
    | '.' :: rest => scanFraction ds rest
    | _ =>
      let (value, rest) ← scanExponent ds [] false after
      match value with
      | .int n => if ds.head? == some '0' && n != 0 then none else some (.int n, rest)
      | other => some (other, rest)

/-- The prefix of a string literal. -/
structure StringPrefix where
  raw : Bool := false
  bytes : Bool := false
  unicode : Bool := false
  formatted : Bool := false

/-- Adds a letter to a string prefix, if the two go together. -/
def StringPrefix.add? (p : StringPrefix) (c : Char) : Option StringPrefix :=
  if (c = 'b' || c = 'B') && !(p.bytes || p.unicode || p.formatted) then some { p with bytes := true }
  else if (c = 'u' || c = 'U') && !(p.bytes || p.unicode || p.raw || p.formatted) then
    some { p with unicode := true }
  else if (c = 'r' || c = 'R') && !(p.raw || p.unicode) then some { p with raw := true }
  else if (c = 'f' || c = 'F') && !(p.formatted || p.bytes || p.unicode) then
    some { p with formatted := true }
  else none

/-- A quote mark. -/
def isQuote (c : Char) : Bool := c = apostrophe || c = doubleQuote

/-- The prefix of a string literal that begins here, and the text from its quote on. -/
def stringPrefix? (p : StringPrefix) : List Char → Option (StringPrefix × List Char)
  | [] => none
  | c :: rest =>
    if isQuote c then some (p, c :: rest)
    else
      match p.add? c with
      | some p' => stringPrefix? p' rest
      | none => none

/-- The body of a string that ends in one quote, and the text after it. -/
def shortBody (quote : Char) : List Char → Option (List Char × List Char)
  | [] => none
  | '\\' :: c :: rest => (shortBody quote rest).map fun (body, r) => ('\\' :: c :: body, r)
  | c :: rest =>
    if c = quote then some ([], rest)
    else if c = '\n' then none
    else (shortBody quote rest).map fun (body, r) => (c :: body, r)

/-- The body of a string that ends in three quotes, and the text after it. -/
def longBody (quote : Char) : List Char → Option (List Char × List Char)
  | [] => none
  | '\\' :: c :: rest => (longBody quote rest).map fun (body, r) => ('\\' :: c :: body, r)
  | a :: b :: c :: rest =>
    if a = quote && b = quote && c = quote then some ([], rest)
    else (longBody quote (b :: c :: rest)).map fun (body, r) => (a :: body, r)
  | _ :: rest => longBody quote rest

/-- The body of the string literal that begins with this quote, and the text after it. -/
def stringBody? : List Char → Option (List Char × List Char)
  | q :: q' :: q'' :: rest =>
    if q = q' && q = q'' then longBody q rest
    else if q = q' then some ([], q'' :: rest)
    else shortBody q (q' :: q'' :: rest)
  | [q, q'] => if q = q' then some ([], []) else none
  | _ => none

/-- The constant that a string literal with this prefix and body stands for. -/
def StringPrefix.literal? (p : StringPrefix) (body : List Char) : Option Literal :=
  if p.formatted then
    if body.contains (Char.ofNat 0x7B) || body.contains (Char.ofNat 0x7D) then none
    else (if p.raw then some body else unescape body).map fun cs => .text (String.ofList cs)
  else if p.bytes then
    if body.any (·.toNat ≥ 128) then none
    else (if p.raw then some body else unescape body).map fun cs => .bytes (String.ofList cs)
  else (if p.raw then some body else unescape body).map fun cs => .text (String.ofList cs)

/-- The mark at the head of a text, the longest first. -/
def mark? (cs : List Char) : Option (String × List Char) :=
  (marks.find? fun m => m.toList.isPrefixOf cs).map fun m => (m, cs.drop m.length)

/-- The bracket that closes an opening one. -/
def closing? (m : String) : Option String :=
  if m = "(" then some ")" else if m = "[" then some "]" else if m = "\x7b" then some "\x7d" else none

/-- A line begins here: the width of the white space before its first lexeme, and the rest. A
backslash at the end of a line joins it to the next, and the first width that is not zero counts. -/
def lineStart (column joined : Nat) : List Char → Option (Nat × List Char)
  | [] => some (if joined = 0 then column else joined, [])
  | ' ' :: rest => lineStart (column + 1) joined rest
  | '\t' :: rest => lineStart ((column / 8 + 1) * 8) joined rest
  | '\x0c' :: rest => lineStart 0 joined rest
  | '\\' :: '\n' :: c :: rest =>
    lineStart column (if joined = 0 then column else joined) (c :: rest)
  | '\\' :: _ => none
  | c :: rest => some (if joined = 0 then column else joined, c :: rest)

/-- Reads lexemes. `waiting` holds the brackets that wait to be closed, innermost first; `fresh` tells
that a line begins here. Every second step takes at least one character, so twice as many steps as
there are characters, and two for the end, are enough. -/
def scanFrom : Nat → List String → Bool → List Char → List Lexeme
  | 0, _, _, _ => [.broken]
  | fuel + 1, waiting, true, cs =>
    match lineStart 0 0 cs with
    | none => [.broken]
    | some (column, rest) =>
      match rest with
      | '#' :: _ =>
        match rest.dropWhile (· ≠ '\n') with
        | '\n' :: after => scanFrom fuel waiting true after
        | _ => if waiting.isEmpty then [] else [.broken]
      | '\n' :: after => scanFrom fuel waiting true after
      | _ =>
        if column > 0 && waiting.isEmpty then .indent :: scanFrom fuel waiting false rest
        else scanFrom fuel waiting false rest
  | fuel + 1, waiting, false, cs =>
    match cs with
    | [] => if waiting.isEmpty then [] else [.broken]
    | c :: rest =>
      if c = ' ' || c = '\t' || c = '\x0c' then scanFrom fuel waiting false rest
      else if c = '#' then scanFrom fuel waiting false (rest.dropWhile (· ≠ '\n'))
      else if c = '\n' then
        if waiting.isEmpty then .newline :: scanFrom fuel waiting true rest
        else scanFrom fuel waiting true rest
      else if c = '\\' then
        match rest with
        | '\n' :: d :: after => scanFrom fuel waiting false (d :: after)
        | _ => [.broken]
      else if c.isDigit || (c = '.' && (rest.head?.map Char.isDigit).getD false) then
        match scanNumber cs with
        | some (value, after) => .constant value :: scanFrom fuel waiting false after
        | none => [.broken]
      else
        match stringPrefix? {} cs with
        | some (p, quoted) =>
          match stringBody? quoted with
          | none => [.broken]
          | some (body, after) =>
            match p.literal? body with
            | some value => .constant value :: scanFrom fuel waiting false after
            | none => [.broken]
        | none =>
          if mayBeNameChar c then
            let word := cs.takeWhile mayBeNameChar
            let after := cs.dropWhile mayBeNameChar
            if !(isIdentifierStart c && word.all isIdentifierChar) then [.broken]
            else
              let s := String.ofList word
              (if keywords.contains s then .keyword s else .name s) :: scanFrom fuel waiting false after
          else
            match mark? cs with
            | none => [.broken]
            | some (m, after) =>
              match closing? m with
              | some close =>
                if waiting.length ≥ maxNesting then [.broken]
                else .mark m :: scanFrom fuel (close :: waiting) false after
              | none =>
                if m = ")" || m = "]" || m = "\x7d" then
                  match waiting with
                  | close :: others =>
                    if close = m then .mark m :: scanFrom fuel others false after else [.broken]
                  | [] => [.broken]
                else .mark m :: scanFrom fuel waiting false after

/-- The lexemes of a text; `broken` stands where reading stopped short. -/
def Lexeme.scan (cs : List Char) : List Lexeme :=
  let text := normalizeNewlines cs
  scanFrom (2 * text.length + 2) [] true text

end ValueShell.Expr
