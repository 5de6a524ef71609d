import ValueShell.Fault
import ValueShell.Text.Quoted

/-!
# Lines of a script

A script mixes lines of its host language with command lines, which begin with `>`. Reading a script
cuts it into logical lines: a line end inside of a string literal does not end a line, a backslash at
the end of a line joins it to the next, and comments are dropped.
-/

set_option autoImplicit false

namespace ValueShell.Script

open ValueShell.Text

/-- What a line is written in. -/
inductive Mode where
  /-- The language of the script. -/
  | host
  /-- A command line. -/
  | shell
  deriving DecidableEq, Repr, Inhabited

/-- The name of a mode. -/
def Mode.name : Mode → String
  | .host => "python"
  | .shell => "shell"

/-- A logical line: the blanks before it, its mode and what it says. -/
structure Line where
  indent : List Char
  mode : Mode
  content : List Char
  deriving DecidableEq, Repr, Inhabited

/-- White space that indents a line. -/
def isIndent (c : Char) : Bool := c = ' ' || c = '\t' || c = '\x0c' || c = '\x0b'

/-- Text that was taken from the head of a script, and what is left. -/
abbrev Taken := List Char × List Char

/-- Puts characters before what was taken. -/
def withHead (head : List Char) (r : Except Complaint Taken) : Except Complaint Taken :=
  r.map fun (body, left) => (head ++ body, left)

/-- The rest of a string literal on one line, its closing quote included. A backslash hides the
character after it, and with a line end it vanishes. -/
def shortLiteral (quote : Char) : List Char → Except Complaint Taken
  | [] => .error .literalAtEnd
  | '\\' :: '\n' :: rest => shortLiteral quote rest
  | '\\' :: '\r' :: '\n' :: rest => shortLiteral quote rest
  | '\\' :: '\r' :: rest => shortLiteral quote rest
  | '\\' :: c :: rest => withHead ['\\', c] (shortLiteral quote rest)
  | c :: rest =>
    if isLineEnd c then .error .literalAtLineEnd
    else if c = '\\' then .error .literalAtEnd
    else if c = quote then .ok ([c], rest)
    else withHead [c] (shortLiteral quote rest)
where
  /-- A carriage return or a line feed. -/
  isLineEnd (c : Char) : Bool := c = '\r' || c = '\n'

/-- The rest of a string literal of several lines, its closing quotes included, after `count` quotes.
Quotes are counted up to three; only a plain character starts the count again. -/
def longLiteral (quote : Char) : Nat → List Char → Except Complaint Taken
  | _, [] => .error .documentAtEnd
  | count, '\\' :: '\n' :: rest => longLiteral quote count rest
  | count, '\\' :: '\r' :: '\n' :: rest => longLiteral quote count rest
  | count, '\\' :: '\r' :: rest => longLiteral quote count rest
  | count, '\\' :: c :: rest => withHead ['\\', c] (longLiteral quote count rest)
  | count, c :: rest =>
    if c = quote then
      if count ≥ 2 then .ok ([c], rest) else withHead [c] (longLiteral quote (count + 1) rest)
    else if c = '\\' then .error .documentAtEnd
    else withHead [c] (longLiteral quote 0 rest)

/-- The string literal at the head of a text that begins with a quote. -/
def literal (quote : Char) (rest : List Char) : Except Complaint Taken :=
  match rest with
  | c :: after =>
    if c ≠ quote then withHead [quote] (shortLiteral quote rest)
    else
      match after with
      | d :: after' =>
        if d = quote then withHead [quote, quote, quote] (longLiteral quote 0 after')
        else .ok ([quote, quote], after)
      | [] => .ok ([quote, quote], [])
  | [] => withHead [quote] (shortLiteral quote [])

/-- What a line says, what is left after its end, and whether reading stopped at the end of the
script. -/
structure Body where
  content : List Char
  left : List Char
  ended : Bool

/-- Puts characters before a body. -/
def Body.cons (head : List Char) (b : Body) : Body := { b with content := head ++ b.content }

/-- Reads the content of a line up to its end. Every step takes at least one character. -/
def body : Nat → List Char → Except Complaint Body
  | 0, cs => .ok ⟨[], cs, true⟩
  | _ + 1, [] => .ok ⟨[], [], true⟩
  | n + 1, c :: rest =>
    if c = apostrophe || c = doubleQuote then do
      let (piece, left) ← literal c rest
      let b ← body n left
      .ok (b.cons piece)
    else if c = '#' then
      let left := (rest.dropWhile (· ≠ '\n')).drop 1
      .ok ⟨[], left, left.isEmpty⟩
    else if c = '\r' then
      match rest with
      | '\n' :: left => .ok ⟨[], left, false⟩
      | _ => .ok ⟨[], rest, rest.isEmpty⟩
    else if c = '\n' then .ok ⟨[], rest, false⟩
    else if c = '\\' then
      match rest with
      | '\n' :: left => body n left
      | '\r' :: '\n' :: left => body n left
      | '\r' :: left => body n left
      | _ => (body n rest).map (Body.cons [c])
    else (body n rest).map (Body.cons [c])

/-- The next line and what is left after it; nothing at the end of the script. -/
def nextLine (cs : List Char) : Except Complaint (Option (Line × List Char)) := do
  let indent := cs.takeWhile isIndent
  let rest := cs.dropWhile isIndent
  let (mode, rest) := match rest with
    | '>' :: after => (Mode.shell, after.dropWhile isIndent)
    | _ => (Mode.host, rest)
  let b ← body (rest.length + 1) rest
  if b.ended && b.content.isEmpty then .ok none
  else .ok (some (⟨indent, mode, b.content⟩, b.left))

/-- The lines of a script, and the complaint that ended the reading. -/
structure Reading where
  lines : List Line
  complaint : Option Complaint := none
  deriving Inhabited

/-- Reads lines. Every line takes at least one character, apart from the last. -/
def linesFrom : Nat → List Char → Reading
  | 0, _ => { lines := [] }
  | n + 1, cs =>
    match nextLine cs with
    | .error c => { lines := [], complaint := some c }
    | .ok none => { lines := [] }
    | .ok (some (line, left)) =>
      let others := linesFrom n left
      { others with lines := line :: others.lines }

/-- The lines of a script. -/
def lines (cs : List Char) : Reading := linesFrom (cs.length + 1) cs

end ValueShell.Script
